import ConfigSampler.Dimacs.Source
import Mathlib.Data.List.Basic

/-!
# Numbers in text

A number is written as a run of digits, with or without leading zeros, which may carry a sign
(`Text.IsNumeral`, `Text.WritesCount`, `Dimacs.WritesLiteral`).  However it is written, the reader
finds the number and stops behind it, provided that no digit follows (`Dimacs.readCount_spec`,
`Dimacs.readLiteral_spec`).
-/

set_option autoImplicit false

namespace ConfigSampler

namespace Text

variable {c : Char} {n : Nat} {digits : List Char}

/-- The characters are decimal digits, at least one, that denote the number. -/
structure IsNumeral (n : Nat) (digits : List Char) : Prop where
  ne_nil : digits ≠ []
  allDigits : ∀ c ∈ digits, isDigit c = true
  value : digitsValue digits = n

instance (n : Nat) (digits : List Char) : Decidable (IsNumeral n digits) :=
  decidable_of_iff (digits ≠ [] ∧ digits.all isDigit = true ∧ digitsValue digits = n)
    ⟨fun h => ⟨h.1, List.all_eq_true.1 h.2.1, h.2.2⟩,
      fun h => ⟨h.ne_nil, List.all_eq_true.2 h.allDigits, h.value⟩⟩

theorem isDigit_eq (c : Char) : isDigit c = c.isDigit := by
  simp [isDigit, Char.isDigit, Char.le_def]

theorem digitsValueFrom_eq (value : Nat) (digits : List Char) :
    digitsValueFrom value digits = Nat.ofDigitChars 10 digits value := by
  rw [Nat.ofDigitChars_eq_foldl, digitsValueFrom]
  congr 1
  funext value c
  rw [addDigit, Nat.mul_comm]

/-- The decimal text of a number denotes it. -/
theorem isNumeral_toString (n : Nat) : IsNumeral n (toString n).toList := by
  rw [Nat.toString_eq_ofList_toDigits, String.toList_ofList]
  refine ⟨Nat.toDigits_ne_nil, fun c hc => ?_, ?_⟩
  · rw [isDigit_eq]
    exact Nat.isDigit_of_mem_toDigits (by decide) (by decide) hc
  · rw [digitsValue, digitsValueFrom_eq, Nat.ofDigitChars_ten_toDigits]

theorem IsNumeral.digitsValue? (h : IsNumeral n digits) {bound : Nat} (hn : n ≤ bound) :
    Text.digitsValue? bound digits = some n := by
  rw [digitsValue?_eq, h.value, if_neg (Nat.not_lt.2 hn)]

theorem IsNumeral.start (h : IsNumeral n digits) : ∃ c cs, digits = c :: cs ∧ isDigit c = true := by
  obtain ⟨c, cs, rfl⟩ := List.exists_cons_of_ne_nil h.ne_nil
  exact ⟨c, cs, rfl, h.allDigits c List.mem_cons_self⟩

/-- The ways to write an unsigned number. -/
inductive WritesCount (n : Nat) : List Char → Prop
  | plain {digits : List Char} (h : IsNumeral n digits) : WritesCount n digits
  | plus {digits : List Char} (h : IsNumeral n digits) : WritesCount n ('+' :: digits)

/-! ## White space -/

theorem isBlank_of_isDigit (h : isDigit c = true) : isBlank c = false := by
  simp only [isDigit, Bool.and_eq_true, decide_eq_true_eq, Char.le_def, UInt32.le_iff_toNat_le] at h
  have hlow : 48 ≤ c.toNat := h.1
  have hhigh : c.toNat ≤ 57 := h.2
  simp only [isBlank, Bool.or_eq_false_iff, Bool.and_eq_false_iff, decide_eq_false_iff_not,
    beq_eq_false_iff_ne]
  omega

theorem isDigit_of_isBlank (h : isBlank c = true) : isDigit c = false := by
  by_contra hdigit
  rw [isBlank_of_isDigit (by simpa using hdigit)] at h
  cases h

/-- All characters are white space. -/
def AllBlank (cs : List Char) : Prop := ∀ c ∈ cs, isBlank c = true

instance (cs : List Char) : Decidable (AllBlank cs) :=
  decidable_of_iff (cs.all isBlank = true) List.all_eq_true

end Text

namespace Dimacs

open Text

variable {n line : Nat} {x : Int} {c : Char} {digits token gap rest cs : List Char}

/-! ## White space -/

namespace Source

theorem skipBlanks_cons (h : isBlank c = true) (line : Nat) (cs : List Char) :
    skipBlanks ⟨line, c :: cs⟩ = skipBlanks ⟨lineAfter line c, cs⟩ :=
  if_pos h

theorem skipBlanks_append (h : AllBlank gap) (line : Nat) (cs : List Char) :
    skipBlanks ⟨line, gap ++ cs⟩ = skipBlanks ⟨gap.foldl lineAfter line, cs⟩ := by
  induction gap generalizing line with
  | nil => rfl
  | cons c gap ih =>
    obtain ⟨hc, hgap⟩ := List.forall_mem_cons.1 h
    rw [List.cons_append, skipBlanks_cons hc, ih hgap, List.foldl_cons]

theorem skipBlanks_of_not_blank (h : isBlank c = false) (line : Nat) (cs : List Char) :
    skipBlanks ⟨line, c :: cs⟩ = ⟨line, c :: cs⟩ :=
  if_neg (by simp [h])

end Source

/-! ## Digits -/

/-- A number that ends here does not go on with a digit. -/
def EndsNumber (rest : List Char) : Prop := ∀ c ∈ rest.head?, isDigit c = false

theorem endsNumber_nil : EndsNumber [] := by simp [EndsNumber]

theorem endsNumber_cons (h : isDigit c = false) : EndsNumber (c :: rest) := by
  simpa [EndsNumber] using h

theorem endsNumber_append (hgap : AllBlank gap) (hne : gap ≠ []) : EndsNumber (gap ++ rest) := by
  obtain ⟨c, gap, rfl⟩ := List.exists_cons_of_ne_nil hne
  exact endsNumber_cons (isDigit_of_isBlank (hgap c List.mem_cons_self))

theorem readDigits_spec (h : IsNumeral n digits) (hn : n ≤ maxCount) (hrest : EndsNumber rest) :
    readDigits ⟨line, digits ++ rest⟩ = .ok (n, ⟨line, rest⟩) := by
  have htake : rest.takeWhile isDigit = [] := by
    cases rest with
    | nil => rfl
    | cons c rest => simp [hrest c rfl]
  have hdrop : rest.dropWhile isDigit = rest := by
    cases rest with
    | nil => rfl
    | cons c rest => simp [hrest c rfl]
  unfold readDigits
  simp only [List.takeWhile_append_of_pos h.allDigits, List.dropWhile_append_of_pos h.allDigits, htake,
    hdrop, List.append_nil, List.isEmpty_iff, h.ne_nil, if_false, h.digitsValue? hn]

/-! ## Counts and literals -/

/-- The ways to write a literal, or the zero that ends a clause. -/
inductive WritesLiteral : Int → List Char → Prop
  | plain {n : Nat} {digits : List Char} (h : IsNumeral n digits) : WritesLiteral n digits
  | plus {n : Nat} {digits : List Char} (h : IsNumeral n digits) : WritesLiteral n ('+' :: digits)
  | minus {n : Nat} {digits : List Char} (h : IsNumeral n digits) :
      WritesLiteral (-n) ('-' :: digits)

/-- A literal starts with a digit or a sign. -/
theorem WritesLiteral.start (h : WritesLiteral x token) :
    ∃ c cs, token = c :: cs ∧ isBlank c = false ∧ c ≠ 'c' := by
  cases h with
  | plain h =>
    obtain ⟨c, cs, rfl, hc⟩ := h.start
    refine ⟨c, cs, rfl, isBlank_of_isDigit hc, ?_⟩
    rintro rfl
    exact absurd hc (by decide)
  | plus h => exact ⟨_, _, rfl, by decide, by decide⟩
  | minus h => exact ⟨_, _, rfl, by decide, by decide⟩

/-- Reading a count skips the white space before it. -/
theorem readCount_spec (hgap : AllBlank gap) (h : WritesCount n token) (hn : n ≤ maxCount)
    (hrest : EndsNumber rest) :
    readCount ⟨line, gap ++ (token ++ rest)⟩ = .ok (n, ⟨gap.foldl Source.lineAfter line, rest⟩) := by
  unfold readCount
  rw [Source.skipBlanks_append hgap]
  cases h with
  | plain h =>
    obtain ⟨c, cs, rfl, hc⟩ := h.start
    rw [List.cons_append, Source.skipBlanks_of_not_blank (isBlank_of_isDigit hc)]
    dsimp only
    split
    · rename_i heq
      cases heq
      exact absurd hc (by decide)
    · exact readDigits_spec h hn hrest
  | plus h =>
    rw [List.cons_append, Source.skipBlanks_of_not_blank (by decide)]
    exact readDigits_spec h hn hrest

/-- What is skipped before a literal makes no difference to it. -/
theorem readLiteral_skipBlanks {s s' : Source} (h : s.skipBlanks = s'.skipBlanks) :
    readLiteral s = readLiteral s' := by
  unfold readLiteral
  rw [h]

theorem readMagnitude_spec (h : IsNumeral n digits) (hn : n ≤ maxLiteral) (hrest : EndsNumber rest)
    (negative : Bool) : readMagnitude negative ⟨line, digits ++ rest⟩ =
      .ok (if negative then -(n : Int) else n, ⟨line, rest⟩) := by
  have hcount : n ≤ maxCount := Nat.le_trans hn (by decide)
  unfold readMagnitude
  rw [readDigits_spec h hcount hrest]
  simp only [if_neg (Nat.not_lt.2 hn)]

theorem readLiteral_spec (h : WritesLiteral x token) (hx : x.natAbs ≤ maxLiteral)
    (hrest : EndsNumber rest) :
    readLiteral ⟨line, token ++ rest⟩ = .ok (x, ⟨line, rest⟩) := by
  unfold readLiteral
  cases h with
  | plain h =>
    obtain ⟨c, cs, rfl, hc⟩ := h.start
    rw [List.cons_append, Source.skipBlanks_of_not_blank (isBlank_of_isDigit hc)]
    dsimp only
    split
    · rename_i heq
      cases heq
      exact absurd hc (by decide)
    · rename_i heq
      cases heq
      exact absurd hc (by decide)
    · exact readMagnitude_spec h (by simpa using hx) hrest false
  | plus h =>
    rw [List.cons_append, Source.skipBlanks_of_not_blank (by decide)]
    exact readMagnitude_spec h (by simpa using hx) hrest false
  | minus h =>
    rw [List.cons_append, Source.skipBlanks_of_not_blank (by decide)]
    exact readMagnitude_spec h (by simpa using hx) hrest true

end Dimacs

end ConfigSampler
