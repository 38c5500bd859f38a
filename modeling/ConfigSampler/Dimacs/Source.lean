import ConfigSampler.Arithmetic.Count
import ConfigSampler.Error
import ConfigSampler.Text.Blank
import ConfigSampler.Text.Decimal

/-!
# Reading numbers from DIMACS text

A `Source` is what is left of a text together with the number of the line that its first
character stands on.  `readCount` and `readLiteral` skip white space and read one number; each
leaves a strictly shorter source, which is what the loops of the reader end by.
-/

set_option autoImplicit false

namespace ConfigSampler.Dimacs

open Text (isDigit digitsValue?)

/-- The unread part of a text and the line it starts on. -/
structure Source where
  line : Nat
  rest : List Char
deriving DecidableEq, Repr

namespace Source

/-- The start of a text. -/
def ofText (text : String) : Source := ⟨1, text.toList⟩

/-- The line on which the character after `c` stands. -/
def lineAfter (line : Nat) (c : Char) : Nat := if c = '\n' then line + 1 else line

/-- Leaves out the white space at the start of `cs`, which starts on the given line. -/
def skipBlanksFrom (line : Nat) : List Char → Source
  | [] => ⟨line, []⟩
  | c :: cs => if Text.isBlank c then skipBlanksFrom (lineAfter line c) cs else ⟨line, c :: cs⟩

/-- The source without the white space at its start. -/
def skipBlanks (s : Source) : Source := skipBlanksFrom s.line s.rest

/-- The error of a fault at the start of the source. -/
def fail {α : Type} (s : Source) (fault : DimacsFault) : Except SampleError α :=
  .error (.dimacs s.line fault)

theorem skipBlanksFrom_length_le (line : Nat) (cs : List Char) :
    (skipBlanksFrom line cs).rest.length ≤ cs.length := by
  induction cs generalizing line with
  | nil => exact Nat.le_refl _
  | cons c cs ih =>
    simp only [skipBlanksFrom]
    split
    · exact Nat.le_succ_of_le (ih _)
    · exact Nat.le_refl _

theorem skipBlanks_length_le (s : Source) : s.skipBlanks.rest.length ≤ s.rest.length :=
  skipBlanksFrom_length_le _ _

end Source

/-- Reads a run of digits whose number is at most `maxCount`. -/
def readDigits (s : Source) : Except SampleError (Nat × Source) :=
  let digits := s.rest.takeWhile isDigit
  if digits.isEmpty then s.fail .numberExpected
  else
    match digitsValue? maxCount digits with
    | none => s.fail .numberTooLarge
    | some value => .ok (value, ⟨s.line, s.rest.dropWhile isDigit⟩)

/-- Reads an unsigned number, which may carry a plus sign. -/
def readCount (s : Source) : Except SampleError (Nat × Source) :=
  let s := s.skipBlanks
  match s.rest with
  | '+' :: rest => readDigits ⟨s.line, rest⟩
  | _ => readDigits s

/-- The largest variable of a literal. -/
def maxLiteral : Nat := 2147483647

/-- Reads the digits of a literal with the given sign. -/
def readMagnitude (negative : Bool) (s : Source) : Except SampleError (Int × Source) :=
  match readDigits s with
  | .error e => .error e
  | .ok (value, s) =>
    if maxLiteral < value then s.fail .literalTooLarge
    else .ok (if negative then -(value : Int) else (value : Int), s)

/-- Reads a literal, or the zero that ends a clause. -/
def readLiteral (s : Source) : Except SampleError (Int × Source) :=
  let s := s.skipBlanks
  match s.rest with
  | '+' :: rest => readMagnitude false ⟨s.line, rest⟩
  | '-' :: rest => readMagnitude true ⟨s.line, rest⟩
  | _ => readMagnitude false s

/-! ## Reading shortens the source -/

theorem length_dropWhile_le {α : Type} (p : α → Bool) (l : List α) :
    (l.dropWhile p).length ≤ l.length := by
  induction l with
  | nil => exact Nat.le_refl _
  | cons a l ih =>
    rw [List.dropWhile_cons]
    split
    · exact Nat.le_succ_of_le ih
    · exact Nat.le_refl _

theorem readDigits_length {s s' : Source} {n : Nat} (h : readDigits s = .ok (n, s')) :
    s'.rest.length < s.rest.length := by
  unfold readDigits at h
  simp only at h
  split at h
  · cases h
  · rename_i hne
    split at h
    · cases h
    · cases h
      match hr : s.rest with
      | [] => rw [hr] at hne; exact absurd rfl hne
      | c :: cs =>
        rw [hr] at hne
        by_cases hc : isDigit c = true
        · simp only [List.dropWhile_cons, hc, if_true, List.length_cons]
          exact Nat.lt_succ_of_le (length_dropWhile_le _ _)
        · simp only [List.takeWhile_cons, hc] at hne
          exact absurd rfl hne

theorem readMagnitude_length {s s' : Source} {b : Bool} {lit : Int}
    (h : readMagnitude b s = .ok (lit, s')) : s'.rest.length < s.rest.length := by
  unfold readMagnitude at h
  split at h
  · cases h
  · rename_i hd
    split at h
    · cases h
    · cases h
      exact readDigits_length hd

theorem readLiteral_length {s s' : Source} {lit : Int} (h : readLiteral s = .ok (lit, s')) :
    s'.rest.length < s.rest.length := by
  have hle := s.skipBlanks_length_le
  unfold readLiteral at h
  simp only at h
  split at h
  · rename_i hr
    have := readMagnitude_length h
    rw [hr, List.length_cons] at hle
    simp only at this
    omega
  · rename_i hr
    have := readMagnitude_length h
    rw [hr, List.length_cons] at hle
    simp only at this
    omega
  · exact Nat.lt_of_lt_of_le (readMagnitude_length h) hle

end ConfigSampler.Dimacs
