import ConfigSampler.Dimacs.Document
import ConfigSampler.Proofs.Numerals
import Mathlib.Data.List.TakeWhile

/-!
# Comments that name variables

A comment names a variable if its text is a number, white space and a name, with white space around
(`Dimacs.Names`); a name starts and ends with other characters than white space.  These are the
comments that the reader takes a name from (`Dimacs.nameOfComment_eq_some`).
-/

set_option autoImplicit false

namespace ConfigSampler

namespace Text

variable {c : Char} {n bound : Nat} {cs word rest before gap after : List Char}

/-- There is no white space at either end. -/
structure Bare (cs : List Char) : Prop where
  head : ∀ c ∈ cs.head?, isBlank c = false
  last : ∀ c ∈ cs.getLast?, isBlank c = false

instance (cs : List Char) : Decidable (Bare cs) :=
  decidable_of_iff (cs.head?.all (!isBlank ·) = true ∧ cs.getLast?.all (!isBlank ·) = true) <| by
    simp only [Option.all_eq_true, Bool.not_eq_true']
    exact ⟨fun h => ⟨h.1, h.2⟩, fun h => ⟨h.head, h.last⟩⟩

/-! ## Trimming -/

theorem trimStart_append (h : AllBlank before) : trimStart (before ++ cs) = trimStart cs :=
  List.dropWhile_append_of_pos h

theorem trimStart_of_head (h : ∀ c ∈ cs.head?, isBlank c = false) : trimStart cs = cs := by
  cases cs with
  | nil => rfl
  | cons c cs => simp [trimStart, h c rfl]

theorem head_trimStart (cs : List Char) : ∀ c ∈ (trimStart cs).head?, isBlank c = false := by
  intro c hc
  have := List.head?_dropWhile_not isBlank cs
  rw [trimStart] at hc
  rw [Option.mem_def.1 hc] at this
  simpa using this

/-- White space at the ends is all that trimming leaves out. -/
theorem trim_eq (hbefore : AllBlank before) (hword : Bare word) (hafter : AllBlank after) :
    trim (before ++ (word ++ after)) = word := by
  rw [trim, trimStart_append hbefore]
  cases word with
  | nil =>
    have hnone : trimStart after = [] := List.dropWhile_eq_nil_iff.2 hafter
    rw [List.nil_append, hnone]
    rfl
  | cons c cs =>
    rw [trimStart_of_head (by simpa using hword.head), trimEnd, List.reverse_append,
      trimStart_append fun c hc => hafter c (List.mem_reverse.1 hc),
      trimStart_of_head (by simpa only [List.head?_reverse] using hword.last), List.reverse_reverse]

/-- A text is what trimming leaves of it, with white space around. -/
theorem exists_trim (cs : List Char) : ∃ before after, cs = before ++ (trim cs ++ after) ∧
    AllBlank before ∧ AllBlank after ∧ Bare (trim cs) := by
  have hsplit : trimStart cs = trim cs ++ ((trimStart cs).reverse.takeWhile isBlank).reverse := by
    rw [trim, trimEnd, ← List.reverse_append]
    rw [eq_comm, List.reverse_eq_iff]
    exact List.takeWhile_append_dropWhile
  refine ⟨cs.takeWhile isBlank, ((trimStart cs).reverse.takeWhile isBlank).reverse, ?_,
    fun c => List.mem_takeWhile_imp,
    fun c hc => List.mem_takeWhile_imp (List.mem_reverse.1 hc), ⟨fun c hc => ?_, fun c hc => ?_⟩⟩
  · rw [← hsplit]
    exact List.takeWhile_append_dropWhile.symm
  · refine head_trimStart cs c ?_
    rw [hsplit, Option.mem_def, List.head?_append, Option.mem_def.1 hc]
    rfl
  · refine head_trimStart (trimStart cs).reverse c ?_
    rwa [trim, trimEnd, List.getLast?_reverse] at hc

/-! ## Words -/

theorem splitAtBlank_append (hword : ∀ c ∈ word, isBlank c = false) (hc : isBlank c = true) :
    splitAtBlank (word ++ c :: rest) = (word, some rest) := by
  have hword' : ∀ c ∈ word, (!isBlank c) = true := fun c hc => by simp [hword c hc]
  unfold splitAtBlank
  rw [List.takeWhile_append_of_pos hword', List.dropWhile_append_of_pos hword']
  simp [hc]

theorem splitAtBlank_eq_some (h : splitAtBlank cs = (word, some rest)) :
    ∃ c, cs = word ++ c :: rest ∧ isBlank c = true := by
  have hcs := List.takeWhile_append_dropWhile (p := fun c => !isBlank c) (l := cs)
  have hhead := List.head?_dropWhile_not (fun c => !isBlank c) cs
  unfold splitAtBlank at h
  dsimp only at h
  split at h
  · cases h
  · rename_i c rest' heq
    cases h
    rw [heq] at hcs hhead
    exact ⟨c, hcs.symm, by simpa using hhead⟩

/-- A word is read as a number if it is written as one. -/
theorem wordValue?_eq_some : wordValue? bound word = some n ↔ WritesCount n word ∧ n ≤ bound := by
  have hdigits : ∀ digits : List Char, ((if digits.isEmpty || !digits.all isDigit then none
      else digitsValue? bound digits) = some n ↔ IsNumeral n digits ∧ n ≤ bound) := by
    intro digits
    split
    · rename_i hbad
      simp only [reduceCtorEq, false_iff, not_and]
      intro h
      simp [h.ne_nil, List.all_eq_true.2 h.allDigits] at hbad
    · rename_i hgood
      simp only [Bool.or_eq_true, List.isEmpty_iff, Bool.not_eq_true', not_or,
        Bool.not_eq_false, List.all_eq_true] at hgood
      rw [digitsValue?_eq]
      split
      · rename_i hlt
        simp only [reduceCtorEq, false_iff, not_and]
        rintro h
        have := h.value
        omega
      · rename_i hle
        rw [Option.some.injEq]
        exact ⟨fun h => ⟨⟨hgood.1, hgood.2, h⟩, by omega⟩, fun h => h.1.value⟩
  unfold wordValue? unsigned
  dsimp only
  split
  · rename_i rest
    rw [hdigits]
    refine and_congr_left fun _ => ⟨.plus, fun h => ?_⟩
    cases h with
    | plus h => exact h
    | plain h => exact absurd (h.allDigits '+' List.mem_cons_self) (by decide)
  · rename_i word hplus
    rw [hdigits]
    refine and_congr_left fun _ => ⟨.plain, fun h => ?_⟩
    cases h with
    | plain h => exact h
    | plus h => exact absurd rfl (hplus _)

theorem WritesCount.not_blank (h : WritesCount n word) : ∀ c ∈ word, isBlank c = false := by
  cases h with
  | plain h => exact fun c hc => isBlank_of_isDigit (h.allDigits c hc)
  | plus h =>
    intro c hc
    rcases List.mem_cons.1 hc with rfl | hc
    · decide
    · exact isBlank_of_isDigit (h.allDigits c hc)

theorem WritesCount.ne_nil (h : WritesCount n word) : word ≠ [] := by
  cases h with
  | plain h => exact h.ne_nil
  | plus h => exact List.cons_ne_nil _ _

end Text

namespace Dimacs

open Text

variable {index : Nat} {name : String} {text : List Char}

/-- The text of a comment gives the variable the name. -/
inductive Names (index : Nat) (name : List Char) : List Char → Prop
  | intro (before word gap after : List Char) (hbefore : AllBlank before)
      (hword : WritesCount index word) (hgap : AllBlank gap) (hne : gap ≠ []) (hname : name ≠ [])
      (hbare : Bare name) (hafter : AllBlank after) :
      Names index name (before ++ (word ++ (gap ++ (name ++ after))))

/-- **The comments that a name is taken from** are those that give a variable a name. -/
theorem nameOfComment_eq_some : nameOfComment text = some (index, name) ↔
    Names index name.toList text ∧ 0 < index ∧ index ≤ maxNamedVariable := by
  constructor
  · intro h
    obtain ⟨before, after, htext, hbefore, hafter, -⟩ := exists_trim text
    unfold nameOfComment at h
    split at h
    · cases h
    · rename_i word rest hsplit
      split at h
      · cases h
      · rename_i value hvalue
        obtain ⟨c, htrim, hc⟩ := splitAtBlank_eq_some hsplit
        obtain ⟨hword, hle⟩ := wordValue?_eq_some.1 hvalue
        obtain ⟨before', after', hrest, hbefore', hafter', hbare⟩ := exists_trim rest
        dsimp only at h
        split at h
        · cases h
        · rename_i hkept
          cases h
          simp only [Bool.or_eq_true, decide_eq_true_eq, List.isEmpty_iff, not_or] at hkept
          rw [String.toList_ofList]
          refine ⟨?_, Nat.pos_of_ne_zero hkept.1, hle⟩
          have hparts : text =
              before ++ (word ++ ((c :: before') ++ (trim rest ++ (after' ++ after)))) := by
            rw [htext, htrim]
            conv_lhs => rw [hrest]
            simp
          rw [hparts]
          refine .intro _ _ _ _ hbefore hword (List.forall_mem_cons.2 ⟨hc, hbefore'⟩)
            (List.cons_ne_nil _ _) hkept.2 hbare ?_
          exact fun c hc => (List.mem_append.1 hc).elim (hafter' c) (hafter c)
  · rintro ⟨hnames, hpos, hle⟩
    obtain ⟨chars, hchars⟩ : ∃ chars, name.toList = chars := ⟨_, rfl⟩
    rw [hchars] at hnames
    obtain ⟨before, word, gap, after, hbefore, hword, hgap, hne, hname, hbare, hafter⟩ := hnames
    obtain ⟨c, gap, rfl⟩ := List.exists_cons_of_ne_nil hne
    obtain ⟨hc, hgap'⟩ := List.forall_mem_cons.1 hgap
    have hends : Bare (word ++ c :: (gap ++ chars)) := by
      refine ⟨fun d hd => ?_, fun d hd => ?_⟩
      · obtain ⟨e, es, rfl⟩ := List.exists_cons_of_ne_nil hword.ne_nil
        cases hd
        exact hword.not_blank _ List.mem_cons_self
      · refine hbare.last d ?_
        rw [List.getLast?_append, List.getLast?_cons, List.getLast?_append] at hd
        cases hlast : chars.getLast? with
        | none => exact absurd (List.getLast?_eq_none_iff.1 hlast) hname
        | some e => simpa [hlast] using hd
    have htrim := trim_eq hbefore hends hafter
    have hrest : trim (gap ++ chars) = chars := by
      simpa using trim_eq hgap' hbare (show AllBlank [] by decide)
    unfold nameOfComment
    have htext : before ++ (word ++ (c :: gap ++ (chars ++ after))) =
        before ++ ((word ++ c :: (gap ++ chars)) ++ after) := by simp
    rw [htext, htrim, splitAtBlank_append hword.not_blank hc]
    have hname' : name ≠ "" := by
      rintro rfl
      exact hname hchars.symm
    simp only [wordValue?_eq_some.2 ⟨hword, hle⟩, hrest, Nat.ne_of_gt hpos]
    simp [← hchars, hname']

end Dimacs

end ConfigSampler
