import ConfigSampler.Solver.Restart
import Mathlib.Algebra.Group.Nat.Defs
import Mathlib.Data.Nat.Log

/-!
# The Luby sequence

A part of the sequence after `k` doublings has the size `2 ^ (k + 1) - 1` (`partSize`): twice the
part before, and one place more at the end.  `partExponent` reads the exponent at a place off this
shape, and any part that holds the place gives the same one (`partExponent_wider`).

Both loops hold the size of a part together with `k`.  A turn of `lubyCover` goes from `k` to
`k + 1` (`lubyCover_turn`), a turn of `lubyNarrow` from `k + 1` to `k`, with the place taken to the
half (`lubyNarrow_turn`).  Neither leaves the range of a word while `k` is below 32.

`lubyExponents_recursion` is the main statement: **below the greatest word the loops end in range,
and the exponents they find are the Luby sequence**.  At the greatest word there is none
(`lubyExponent?_eq_none_iff`).
-/

set_option autoImplicit false

namespace ConfigSampler

variable {place : UInt32} {turns x j k : Nat}

/-! ### Exponents within a part -/

/-- The exponent at place `x` of the part after `k` doublings. -/
def partExponent : Nat → Nat → Nat
  | 0, _ => 0
  | k + 1, x => if x + 2 = 2 ^ (k + 2) then k + 1 else partExponent k (x % (2 ^ (k + 1) - 1))

theorem partExponent_le (k x : Nat) : partExponent k x ≤ k := by
  induction k generalizing x with
  | zero => exact Nat.le_refl 0
  | succ k ih =>
    rw [partExponent]
    split
    · exact Nat.le_refl _
    · exact Nat.le_succ_of_le (ih _)

theorem partExponent_last (h : x + 2 = 2 ^ (k + 1)) : partExponent k x = k := by
  cases k with
  | zero => rfl
  | succ k => rw [partExponent, if_pos h]

/-- The second half of a part repeats the first. -/
theorem partExponent_repeats (hlow : 2 ^ (k + 1) - 1 ≤ x) (hhigh : x < 2 ^ (k + 2) - 2) :
    partExponent (k + 1) x = partExponent k (x - (2 ^ (k + 1) - 1)) := by
  have hdouble : 2 ^ (k + 2) = 2 ^ (k + 1) * 2 := Nat.pow_succ 2 (k + 1)
  have hmod : x % (2 ^ (k + 1) - 1) = x - (2 ^ (k + 1) - 1) := by
    rw [Nat.mod_eq_sub_mod hlow, Nat.mod_eq_of_lt (by omega)]
  rw [partExponent, if_neg (by omega), hmod]

/-- A wider part gives the same exponent. -/
theorem partExponent_wider (hjk : j ≤ k) (h : x + 1 < 2 ^ (j + 1)) :
    partExponent k x = partExponent j x := by
  induction k, hjk using Nat.le_induction with
  | base => rfl
  | succ k hjk ih =>
    have hmono : 2 ^ (j + 1) ≤ 2 ^ (k + 1) := Nat.pow_le_pow_right (by decide) (by omega)
    have hdouble : 2 ^ (k + 2) = 2 ^ (k + 1) * 2 := Nat.pow_succ 2 (k + 1)
    rw [partExponent, if_neg (by omega), Nat.mod_eq_of_lt (by omega), ih]

/-! ### Sizes and numbers of doublings as words -/

/-- The size of a part after `k` doublings, as a word. -/
def partSize (k : Nat) : UInt32 := .ofNat (2 ^ (k + 1) - 1)

theorem partSize_toNat (hk : k < 32) : (partSize k).toNat = 2 ^ (k + 1) - 1 := by
  have hle : 2 ^ (k + 1) ≤ 2 ^ 32 := Nat.pow_le_pow_right (by decide) hk
  have hpos : 0 < 2 ^ (k + 1) := Nat.two_pow_pos _
  exact UInt32.toNat_ofNat_of_lt' (show _ < 2 ^ 32 by omega)

theorem partSize_pos (hk : k < 32) : 0 < (partSize k).toNat := by
  have hlt : 1 < 2 ^ (k + 1) := Nat.one_lt_two_pow (Nat.succ_ne_zero k)
  rw [partSize_toNat hk]
  omega

theorem partSize_succ_toNat (hk : k + 1 < 32) :
    (partSize (k + 1)).toNat = 2 * (partSize k).toNat + 1 := by
  have hpos : 0 < 2 ^ (k + 1) := Nat.two_pow_pos _
  rw [partSize_toNat hk, partSize_toNat (by omega), Nat.pow_succ]
  omega

theorem doublings_toInt (hk : k < 32) : (Int32.ofNat k).toInt = k :=
  Int32.toInt_ofNat_of_lt (by omega)

/-! ### Widening a part -/

theorem lubyCover_turn (hplace : place.toNat + 1 < 2 ^ 32)
    (h : (partSize k).toNat ≤ place.toNat) (hk : k + 1 < 32) :
    lubyCover (turns + 1) place (partSize k) (.ofNat k) =
      lubyCover turns place (partSize (k + 1)) (.ofNat (k + 1)) := by
  have hsize : (partSize (k + 1)).toNat = 2 * (partSize k).toNat + 1 := partSize_succ_toNat hk
  have hword : (partSize (k + 1)).toNat < 2 ^ 32 := (partSize (k + 1)).toNat_lt
  have hcount : (Int32.ofNat k).toInt = k := doublings_toInt (by omega)
  have hreach : Word.unsigned? (place.toNat + 1) = some (.ofNat (place.toNat + 1)) :=
    Word.unsigned?_of_lt hplace rfl
  have hdoublings : Word.signed? ((Int32.ofNat k).toInt + 1) = some (.ofNat (k + 1)) :=
    Word.signed?_of_lt (by omega) (by omega)
  have htwice : Word.unsigned? (2 * (partSize k).toNat) =
      some (.ofNat (2 * (partSize k).toNat)) :=
    Word.unsigned?_of_lt (by omega) (by omega)
  have hwider : Word.unsigned? ((UInt32.ofNat (2 * (partSize k).toNat)).toNat + 1) =
      some (partSize (k + 1)) := by
    rw [UInt32.toNat_ofNat_of_lt' (show _ < 2 ^ 32 by omega)]
    exact Word.unsigned?_eq_some_iff.2 (by omega)
  have hlt : partSize k < UInt32.ofNat (place.toNat + 1) := by
    rw [UInt32.lt_iff_toNat_lt, UInt32.toNat_ofNat_of_lt' hplace]
    omega
  rw [lubyCover, hreach]
  simp only [Option.bind_eq_bind, Option.bind_some, if_pos hlt, hdoublings, htwice, hwider]

theorem lubyCover_stop (hplace : place.toNat + 1 < 2 ^ 32)
    (h : place.toNat < (partSize k).toNat) :
    lubyCover (turns + 1) place (partSize k) (.ofNat k) = some (partSize k, .ofNat k) := by
  have hreach : Word.unsigned? (place.toNat + 1) = some (.ofNat (place.toNat + 1)) :=
    Word.unsigned?_of_lt hplace rfl
  have hnot : ¬ partSize k < UInt32.ofNat (place.toNat + 1) := by
    rw [UInt32.lt_iff_toNat_lt, UInt32.toNat_ofNat_of_lt' hplace]
    omega
  rw [lubyCover, hreach]
  simp only [Option.bind_eq_bind, Option.bind_some, if_neg hnot, Option.pure_def]

/-- The first loop comes to every part that has all smaller parts before the place. -/
theorem lubyCover_turns (hplace : place.toNat + 1 < 2 ^ 32) (h : 2 ^ k ≤ place.toNat + 1) :
    lubyCover (turns + k) place 1 0 = lubyCover turns place (partSize k) (.ofNat k) := by
  induction k generalizing turns with
  | zero => rfl
  | succ k ih =>
    have hk : k + 1 < 32 := (Nat.pow_lt_pow_iff_right (by decide)).1 (Nat.lt_of_le_of_lt h hplace)
    have hdouble : 2 ^ (k + 1) = 2 ^ k * 2 := Nat.pow_succ 2 k
    have hpast : (partSize k).toNat ≤ place.toNat := by
      rw [partSize_toNat (by omega)]
      omega
    rw [← Nat.succ_add_eq_add_succ, ih (by omega), lubyCover_turn hplace hpast hk]

/-- **The first loop ends in range**, with a part that holds the place. -/
theorem lubyCover_ends (hplace : place.toNat + 1 < 2 ^ 32) :
    ∃ k < 32, place.toNat < (partSize k).toNat ∧
      lubyCover 32 place 1 0 = some (partSize k, .ofNat k) := by
  have hlow : 2 ^ Nat.log 2 (place.toNat + 1) ≤ place.toNat + 1 :=
    Nat.pow_log_le_self 2 (Nat.succ_ne_zero _)
  have hhigh : place.toNat + 1 < 2 ^ (Nat.log 2 (place.toNat + 1) + 1) :=
    Nat.lt_pow_succ_log_self (by decide) _
  generalize Nat.log 2 (place.toNat + 1) = k at hlow hhigh
  have hk : k < 32 := (Nat.pow_lt_pow_iff_right (by decide)).1 (Nat.lt_of_le_of_lt hlow hplace)
  have hin : place.toNat < (partSize k).toNat := by
    rw [partSize_toNat hk]
    omega
  obtain ⟨turns, hturns⟩ : ∃ turns, 32 = turns + 1 + k := ⟨31 - k, by omega⟩
  refine ⟨k, hk, hin, ?_⟩
  rw [hturns, lubyCover_turns hplace hlow, lubyCover_stop hplace hin]

/-! ### Narrowing a part -/

theorem lubyNarrow_stop (h : place.toNat + 1 = (partSize k).toNat) :
    lubyNarrow (turns + 1) place (partSize k) (.ofNat k) = some (.ofNat k) := by
  have hlast : Word.unsigned? ((partSize k).toNat - 1) = some place :=
    Word.unsigned?_eq_some_iff.2 (by omega)
  rw [lubyNarrow, hlast]
  simp only [Option.bind_eq_bind, Option.bind_some, ne_eq, not_true_eq_false, if_false,
    Option.pure_def]

theorem lubyNarrow_turn (hk : k + 1 < 32) (h : place.toNat + 1 ≠ (partSize (k + 1)).toNat) :
    lubyNarrow (turns + 1) place (partSize (k + 1)) (.ofNat (k + 1)) =
      lubyNarrow turns (place % partSize k) (partSize k) (.ofNat k) := by
  have hsize : (partSize (k + 1)).toNat = 2 * (partSize k).toNat + 1 := partSize_succ_toNat hk
  have hword : (partSize (k + 1)).toNat < 2 ^ 32 := (partSize (k + 1)).toNat_lt
  have hcount : (Int32.ofNat (k + 1)).toInt = (k + 1 : Nat) := doublings_toInt hk
  -- the last place comes after two halves, so the shift gives the half exactly
  have hlast : Word.unsigned? ((partSize (k + 1)).toNat - 1) =
      some (.ofNat (2 * (partSize k).toNat)) :=
    Word.unsigned?_of_lt (by omega) (by omega)
  have hlastToNat : (UInt32.ofNat (2 * (partSize k).toNat)).toNat = 2 * (partSize k).toNat :=
    UInt32.toNat_ofNat_of_lt' (show _ < 2 ^ 32 by omega)
  have hne : UInt32.ofNat (2 * (partSize k).toNat) ≠ place := by
    rw [ne_eq, ← UInt32.toNat_inj]
    omega
  have hhalf : UInt32.ofNat (2 * (partSize k).toNat) >>> 1 = partSize k := by
    rw [← UInt32.toNat_inj, UInt32.toNat_shiftRight, hlastToNat]
    exact Nat.mul_div_cancel_left _ (by decide)
  have hdoublings : Word.signed? ((Int32.ofNat (k + 1)).toInt - 1) = some (.ofNat k) :=
    Word.signed?_of_lt (by omega) (by omega)
  have hnonzero : partSize k ≠ 0 := by
    rw [ne_eq, ← UInt32.toNat_inj]
    exact (partSize_pos (by omega)).ne'
  rw [lubyNarrow, hlast]
  simp only [Option.bind_eq_bind, Option.bind_some, if_pos hne, hhalf, hdoublings,
    if_neg hnonzero]

/-- **The second loop ends in range** on every place of a part, with the exponent there. -/
theorem lubyNarrow_ends (hk : k < 32) (hturns : k < turns)
    (h : place.toNat < (partSize k).toNat) :
    lubyNarrow turns place (partSize k) (.ofNat k) =
      some (.ofNat (partExponent k place.toNat)) := by
  -- on the doublings: a turn takes one of them, one of the turns left, and the place to the half
  induction k generalizing place turns with
  | zero =>
    obtain ⟨turns, rfl⟩ := Nat.exists_eq_add_one.2 hturns
    have hone : (partSize 0).toNat = 1 := partSize_toNat hk
    exact lubyNarrow_stop (by omega)
  | succ k ih =>
    obtain ⟨turns, rfl⟩ := Nat.exists_eq_add_one.2 (Nat.zero_lt_of_lt hturns)
    have hhalf : (partSize k).toNat = 2 ^ (k + 1) - 1 := partSize_toNat (by omega)
    have hsize : (partSize (k + 1)).toNat = 2 ^ (k + 2) - 1 := partSize_toNat hk
    rw [partExponent]
    split
    · exact lubyNarrow_stop (by omega)
    · have hreduced : (place % partSize k).toNat = place.toNat % (2 ^ (k + 1) - 1) := by
        rw [UInt32.toNat_mod, hhalf]
      have hin : (place % partSize k).toNat < (partSize k).toNat := by
        rw [UInt32.toNat_mod]
        exact Nat.mod_lt _ (partSize_pos (by omega))
      rw [lubyNarrow_turn hk (by omega), ih (by omega) (by omega) hin, hreduced]

/-! ### The sequence -/

/-- **The loops end in range, and find the exponent** that any part with the place gives. -/
theorem lubyExponent?_eq (hk : k < 32) (h : x + 1 < 2 ^ (k + 1)) :
    lubyExponent? (.ofNat x) = some (.ofNat (partExponent k x)) := by
  have hle : 2 ^ (k + 1) ≤ 2 ^ 32 := Nat.pow_le_pow_right (by decide) hk
  have hplace : (UInt32.ofNat x).toNat = x := UInt32.toNat_ofNat_of_lt' (show x < 2 ^ 32 by omega)
  have hbelow : (UInt32.ofNat x).toNat + 1 < 2 ^ 32 := by omega
  obtain ⟨j, hj, hin, hcover⟩ := lubyCover_ends hbelow
  have hfound : lubyExponent? (.ofNat x) = some (.ofNat (partExponent j x)) := by
    have hnarrow := lubyNarrow_ends hj hj hin
    rw [hplace] at hnarrow
    rw [lubyExponent?, hcover]
    exact hnarrow
  have hpart : x + 1 < 2 ^ (j + 1) := by
    rw [hplace, partSize_toNat hj] at hin
    omega
  rw [hfound]
  -- the loops work in the part `j` that the first of them found, which may be wider than `k` or not
  rcases Nat.le_total j k with hjk | hkj
  · rw [partExponent_wider hjk hpart]
  · rw [partExponent_wider hkj h]

/-- At the greatest word, and there only, the loops do not end in range. -/
theorem lubyExponent?_eq_none_iff : lubyExponent? place = none ↔ place.toNat + 1 = 2 ^ 32 := by
  have hword : place.toNat < 2 ^ 32 := place.toNat_lt
  constructor
  · intro hnone
    by_contra hne
    have hfound := lubyExponent?_eq (k := 31) (x := place.toNat) (by decide) (by omega)
    rw [UInt32.ofNat_toNat, hnone] at hfound
    exact Option.some_ne_none _ hfound.symm
  · intro hlast
    have hreach : Word.unsigned? (place.toNat + 1) = none := by
      rw [Option.eq_none_iff_forall_ne_some]
      intro reach hreach
      have hvalue : (reach.toNat : Int) = place.toNat + 1 := Word.unsigned?_eq_some_iff.1 hreach
      have hlt : reach.toNat < 2 ^ 32 := reach.toNat_lt
      omega
    rw [lubyExponent?, lubyCover, hreach]
    rfl

/-- The number of doublings of the part that ends at a place, or has it in its second half. -/
theorem part_iff_log_eq : (x + 2 = 2 ^ (k + 1) ∨ 2 ^ k - 1 ≤ x ∧ x < 2 ^ (k + 1) - 2) ↔
    Nat.log 2 (x + 1) = k := by
  have hpos : 0 < 2 ^ k := Nat.two_pow_pos _
  have hdouble : 2 ^ (k + 1) = 2 ^ k * 2 := Nat.pow_succ 2 k
  rw [Nat.log_eq_iff (.inr ⟨by decide, Nat.succ_ne_zero x⟩)]
  omega

/-- **The exponents are the Luby sequence.**  Below the greatest word both loops end with all words
    in range, and the exponent is the power of the factor in the scale of a restart limit.  At the
    end of a part it is the number of its doublings; every other place is in the second half of one
    part, and has the exponent of its place in the first. -/
theorem lubyExponents_recursion (x : Nat) (hx : x < 2 ^ 32 - 1) :
    ∃ e : Nat, lubyExponent? (.ofNat x) = some (.ofNat e) ∧ e < 32 ∧
      (∀ s : RestartSettings, s.luby = true → s.scale x = Floating.power s.factor e) ∧
      (∃! k : Nat, x + 2 = 2 ^ (k + 1) ∨ 2 ^ k - 1 ≤ x ∧ x < 2 ^ (k + 1) - 2) ∧
      (∀ k : Nat, x + 2 = 2 ^ (k + 1) → e = k) ∧
      ∀ k : Nat, 2 ^ k - 1 ≤ x → x < 2 ^ (k + 1) - 2 →
        lubyExponent? (.ofNat (x - (2 ^ k - 1))) = some (.ofNat e) := by
  have hwidest : x + 1 < 2 ^ 32 := by omega
  have hlt : partExponent 31 x < 32 := Nat.lt_succ_of_le (partExponent_le 31 x)
  have hfound : lubyExponent? (.ofNat x) = some (.ofNat (partExponent 31 x)) :=
    lubyExponent?_eq (by decide) hwidest
  refine ⟨partExponent 31 x, hfound, hlt, ?scale, ?part, ?last, ?repeats⟩
  case scale =>
    intro s hluby
    rw [RestartSettings.scale, RestartSettings.exponent, if_pos hluby, hfound, Option.getD_some,
      doublings_toInt hlt]
    rfl
  case part =>
    exact ⟨Nat.log 2 (x + 1), part_iff_log_eq.2 rfl, fun k hk => (part_iff_log_eq.1 hk).symm⟩
  case last =>
    intro k hk
    have hpow : 2 ^ (k + 1) ≤ 2 ^ 32 := by omega
    have hle : k + 1 ≤ 32 := (Nat.pow_le_pow_iff_right (by decide)).1 hpow
    rw [partExponent_wider (show k ≤ 31 by omega) (by omega), partExponent_last hk]
  case repeats =>
    intro k hlow hhigh
    cases k with
    | zero => exact absurd hhigh (Nat.not_lt_zero x)
    | succ k =>
      have hpow : 2 ^ (k + 1) < 2 ^ 32 := by omega
      have hk : k + 1 < 32 := (Nat.pow_lt_pow_iff_right (by decide)).1 hpow
      have hdouble : 2 ^ (k + 2) = 2 ^ (k + 1) * 2 := Nat.pow_succ 2 (k + 1)
      rw [partExponent_wider (show k + 1 ≤ 31 by omega) (by omega),
        partExponent_repeats hlow hhigh]
      exact lubyExponent?_eq (by omega) (by omega)

theorem lubyExponents_recursion_five : 5 < 2 ^ 32 - 1 ∧ lubyExponent? (.ofNat 5) = some 1 ∧
    lubyExponent? (.ofNat 5) = lubyExponent? (.ofNat (5 - (2 ^ 2 - 1))) := by
  obtain ⟨e, hfive, -, -, -, -, hrepeats⟩ := lubyExponents_recursion 5 (by decide)
  obtain ⟨d, htwo, -, -, -, hlast, -⟩ := lubyExponents_recursion 2 (by decide)
  have hsame : lubyExponent? (.ofNat 5) = lubyExponent? (.ofNat (5 - (2 ^ 2 - 1))) :=
    hfive.trans (hrepeats 2 (by decide) (by decide)).symm
  refine ⟨by decide, hsame.trans ?_, hsame⟩
  rw [show 5 - (2 ^ 2 - 1) = 2 from rfl, htwo, hlast 1 rfl]
  rfl

example : (List.range 15).map (fun x => lubyExponent? (.ofNat x)) =
    [0, 0, 1, 0, 0, 1, 2, 0, 0, 1, 0, 0, 1, 2, 3].map some := by decide +kernel

end ConfigSampler
