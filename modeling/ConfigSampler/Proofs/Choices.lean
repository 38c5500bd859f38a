import ConfigSampler.Sampling.Combination
import Mathlib.Data.List.Sublists
import Mathlib.Data.Nat.Choose.Basic

/-!
# Choices of places

A choice of `t` places below `size` is an increasing list of them (`Rising`).  `nextPlaces` leads
from one choice to the least one after it in colexicographic order (`nextPlaces_spec`), so no choice
is passed over, and `subsets` is their number (`subsets_eq_choose`).
-/

set_option autoImplicit false

namespace ConfigSampler

/-- Increasing places from `base` on and below `size`. -/
def Rising (size : Nat) : Nat → List Nat → Prop
  | _, [] => True
  | base, place :: rest => base ≤ place ∧ place < size ∧ Rising size (place + 1) rest

/-- One choice comes before another: at the last place where they differ it has the lower one. -/
inductive Before : List Nat → List Nat → Prop
  | later {ps qs : List Nat} (p q : Nat) (h : Before ps qs) : Before (p :: ps) (q :: qs)
  | here {p q : Nat} (rest : List Nat) (h : p < q) : Before (p :: rest) (q :: rest)

variable {size base t : Nat} {ps qs rs : List Nat}

theorem Rising.mono {low : Nat} (h : Rising size base qs) (hle : low ≤ base) : Rising size low qs := by
  cases qs with
  | nil => trivial
  | cons q qs => exact ⟨Nat.le_trans hle h.1, h.2⟩

/-- Choices are the sublists of the places. -/
theorem rising_iff_sublist {k : Nat} (hk : base + k = size) :
    Rising size base qs ↔ qs.Sublist (List.range' base k) := by
  induction k generalizing base qs with
  | zero =>
    rw [List.range'_zero, List.sublist_nil]
    cases qs with
    | nil => simp [Rising]
    | cons q qs =>
      simp only [Rising, reduceCtorEq, iff_false]
      omega
  | succ k ih =>
    have ih' : ∀ qs, Rising size (base + 1) qs ↔ qs.Sublist (List.range' (base + 1) k) :=
      fun _ => ih (by omega)
    rw [List.range'_succ]
    constructor
    · intro h
      cases qs with
      | nil => exact List.nil_sublist _
      | cons q qs =>
        obtain ⟨hle, hlt, hrest⟩ := h
        rcases Nat.eq_or_lt_of_le hle with rfl | hgt
        · exact ((ih' qs).1 hrest).cons_cons _
        · exact ((ih' (q :: qs)).1 ⟨hgt, hlt, hrest⟩).cons _
    · intro h
      cases h with
      | cons _ hs => exact ((ih' qs).2 hs).mono (Nat.le_succ _)
      | cons_cons _ hs => exact ⟨Nat.le_refl _, by omega, (ih' _).2 hs⟩

theorem rising_zero_iff : Rising size 0 qs ↔ qs.Sublist (List.range size) := by
  rw [List.range_eq_range']
  exact rising_iff_sublist (Nat.zero_add _)

/-! ## The order of choices -/

namespace Before

theorem trans (h : Before ps qs) (h' : Before qs rs) : Before ps rs := by
  induction h generalizing rs with
  | later p q h ih =>
    cases h' with
    | later _ _ h' => exact .later _ _ (ih h')
    | here _ _ => exact .later _ _ h
  | here rest h =>
    cases h' with
    | later _ _ h' => exact .later _ _ h'
    | here _ h' => exact .here _ (Nat.lt_trans h h')

theorem irrefl (ps : List Nat) : ¬ Before ps ps := by
  intro h
  induction ps with
  | nil => cases h
  | cons p ps ih =>
    cases h with
    | later _ _ h => exact ih h
    | here _ h => exact absurd h (Nat.lt_irrefl p)

end Before

/-- The lowest places come before all other choices. -/
theorem range'_first (h : Rising size base qs) :
    qs = List.range' base qs.length ∨ Before (List.range' base qs.length) qs := by
  induction qs generalizing base with
  | nil => exact .inl rfl
  | cons q qs ih =>
    obtain ⟨hle, -, hrest⟩ := h
    rw [List.length_cons, List.range'_succ]
    rcases ih (hrest.mono (Nat.succ_le_succ hle)) with he | hb
    · rcases Nat.eq_or_lt_of_le hle with rfl | hlt
      · exact .inl (by rw [← he])
      · rw [← he]
        exact .inr (.here _ hlt)
    · exact .inr (.later _ _ hb)

theorem range_first (h : Rising size 0 qs) :
    qs = List.range qs.length ∨ Before (List.range qs.length) qs := by
  rw [List.range_eq_range']
  exact range'_first h

/-! ## Steps -/

/-- A step leads to a later choice. -/
theorem nextPlaces_before (h : nextPlaces size base ps = some qs) : Before ps qs := by
  induction ps generalizing base qs with
  | nil => cases h
  | cons p ps ih =>
    unfold nextPlaces at h
    split at h
    · cases h
      exact .here _ (Nat.lt_succ_self p)
    · obtain ⟨rest, hrest, rfl⟩ := Option.map_eq_some_iff.1 h
      exact .later _ _ (ih hrest)

theorem nextPlaces_length (h : nextPlaces size base ps = some qs) : qs.length = ps.length := by
  have hb := nextPlaces_before h
  clear h
  induction hb with
  | later p q _ ih => simp [ih]
  | here rest _ => rfl

theorem nextPlaces_rising (h : nextPlaces size base ps = some qs) (hr : Rising size base ps) :
    Rising size base qs := by
  induction ps generalizing base qs with
  | nil => cases h
  | cons p ps ih =>
    obtain ⟨hle, hlt, hrest⟩ := hr
    unfold nextPlaces at h
    split at h
    · rename_i hroom
      cases h
      cases ps with
      | nil => exact ⟨by omega, hroom, trivial⟩
      | cons r ps =>
        simp only [List.headD_cons] at hroom
        exact ⟨by omega, by have := hrest.2.1; omega, hroom, hrest.2⟩
    · obtain ⟨rest, hnext, rfl⟩ := Option.map_eq_some_iff.1 h
      exact ⟨Nat.le_refl _, by omega, ih hnext (hrest.mono (by omega))⟩

/-- **No choice is passed over**: every later choice is the next one or comes after it. -/
theorem nextPlaces_spec (hb : Before ps qs) (hr : Rising size base qs) :
    ∃ next, nextPlaces size base ps = some next ∧ (qs = next ∨ Before next qs) := by
  induction hb generalizing base with
  | here rest hlt =>
    rename_i p q
    obtain ⟨-, hq, hrest⟩ := hr
    have hroom : p + 1 < rest.headD size := by
      cases rest with
      | nil => simpa using by omega
      | cons r rest =>
        have := hrest.1
        simpa using by omega
    refine ⟨(p + 1) :: rest, by rw [nextPlaces, if_pos hroom], ?_⟩
    rcases Nat.eq_or_lt_of_le (Nat.succ_le_of_lt hlt) with he | hlt'
    · exact .inl (by rw [← he])
    · exact .inr (.here _ hlt')
  | later p q hb ih =>
    rename_i ps' qs'
    obtain ⟨hle, -, hrest⟩ := hr
    by_cases hroom : p + 1 < ps'.headD size
    · exact ⟨(p + 1) :: ps', by rw [nextPlaces, if_pos hroom], .inr (.later _ _ hb)⟩
    · -- the carry goes on with the places above, and the lowest place starts again
      have hrest' : Rising size (base + 1) qs' := hrest.mono (Nat.succ_le_succ hle)
      obtain ⟨next, hnext, hnext'⟩ := ih hrest'
      refine ⟨base :: next, by rw [nextPlaces, if_neg hroom, hnext]; rfl, ?_⟩
      rcases hnext' with rfl | hb'
      · rcases Nat.eq_or_lt_of_le hle with rfl | hlt
        · exact .inl rfl
        · exact .inr (.here _ hlt)
      · exact .inr (.later _ _ hb')

/-! ## Numbers of choices -/

theorem choose_step (n k : Nat) : n.choose k * (n - k) / (k + 1) = n.choose (k + 1) := by
  rw [← Nat.choose_succ_right_eq]
  exact Nat.mul_div_cancel _ (Nat.succ_pos k)

theorem subsetsFrom_eq (n k i : Nat) : subsetsFrom n k i (n.choose i) = n.choose (i + k) := by
  induction k generalizing i with
  | zero => rfl
  | succ k ih =>
    rw [subsetsFrom, choose_step, ih, Nat.succ_add_eq_add_succ]

/-- To choose some things is to choose the others. -/
theorem choose_min {n k : Nat} (h : k ≤ n) : n.choose (min k (n - k)) = n.choose k := by
  rcases Nat.le_total k (n - k) with hle | hle
  · rw [Nat.min_eq_left hle]
  · rw [Nat.min_eq_right hle, Nat.choose_symm h]

/-- The number of choices of `k` places. -/
theorem subsets_eq_choose (n k : Nat) : subsets n k = n.choose k := by
  unfold subsets
  split
  · rename_i hlt
    exact (Nat.choose_eq_zero_of_lt hlt).symm
  · rename_i hle
    have hfrom := subsetsFrom_eq n (min k (n - k)) 0
    rw [Nat.choose_zero_right, Nat.zero_add] at hfrom
    rw [hfrom, choose_min (Nat.not_lt.1 hle)]

end ConfigSampler
