import ConfigSampler.Proofs.FullSets
import Mathlib.Data.Finset.Card

/-!
# The two layouts of a set of literals

A partial assignment can be stored in either layout and from its literals in any order
(`LiteralSet.Presents`).  `LiteralSet.Denotes` says what both have in common: the literals, each once,
and the values of the variables.  Every question is answered from these alone
(`LiteralSet.Answers`), so neither the layout nor the order shows.

A contradictory set looks up a variable at the first of its literals.  Whether it is contradictory is
found out all the same.

Principal result: `LiteralSet.layouts_answer_alike`.
-/

set_option autoImplicit false

namespace ConfigSampler

namespace LiteralSet

/-- Literals of the variables `1, …, n`, none of them together with its complement. -/
structure IsPartialAssignment (n : Nat) (S : Finset Int) : Prop where
  natAbs_le : ∀ x ∈ S, x.natAbs ≤ n
  neg_notMem : ∀ x ∈ S, -x ∉ S

instance (n : Nat) (S : Finset Int) : Decidable (IsPartialAssignment n S) :=
  decidable_of_iff ((∀ x ∈ S, x.natAbs ≤ n) ∧ ∀ x ∈ S, -x ∉ S)
    ⟨fun h => ⟨h.1, h.2⟩, fun h => ⟨h.natAbs_le, h.neg_notMem⟩⟩

/-- The set was made of the literals of `S`, in some order and in one of the layouts. -/
def Presents (n : Nat) (S : Finset Int) (s : LiteralSet) : Prop :=
  ∃ lits layout, lits.toFinset = S ∧ s = ofModel lits n layout

/-- The value that the literals of `S` give to a variable. -/
def valueIn (S : Finset Int) (v : Nat) : Option Bool :=
  if (v : Int) ∈ S then some true else if -(v : Int) ∈ S then some false else none

/-- The literals of the set are those of `S`, each once, and its values are theirs. -/
structure Denotes (s : LiteralSet) (S : Finset Int) : Prop where
  valueOf : ∀ v, s.valueOf v = valueIn S v
  mem_literals : ∀ x, x ∈ s.literals ↔ x ∈ S
  nodup : s.literals.Nodup

variable {n : Nat} {S T : Finset Int} {s s' t t' : LiteralSet} {x : Int} {lits : List Int}

theorem IsPartialAssignment.ne_zero (h : IsPartialAssignment n S) (hx : x ∈ S) : x ≠ 0 := by
  rintro rfl
  exact h.neg_notMem 0 hx hx

theorem valueIn_of_mem (h : IsPartialAssignment n S) (hx : x ∈ S) :
    valueIn S x.natAbs = some (decide (0 < x)) := by
  have hne := h.ne_zero hx
  unfold valueIn
  rcases Int.natAbs_eq x with he | he
  · rw [← he, if_pos hx, decide_eq_true (by omega)]
  · have hx' : (x.natAbs : Int) = -x := by omega
    rw [hx', if_neg (h.neg_notMem x hx), Int.neg_neg, if_pos hx, decide_eq_false (by omega)]

theorem valueIn_of_forall_ne {v : Nat} (h : ∀ x ∈ S, x.natAbs ≠ v) : valueIn S v = none := by
  unfold valueIn
  rw [if_neg fun hv => h v hv (Int.natAbs_natCast v),
    if_neg fun hv => h (-v) hv (by rw [Int.natAbs_neg, Int.natAbs_natCast])]

/-! ## Unordered sets -/

theorem nodup_foldl_insertNew : ∀ (lits : List Int) (slots : Array Int), slots.toList.Nodup →
    (lits.foldl insertNew slots).toList.Nodup
  | [], _, h => h
  | x :: lits, slots, h => by
    refine nodup_foldl_insertNew lits _ ?_
    unfold insertNew
    split
    · exact h
    · rename_i hx
      have hnew : x ∉ slots.toList := by
        simp only [Bool.or_eq_true, not_or, Array.contains_eq_mem, decide_eq_true_eq] at hx
        simpa using hx.2
      rw [Array.toList_push]
      exact List.nodup_append.2 ⟨h, by simp, fun y hy z hz => by
        rw [List.mem_singleton.1 hz]
        exact ne_of_mem_of_not_mem hy hnew⟩

theorem denotes_ofList (hS : IsPartialAssignment n S) (h : ∀ x, x ∈ S ↔ x ∈ lits ∧ x ≠ 0) :
    (ofList lits).Denotes S where
  valueOf v := by
    have hslots : ∀ x, x ∈ (ofList lits).slots ↔ x ∈ S := fun x => by
      rw [h, ofList, mem_foldl_insertNew]
      simp
    simp only [LiteralSet.valueOf, show (ofList lits).layout = .unordered from rfl]
    cases hfind : (ofList lits).slots.find? fun lit => lit.natAbs == v with
    | none =>
      rw [Array.find?_eq_none] at hfind
      exact (valueIn_of_forall_ne fun x hx => by simpa using hfind x ((hslots x).2 hx)).symm
    | some x =>
      have hx := (hslots x).1 (Array.mem_of_find?_eq_some hfind)
      obtain rfl : x.natAbs = v := by simpa using Array.find?_some hfind
      exact (valueIn_of_mem hS hx).symm
  mem_literals x := by rw [mem_literals_ofList, h]
  nodup := (nodup_foldl_insertNew lits #[] (by simp)).filter _

/-! ## Indexed sets -/

/-- Every slot holds the literal of its variable, or zero if there is none. -/
theorem slots_ofModel (hS : IsPartialAssignment n S) (h : lits.toFinset = S) :
    (ofModel lits n .indexed).slots.size = n ∧
    ∀ v < n, ∃ x, (ofModel lits n .indexed).slots[v]? = some x ∧
      ((x ∈ S ∧ x.natAbs = v + 1) ∨ (x = 0 ∧ ∀ y ∈ S, y.natAbs ≠ v + 1)) := by
  have hmem : ∀ x, x ∈ lits ↔ x ∈ S := fun x => by rw [← h, List.mem_toFinset]
  have hmakes : ∀ x ∈ S, Assignment.Makes (fun v => valueIn S v == some true) x := by
    intro x hx
    rw [Assignment.Makes, valueIn_of_mem hS hx]
    cases decide (0 < x) <;> rfl
  obtain ⟨hsize, hget⟩ := foldl_place lits (Array.replicate n 0) fun x hx =>
    ⟨hS.ne_zero ((hmem x).1 hx), hmakes x ((hmem x).1 hx)⟩
  rw [Array.size_replicate] at hsize hget
  refine ⟨hsize, fun v hv => ?_⟩
  have hslot := hget v hv
  split at hslot
  · rename_i hex
    obtain ⟨x, hx, hxv⟩ := hex
    have hxS := (hmem x).1 hx
    have hliteral := (Assignment.makes_iff_eq_literal (hS.ne_zero hxS)).1 (hmakes x hxS)
    rw [hxv] at hliteral
    exact ⟨x, hliteral ▸ hslot, .inl ⟨hxS, hxv⟩⟩
  · rename_i hnone
    refine ⟨0, hslot.trans (by simp [hv]), .inr ⟨rfl, fun y hy hyv => hnone ⟨y, ?_, hyv⟩⟩⟩
    exact (hmem y).2 hy

theorem IsPartialAssignment.eq_of_natAbs_eq (h : IsPartialAssignment n S) {y : Int} (hx : x ∈ S)
    (hy : y ∈ S) (he : x.natAbs = y.natAbs) : x = y := by
  rcases Int.natAbs_eq_natAbs_iff.1 he with he | rfl
  · exact he
  · exact absurd hx (h.neg_notMem y hy)

theorem denotes_ofModel_indexed (hS : IsPartialAssignment n S) (h : lits.toFinset = S) :
    (ofModel lits n .indexed).Denotes S := by
  obtain ⟨hsize, hslot⟩ := slots_ofModel hS h
  have hlayout : (ofModel lits n .indexed).layout = .indexed := rfl
  generalize ofModel lits n .indexed = s at hsize hslot hlayout
  have hget : ∀ i (hi : i < s.slots.toList.length),
      (s.slots.toList[i] ∈ S ∧ (s.slots.toList[i]).natAbs = i + 1) ∨
      (s.slots.toList[i] = 0 ∧ ∀ y ∈ S, y.natAbs ≠ i + 1) := by
    intro i hi
    rw [Array.length_toList, hsize] at hi
    obtain ⟨x, hx, hcase⟩ := hslot i hi
    obtain ⟨hi', rfl⟩ := Array.getElem?_eq_some_iff.1 hx
    exact hcase
  refine ⟨fun v => ?_, fun x => ?_, ?_⟩
  · simp only [LiteralSet.valueOf, hlayout]
    cases v with
    | zero => exact (valueIn_of_forall_ne fun x hx => by have := hS.ne_zero hx; omega).symm
    | succ v =>
      rw [if_neg (Nat.succ_ne_zero v), Nat.add_sub_cancel]
      rcases Nat.lt_or_ge v n with hv | hv
      · obtain ⟨x, hx, ⟨hxS, hxv⟩ | ⟨rfl, hnone⟩⟩ := hslot v hv
        · rw [hx, ← hxv, valueIn_of_mem hS hxS]
          have hne := hS.ne_zero hxS
          by_cases hpos : 0 < x
          · rw [decide_eq_true hpos]
            exact if_pos (by omega)
          · rw [decide_eq_false hpos]
            exact (if_neg (by omega)).trans (if_pos (by omega))
        · rw [hx, valueIn_of_forall_ne hnone]
          exact (if_neg (by omega)).trans (if_neg (by omega))
      · rw [Array.getElem?_eq_none (by omega), valueIn_of_forall_ne fun x hx => ?_]
        have := hS.natAbs_le x hx
        omega
  · simp only [literals, List.mem_filter, ne_eq, decide_not, Bool.not_eq_true',
      decide_eq_false_iff_not]
    constructor
    · rintro ⟨hx, hne⟩
      obtain ⟨i, hi, rfl⟩ := List.mem_iff_getElem.1 hx
      exact (hget i hi).elim And.left fun h0 => absurd h0.1 hne
    · intro hx
      have hne := hS.ne_zero hx
      have hle := hS.natAbs_le x hx
      have hi : x.natAbs - 1 < s.slots.toList.length := by
        rw [Array.length_toList, hsize]
        omega
      refine ⟨List.mem_iff_getElem.2 ⟨x.natAbs - 1, hi, ?_⟩, hne⟩
      rcases hget _ hi with ⟨hmem, habs⟩ | ⟨-, hnone⟩
      · exact hS.eq_of_natAbs_eq hmem hx (by omega)
      · exact absurd (show x.natAbs = x.natAbs - 1 + 1 by omega) (hnone x hx)
  · -- equal literals have equal variables, so they stand in the same slot
    rw [literals, List.Nodup, List.pairwise_filter, List.pairwise_iff_getElem]
    intro i j hi hj hij hi0 hj0 he
    simp only [ne_eq, decide_not, Bool.not_eq_true', decide_eq_false_iff_not] at hi0 hj0
    have hiv := ((hget i hi).resolve_right fun h0 => hi0 h0.1).2
    have hjv := ((hget j hj).resolve_right fun h0 => hj0 h0.1).2
    rw [he] at hiv
    omega

theorem Presents.denotes (hS : IsPartialAssignment n S) (h : Presents n S s) : s.Denotes S := by
  obtain ⟨lits, layout, hlits, rfl⟩ := h
  cases layout with
  | indexed => exact denotes_ofModel_indexed hS hlits
  | unordered =>
    refine denotes_ofList hS fun x => ?_
    rw [← hlits, List.mem_toFinset]
    exact ⟨fun hx => ⟨hx, hS.ne_zero (hlits ▸ List.mem_toFinset.2 hx)⟩, And.left⟩

/-! ## Answers -/

namespace Denotes

theorem contains_iff (h : s.Denotes S) (hS : IsPartialAssignment n S) :
    s.contains x = true ↔ x ∈ S := by
  constructor
  · intro hx
    exact (h.mem_literals x).1 (mem_of_contains hx)
  · intro hx
    simp [contains, h.valueOf, valueIn_of_mem hS hx, hS.ne_zero hx]

theorem size_eq (h : s.Denotes S) : s.size = S.card := by
  have hS : s.literals.toFinset = S := Finset.ext fun x => by rw [List.mem_toFinset, h.mem_literals]
  rw [size, ← List.toFinset_card_of_nodup h.nodup, hS]

variable {t : LiteralSet}

theorem containsAll_iff (h : s.Denotes S) (hS : IsPartialAssignment n S) (ht : t.Denotes T) :
    s.containsAll t = true ↔ T ⊆ S := by
  simp only [containsAll, List.all_eq_true, ht.mem_literals, h.contains_iff hS, Finset.subset_iff]

theorem hasConflict_iff (h : s.Denotes S) (hS : IsPartialAssignment n S) (ht : t.Denotes T) :
    s.hasConflict t = true ↔ ∃ x ∈ T, -x ∈ S := by
  simp only [hasConflict, List.any_eq_true, ht.mem_literals, h.contains_iff hS]

theorem union (h : s.Denotes S) (hS : IsPartialAssignment n S) (ht : t.Denotes T)
    (hT : IsPartialAssignment n T) (hno : s.hasConflict t = false) :
    IsPartialAssignment n (S ∪ T) ∧ (s.union t).Denotes (S ∪ T) := by
  have hapart : ∀ x ∈ T, -x ∉ S := fun x hx hneg => by
    rw [(h.hasConflict_iff hS ht).2 ⟨x, hx, hneg⟩] at hno
    cases hno
  have hunion : IsPartialAssignment n (S ∪ T) := by
    refine ⟨fun x hx => ?_, fun x hx hneg => ?_⟩
    · exact (Finset.mem_union.1 hx).elim (hS.natAbs_le x) (hT.natAbs_le x)
    · rcases Finset.mem_union.1 hx with hx | hx <;> rcases Finset.mem_union.1 hneg with hneg | hneg
      · exact hS.neg_notMem x hx hneg
      · exact hapart (-x) hneg (by rwa [Int.neg_neg])
      · exact hapart x hx hneg
      · exact hT.neg_notMem x hx hneg
  refine ⟨hunion, denotes_ofList hunion fun x => ?_⟩
  rw [List.mem_append, h.mem_literals, ht.mem_literals, Finset.mem_union]
  exact ⟨fun hx => ⟨hx, hunion.ne_zero (Finset.mem_union.2 hx)⟩, And.left⟩

end Denotes

/-! ## Complements -/

theorem negate_negate (s : LiteralSet) : s.negate.negate = s := by
  obtain ⟨layout, slots⟩ := s
  simp only [negate, Array.map_map, Function.comp_def, Int.neg_neg, Array.map_id']

/-- In either layout the set of the complements gives every variable the other value. -/
theorem valueOf_negate (s : LiteralSet) {v : Nat} (hv : v ≠ 0) :
    s.negate.valueOf v = (s.valueOf v).map not := by
  obtain ⟨layout, slots⟩ := s
  cases layout with
  | indexed =>
    simp only [valueOf, negate, if_neg hv, Array.getElem?_map]
    cases slots[v - 1]? with
    | none => rfl
    | some x =>
      simp only [Option.map_some]
      by_cases hpos : x = v
      · subst hpos
        rw [if_neg (by omega), if_pos rfl, if_pos rfl]
        rfl
      · by_cases hneg : x = -v
        · subst hneg
          rw [if_pos (by omega), if_neg (by omega), if_pos rfl]
          rfl
        · rw [if_neg (by omega), if_neg (by omega), if_neg hpos, if_neg hneg]
          rfl
  | unordered =>
    simp only [valueOf, negate, Array.find?_map, Function.comp_def, Int.natAbs_neg, Option.map_map]
    cases hfind : slots.find? fun lit => lit.natAbs == v with
    | none => rfl
    | some x =>
      have hx : x.natAbs = v := by simpa using Array.find?_some hfind
      simp only [Option.map_some, Option.some.injEq]
      by_cases hpos : 0 < x
      · rw [decide_eq_true hpos, decide_eq_false (by omega)]
        rfl
      · rw [decide_eq_false hpos, decide_eq_true (by omega)]
        rfl

theorem contains_negate (s : LiteralSet) (x : Int) : s.negate.contains x = s.contains (-x) := by
  rcases eq_or_ne x 0 with rfl | hx
  · rfl
  have hsign : decide (0 < -x) = !decide (0 < x) := by
    by_cases hpos : 0 < x
    · rw [decide_eq_true hpos, decide_eq_false (by omega)]
      rfl
    · rw [decide_eq_false hpos, decide_eq_true (by omega)]
      rfl
  have hzero : (-x != 0) = (x != 0) := by
    rw [Bool.eq_iff_iff, bne_iff_ne, bne_iff_ne, ne_eq, ne_eq, Int.neg_eq_zero]
  rw [contains, contains, valueOf_negate s (by omega), Int.natAbs_neg, hsign, hzero]
  cases s.valueOf x.natAbs with
  | none => rfl
  | some b => cases b <;> cases decide (0 < x) <;> rfl

/-! ## Both layouts -/

/-- The set `s` answers as the literals of `S` say, also about a set `t` with the literals of `T`. -/
structure Answers (s t : LiteralSet) (S T : Finset Int) : Prop where
  valueOf : ∀ v, s.valueOf v = valueIn S v
  contains : ∀ x, s.contains x = true ↔ x ∈ S
  containsAll : s.containsAll t = true ↔ T ⊆ S
  hasConflict : s.hasConflict t = true ↔ ∃ x ∈ T, -x ∈ S
  size : s.size = S.card
  union : s.hasConflict t = false → ∀ x, (s.union t).contains x = true ↔ x ∈ S ∨ x ∈ T
  negate : ∀ x, s.negate.contains x = true ↔ -x ∈ S

theorem Denotes.answers {t : LiteralSet} (hs : s.Denotes S) (ht : t.Denotes T)
    (hS : IsPartialAssignment n S) (hT : IsPartialAssignment n T) : Answers s t S T where
  valueOf := hs.valueOf
  contains _ := hs.contains_iff hS
  containsAll := hs.containsAll_iff hS ht
  hasConflict := hs.hasConflict_iff hS ht
  size := hs.size_eq
  union hno x := by
    obtain ⟨hunion, hdenotes⟩ := hs.union hS ht hT hno
    rw [hdenotes.contains_iff hunion, Finset.mem_union]
  negate x := by rw [contains_negate, hs.contains_iff hS]

/-- **Both layouts answer alike.**  Sets that were made of the same partial assignment, in any order and
    layout, give the answers of that assignment, whichever layouts are mixed.  And a set that was made
    of any list, contradictory or not, is found contradictory exactly if a literal and its complement
    are in it. -/
theorem layouts_answer_alike :
    (∀ (n : Nat) (S T : Finset Int), IsPartialAssignment n S → IsPartialAssignment n T →
      ∀ s s' t t', Presents n S s → Presents n S s' → Presents n T t → Presents n T t' →
        Answers s t S T ∧
        s.valueOf = s'.valueOf ∧ s.contains = s'.contains ∧
        s.containsAll t = s'.containsAll t' ∧ s.hasConflict t = s'.hasConflict t' ∧
        s.size = s'.size ∧
        s.negate.negate = s ∧ s.hasConflict t = t.hasConflict s) ∧
    ∀ lits : List Int,
      ((ofList lits).isContradictory = true ↔
        ∃ x ∈ (ofList lits).literals, -x ∈ (ofList lits).literals) ∧
      ((ofList lits).isContradictory = true ↔ ∃ x ∈ lits, x ≠ 0 ∧ -x ∈ lits) := by
  refine ⟨fun n S T hS hT s s' t t' hs hs' ht ht' => ?_,
    fun lits => ⟨isContradictory_ofList_iff, isContradictory_ofList_iff_mem⟩⟩
  have h := (hs.denotes hS).answers (ht.denotes hT) hS hT
  have h' := (hs'.denotes hS).answers (ht'.denotes hT) hS hT
  have hback := (ht.denotes hT).answers (hs.denotes hS) hT hS
  refine ⟨h, funext fun v => ?_, funext fun x => ?_, ?_, ?_, ?_, negate_negate s, ?_⟩
  · rw [h.valueOf, h'.valueOf]
  · rw [Bool.eq_iff_iff, h.contains, h'.contains]
  · rw [Bool.eq_iff_iff, h.containsAll, h'.containsAll]
  · rw [Bool.eq_iff_iff, h.hasConflict, h'.hasConflict]
  · rw [h.size, h'.size]
  · rw [Bool.eq_iff_iff, h.hasConflict, hback.hasConflict]
    constructor
    · rintro ⟨x, hx, hneg⟩
      exact ⟨-x, hneg, by rwa [Int.neg_neg]⟩
    · rintro ⟨x, hx, hneg⟩
      exact ⟨-x, hneg, by rwa [Int.neg_neg]⟩

/-- An indexed and an unordered set of two literals, and sets that share one of them or oppose one. -/
theorem layouts_answer_alike_two_literals :
    IsPartialAssignment 4 {1, -3} ∧ IsPartialAssignment 4 {-3, 2} ∧
    Presents 4 {1, -3} (ofModel [-3, 1] 4 .indexed) ∧ Presents 4 {1, -3} (ofList [1, -3, 1]) ∧
    Presents 4 {-3, 2} (ofModel [2, -3] 4 .indexed) ∧ Presents 4 {-3, 2} (ofList [-3, 2]) ∧
    Answers (ofModel [-3, 1] 4 .indexed) (ofList [-3, 2]) {1, -3} {-3, 2} ∧
    (ofModel [-3, 1] 4 .indexed).valueOf = (ofList [1, -3, 1]).valueOf ∧
    (ofModel [-3, 1] 4 .indexed).containsAll (ofList [-3, 2]) =
      (ofList [1, -3, 1]).containsAll (ofModel [2, -3] 4 .indexed) ∧
    ((ofList [1, 2, -3]).isContradictory = false ∧ (ofList [2, 0, -1, 1]).isContradictory = true) := by
  have hS : IsPartialAssignment 4 {1, -3} := by decide
  have hT : IsPartialAssignment 4 {-3, 2} := by decide
  have hs : Presents 4 {1, -3} (ofModel [-3, 1] 4 .indexed) := ⟨[-3, 1], .indexed, by decide, rfl⟩
  have hs' : Presents 4 {1, -3} (ofList [1, -3, 1]) := ⟨[1, -3, 1], .unordered, by decide, rfl⟩
  have ht : Presents 4 {-3, 2} (ofModel [2, -3] 4 .indexed) := ⟨[2, -3], .indexed, by decide, rfl⟩
  have ht' : Presents 4 {-3, 2} (ofList [-3, 2]) := ⟨[-3, 2], .unordered, by decide, rfl⟩
  obtain ⟨hanswers, -⟩ := layouts_answer_alike.1 4 _ _ hS hT _ _ _ _ hs hs' ht' ht
  obtain ⟨-, hvalue, -, hall, -⟩ := layouts_answer_alike.1 4 _ _ hS hT _ _ _ _ hs hs' ht' ht
  exact ⟨hS, hT, hs, hs', ht, ht', hanswers, hvalue, hall, by cbv, by cbv⟩

end LiteralSet

end ConfigSampler
