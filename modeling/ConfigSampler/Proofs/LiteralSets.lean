import ConfigSampler.Formula.LiteralSet

/-!
# Sets of literals

What a set contains is among its literals (`LiteralSet.mem_of_contains`).  The literals of an
unordered set are the non-zero ones it was made of (`LiteralSet.mem_literals_ofList`), and no two of
them are complements unless the set is contradictory (`LiteralSet.neg_notMem_of_ofList`).
-/

set_option autoImplicit false

namespace ConfigSampler

namespace LiteralSet

variable {s t : LiteralSet} {x y : Int} {lits : List Int}

theorem ne_zero_of_mem_literals (h : x ∈ s.literals) : x ≠ 0 := by
  simpa using (List.mem_filter.1 h).2

theorem mem_literals (hx : x ≠ 0) : x ∈ s.literals ↔ x ∈ s.slots := by
  simp [literals, hx]

theorem eq_of_natAbs_eq (habs : y.natAbs = x.natAbs) (hsign : decide (0 < y) = decide (0 < x)) :
    y = x := by
  rcases Int.natAbs_eq_natAbs_iff.1 habs with he | he
  · exact he
  · have hiff := decide_eq_decide.1 hsign
    omega

/-- What a set contains is one of its literals. -/
theorem mem_of_contains (h : s.contains x = true) : x ∈ s.literals := by
  simp only [contains, Bool.and_eq_true, bne_iff_ne, beq_iff_eq] at h
  obtain ⟨hx, hvalue⟩ := h
  rw [mem_literals hx]
  unfold valueOf at hvalue
  split at hvalue
  · split at hvalue
    · cases hvalue
    · split at hvalue
      · cases hvalue
      · rename_i lit hslot
        have hmem : lit ∈ s.slots := Array.mem_of_getElem? hslot
        split at hvalue
        · have hpos : 0 < x := by simpa using (Option.some.inj hvalue).symm
          rwa [show x = lit by omega]
        · split at hvalue
          · have hneg : ¬ 0 < x := by simpa using (Option.some.inj hvalue).symm
            rwa [show x = lit by omega]
          · cases hvalue
  · obtain ⟨lit, hfind, hsign⟩ := Option.map_eq_some_iff.1 hvalue
    have habs : lit.natAbs = x.natAbs := by simpa using Array.find?_some hfind
    obtain rfl := eq_of_natAbs_eq habs hsign
    exact Array.mem_of_find?_eq_some hfind

theorem mem_of_containsAll (h : s.containsAll t = true) (hx : x ∈ t.literals) : x ∈ s.literals :=
  mem_of_contains (List.all_eq_true.1 h x hx)

/-! ## Unordered sets -/

theorem mem_insertNew {slots : Array Int} {z : Int} :
    x ∈ insertNew slots z ↔ x ∈ slots ∨ x = z ∧ x ≠ 0 := by
  unfold insertNew
  split
  · rename_i h
    simp only [Bool.or_eq_true, decide_eq_true_eq, Array.contains_eq_mem] at h
    constructor
    · exact .inl
    · rintro (hx | ⟨rfl, hne⟩)
      · exact hx
      · exact h.resolve_left hne
  · rename_i h
    simp only [Bool.or_eq_true, decide_eq_true_eq, Array.contains_eq_mem, not_or] at h
    rw [Array.mem_push]
    constructor
    · rintro (hx | rfl)
      · exact .inl hx
      · exact .inr ⟨rfl, h.1⟩
    · rintro (hx | ⟨rfl, -⟩)
      · exact .inl hx
      · exact .inr rfl

theorem mem_foldl_insertNew : ∀ (lits : List Int) (slots : Array Int),
    x ∈ lits.foldl insertNew slots ↔ x ∈ slots ∨ x ∈ lits ∧ x ≠ 0
  | [], slots => by simp
  | z :: lits, slots => by
    rw [List.foldl_cons, mem_foldl_insertNew lits, mem_insertNew, List.mem_cons, or_and_right,
      or_assoc]

/-- The literals of an unordered set are the non-zero ones it was made of. -/
theorem mem_literals_ofList {lits : List Int} :
    x ∈ (ofList lits).literals ↔ x ∈ lits ∧ x ≠ 0 := by
  have hslots : x ∈ (ofList lits).slots ↔ x ∈ lits ∧ x ≠ 0 := by
    rw [ofList, mem_foldl_insertNew]
    simp
  constructor
  · intro hx
    rwa [mem_literals (ne_zero_of_mem_literals hx), hslots] at hx
  · rintro ⟨hx, hne⟩
    exact (mem_literals hne).2 (hslots.2 ⟨hx, hne⟩)

theorem mem_literals_union : x ∈ (s.union t).literals ↔ x ∈ s.literals ∨ x ∈ t.literals := by
  unfold union
  rw [mem_literals_ofList, List.mem_append]
  constructor
  · exact And.left
  · intro h
    exact ⟨h, h.elim ne_zero_of_mem_literals ne_zero_of_mem_literals⟩

/-- An unordered set contains each of its literals or the complement. -/
theorem contains_or_contains_neg (hs : s.layout = .unordered) (hx : x ∈ s.literals) :
    s.contains x = true ∨ s.contains (-x) = true := by
  have hne := ne_zero_of_mem_literals hx
  have hsome : (s.slots.find? fun lit => lit.natAbs == x.natAbs).isSome = true := by
    rw [Array.find?_isSome]
    exact ⟨x, (mem_literals hne).1 hx, by simp⟩
  obtain ⟨lit, hfind⟩ := Option.isSome_iff_exists.1 hsome
  have habs : lit.natAbs = x.natAbs := by simpa using Array.find?_some hfind
  simp only [contains, valueOf, hs, Int.natAbs_neg, hfind, Option.map_some]
  rcases Int.natAbs_eq_natAbs_iff.1 habs with rfl | rfl
  · left
    simp [hne]
  · right
    simp [hne]

/-- A set without contradiction has no literal together with its complement. -/
theorem neg_notMem_of_ofList (h : (ofList lits).isContradictory = false)
    (hx : x ∈ (ofList lits).literals) : -x ∉ (ofList lits).literals := by
  intro hneg
  have hno : ∀ y ∈ (ofList lits).literals, (ofList lits).contains (-y) = false := by
    simpa [isContradictory] using h
  rcases contains_or_contains_neg rfl hx with hc | hc
  · have := hno _ hneg
    rw [Int.neg_neg, hc] at this
    cases this
  · rw [hno x hx] at hc
    cases hc

/-- A set that was made of a list is contradictory exactly if it has a literal and its complement. -/
theorem isContradictory_ofList_iff : (ofList lits).isContradictory = true ↔
    ∃ x ∈ (ofList lits).literals, -x ∈ (ofList lits).literals := by
  constructor
  · intro hc
    obtain ⟨x, hx, hneg⟩ := List.any_eq_true.1 hc
    exact ⟨x, hx, mem_of_contains hneg⟩
  · rintro ⟨x, hx, hneg⟩
    rw [← Bool.not_eq_false]
    exact fun hc => neg_notMem_of_ofList hc hx hneg

/-- A set that was made of a list is contradictory exactly if some literal and its complement are in
    the list.  Zeros, which are no literals, do not count. -/
theorem isContradictory_ofList_iff_mem : (ofList lits).isContradictory = true ↔
    ∃ x ∈ lits, x ≠ 0 ∧ -x ∈ lits := by
  simp only [isContradictory_ofList_iff, mem_literals_ofList, and_assoc, ne_eq, Int.neg_eq_zero]
  constructor
  · rintro ⟨x, hx, hne, hneg, -⟩
    exact ⟨x, hx, hne, hneg⟩
  · rintro ⟨x, hx, hne, hneg⟩
    exact ⟨x, hx, hne, hneg, hne⟩

/-- A set without zeros is contradictory exactly if it was made of some literal and its complement. -/
theorem isContradictory_ofList (h : ∀ x ∈ lits, x ≠ 0) :
    (ofList lits).isContradictory = true ↔ ∃ x ∈ lits, -x ∈ lits := by
  rw [isContradictory_ofList_iff_mem]
  constructor
  · rintro ⟨x, hx, -, hneg⟩
    exact ⟨x, hx, hneg⟩
  · rintro ⟨x, hx, hneg⟩
    exact ⟨x, hx, h x hx, hneg⟩

/-- Literals are taken over unless they are there already. -/
theorem foldl_insertNew_eq : ∀ (lits : List Int) (slots : Array Int), (∀ x ∈ lits, x ≠ 0) →
    lits.foldl insertNew slots = slots ++ (lits.filter (· ∉ slots)).eraseDups.toArray
  | [], slots, _ => by simp
  | x :: lits, slots, h => by
    obtain ⟨hx, hrest⟩ := List.forall_mem_cons.1 h
    rw [List.foldl_cons, foldl_insertNew_eq lits _ hrest]
    by_cases hmem : x ∈ slots
    · have hkept : insertNew slots x = slots := by simp [insertNew, hmem]
      rw [hkept, List.filter_cons_of_neg (by simpa using hmem)]
    · have hpush : insertNew slots x = slots.push x := by simp [insertNew, hx, hmem]
      have hfilter : lits.filter (· ∉ slots.push x) =
          (lits.filter (· ∉ slots)).filter fun y => !y == x := by
        rw [List.filter_filter]
        refine List.filter_congr fun y _ => ?_
        by_cases hy : y = x <;> simp [hy]
      rw [hpush, hfilter, List.filter_cons_of_pos (by simpa using hmem), List.eraseDups_cons]
      simp

/-- The unordered set of non-zero literals keeps the first of equal ones. -/
theorem ofList_eq (h : ∀ x ∈ lits, x ≠ 0) : ofList lits = ⟨.unordered, lits.eraseDups.toArray⟩ := by
  have hall : lits.filter (· ∉ (#[] : Array Int)) = lits := List.filter_eq_self.2 (by simp)
  rw [ofList, foldl_insertNew_eq lits #[] h, hall, Array.empty_append]

end LiteralSet

end ConfigSampler
