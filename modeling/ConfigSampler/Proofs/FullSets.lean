import ConfigSampler.Proofs.Entailment
import ConfigSampler.Proofs.LiteralSets

/-!
# Full assignments as sets

An indexed set with a value in every slot is a full assignment (`LiteralSet.IsFull`), and a literal
is in it exactly if the assignment makes it true (`LiteralSet.IsFull.contains_iff`).  The set of a
trail that gives every variable a value is of this kind.
-/

set_option autoImplicit false

namespace ConfigSampler

/-- The literal of a variable, counted from one, that the assignment makes true. -/
def Assignment.literal (α : Assignment) (v : Nat) : Int := if α v then (v : Int) else -(v : Int)

namespace Assignment

variable {α β : Assignment} {x : Int} {v : Nat}

@[simp]
theorem natAbs_literal (α : Assignment) (v : Nat) : (α.literal v).natAbs = v := by
  unfold literal; split <;> simp

theorem makes_iff_eq_literal (hx : x ≠ 0) : α.Makes x ↔ x = α.literal x.natAbs := by
  unfold Makes literal
  cases α x.natAbs with
  | false =>
    rw [if_neg Bool.false_ne_true, eq_comm, decide_eq_false_iff_not]
    omega
  | true =>
    rw [if_pos rfl, eq_comm, decide_eq_true_iff]
    omega

end Assignment

namespace LiteralSet

variable {m : LiteralSet} {n v : Nat} {x : Int} {α β : Assignment}

/-- The set is indexed and has a literal of every one of `n` variables in its slot. -/
structure IsFull (m : LiteralSet) (n : Nat) : Prop where
  layout : m.layout = .indexed
  size : m.slots.size = n
  slot : ∀ v < n, m.slots[v]? = some ((v : Int) + 1) ∨ m.slots[v]? = some (-((v : Int) + 1))

/-- The assignment that makes the literals of a set true, and variables without one false. -/
def assignment (m : LiteralSet) : Assignment := fun v => m.contains (v : Int)

/-- The full set of an assignment of `n` variables. -/
def ofAssignment (n : Nat) (α : Assignment) : LiteralSet :=
  ⟨.indexed, Array.ofFn fun i : Fin n => α.literal (i.val + 1)⟩

theorem slots_ofAssignment (hv : v < n) : (ofAssignment n α).slots[v]? = some (α.literal (v + 1)) := by
  simp [ofAssignment, hv]

theorem isFull_ofAssignment (n : Nat) (α : Assignment) : (ofAssignment n α).IsFull n := by
  refine ⟨rfl, by simp [ofAssignment], fun v hv => ?_⟩
  rw [slots_ofAssignment hv]
  cases h : α (v + 1) <;> simp [Assignment.literal, h]

theorem valueOf_ofAssignment (n v : Nat) (α : Assignment) :
    (ofAssignment n α).valueOf v = if 0 < v ∧ v ≤ n then some (α v) else none := by
  unfold valueOf
  rcases Nat.eq_zero_or_pos v with rfl | hpos
  · simp [ofAssignment]
  · have hsub : v - 1 + 1 = v := by omega
    by_cases hle : v ≤ n
    · have hslot : (ofAssignment n α).slots[v - 1]? = some (α.literal v) := by
        rw [slots_ofAssignment (by omega), hsub]
      simp only [show (ofAssignment n α).layout = .indexed from rfl, hslot]
      cases h : α v <;> simp [Assignment.literal, h, hpos, hle] <;> omega
    · have hslot : (ofAssignment n α).slots[v - 1]? = none := by
        rw [Array.getElem?_eq_none]
        simp only [ofAssignment, Array.size_ofFn]
        omega
      simp only [show (ofAssignment n α).layout = .indexed from rfl, hslot]
      simp [hle]

theorem contains_ofAssignment :
    (ofAssignment n α).contains x = true ↔ x ≠ 0 ∧ x.natAbs ≤ n ∧ α.Makes x := by
  simp only [contains, Bool.and_eq_true, bne_iff_ne, beq_iff_eq, valueOf_ofAssignment,
    Assignment.Makes]
  constructor
  · rintro ⟨hx, hv⟩
    split at hv
    · rename_i hle
      exact ⟨hx, hle.2, by simpa using hv⟩
    · cases hv
  · rintro ⟨hx, hle, hm⟩
    rw [if_pos ⟨by omega, hle⟩, hm]
    exact ⟨hx, rfl⟩

theorem assignment_ofAssignment (hv : 0 < v) (hle : v ≤ n) :
    (ofAssignment n α).assignment v = α v := by
  have hne : v ≠ 0 := by omega
  have hiff : (ofAssignment n α).contains (v : Int) = true ↔ α v = true := by
    rw [contains_ofAssignment]
    simp [Assignment.Makes, hne, hv, hle]
  unfold assignment
  cases h : α v <;> simp_all

/-- Full sets are those of assignments. -/
theorem IsFull.eq_ofAssignment (h : m.IsFull n) : m = ofAssignment n m.assignment := by
  have hslot : ∀ v < n, m.slots[v]? = some (m.assignment.literal (v + 1)) := by
    intro v hv
    have hvalue : m.assignment (v + 1) = m.contains ((v : Int) + 1) := rfl
    have habs : ((v : Int) + 1).natAbs = v + 1 := by omega
    rcases h.slot v hv with hs | hs
    · have : m.contains ((v : Int) + 1) = true := by
        simp [contains, valueOf, h.layout, habs, hs]
        omega
      rw [hs, Assignment.literal, hvalue, this]
      simp
    · have : m.contains ((v : Int) + 1) = false := by
        simp [contains, valueOf, h.layout, habs, hs]
        omega
      rw [hs, Assignment.literal, hvalue, this]
      simp
  obtain ⟨layout, slots⟩ := m
  obtain rfl : layout = .indexed := h.layout
  unfold ofAssignment
  congr 1
  refine Array.ext_getElem? fun v => ?_
  by_cases hv : v < n
  · rw [hslot v hv]
    exact (slots_ofAssignment hv).symm
  · have hsize : slots.size = n := h.size
    simp [hsize, hv]

theorem IsFull.contains_iff (h : m.IsFull n) :
    m.contains x = true ↔ x ≠ 0 ∧ x.natAbs ≤ n ∧ m.assignment.Makes x := by
  conv_lhs => rw [h.eq_ofAssignment]
  exact contains_ofAssignment

/-- Two full sets are the same if their assignments agree on the variables. -/
theorem ofAssignment_congr (h : ∀ v, 0 < v → v ≤ n → α v = β v) :
    ofAssignment n α = ofAssignment n β := by
  unfold ofAssignment
  congr 2
  funext i
  rw [Assignment.literal, Assignment.literal, h (i.val + 1) (by omega) (by omega)]

/-! ## Complements -/

theorem mem_literals_negate : x ∈ m.negate.literals ↔ -x ∈ m.literals := by
  simp only [literals, negate, List.mem_filter, Array.mem_toList_iff, Array.mem_map, ne_eq,
    decide_not, Bool.not_eq_true', decide_eq_false_iff_not]
  constructor
  · rintro ⟨⟨y, hy, rfl⟩, hne⟩
    rw [Int.neg_neg]
    exact ⟨hy, by omega⟩
  · rintro ⟨hy, hne⟩
    exact ⟨⟨-x, hy, by omega⟩, by omega⟩

/-- The literals of a full set are those that its assignment makes true. -/
theorem IsFull.mem_literals (h : m.IsFull n) :
    x ∈ m.literals ↔ x ≠ 0 ∧ x.natAbs ≤ n ∧ m.assignment.Makes x := by
  have hslots : m.slots = (ofAssignment n m.assignment).slots := by rw [← h.eq_ofAssignment]
  simp only [literals, hslots, ofAssignment, List.mem_filter, Array.mem_toList_iff, Array.mem_ofFn,
    ne_eq, decide_not, Bool.not_eq_true', decide_eq_false_iff_not]
  constructor
  · rintro ⟨⟨i, rfl⟩, hne⟩
    rw [Assignment.makes_iff_eq_literal hne, Assignment.natAbs_literal]
    exact ⟨hne, i.isLt, rfl⟩
  · rintro ⟨hne, hle, hmakes⟩
    refine ⟨⟨⟨x.natAbs - 1, by omega⟩, ?_⟩, hne⟩
    rw [show x.natAbs - 1 + 1 = x.natAbs by omega]
    exact ((Assignment.makes_iff_eq_literal hne).1 hmakes).symm

theorem IsFull.contains_iff_mem (h : m.IsFull n) : m.contains x = true ↔ x ∈ m.literals := by
  rw [h.contains_iff, h.mem_literals]

/-- The clause of the complements of a full set excludes the assignment of this set and no other. -/
theorem IsFull.satisfies_negate (h : m.IsFull n) :
    α.Satisfies m.negate.literals ↔ ofAssignment n α ≠ m := by
  constructor
  · rintro ⟨x, hx, hmakes⟩ rfl
    obtain ⟨hne, hle, hneg⟩ := contains_ofAssignment.1 (h.contains_iff_mem.2 (mem_literals_negate.1 hx))
    exact (Assignment.makes_neg (by omega)).1 hneg hmakes
  · intro hdiffer
    by_contra hnone
    apply hdiffer
    rw [h.eq_ofAssignment]
    refine ofAssignment_congr fun v hv hle => ?_
    -- the literal of `m` for this variable is not the complement of a literal that `α` makes true
    have hmem : m.assignment.literal v ∈ m.literals := by
      have hne : m.assignment.literal v ≠ 0 := by
        intro h0
        have := m.assignment.natAbs_literal v
        omega
      rw [h.mem_literals, Assignment.makes_iff_eq_literal hne, Assignment.natAbs_literal]
      exact ⟨hne, hle, rfl⟩
    have hfalse : ¬ α.Makes (-m.assignment.literal v) := fun hmakes =>
      hnone ⟨_, mem_literals_negate.2 (by rw [Int.neg_neg]; exact hmem), hmakes⟩
    rw [Assignment.makes_neg (ne_zero_of_mem_literals hmem), not_not] at hfalse
    unfold Assignment.Makes at hfalse
    rw [Assignment.natAbs_literal] at hfalse
    rw [hfalse, Assignment.literal]
    cases m.assignment v with
    | false => simp
    | true =>
      simp only [if_true, decide_eq_true_eq]
      omega

/-! ## Sets of models -/

/-- Placing literals that an assignment makes true fills the slots of their variables. -/
theorem foldl_place : ∀ (lits : List Int) (slots : Array Int),
    (∀ x ∈ lits, x ≠ 0 ∧ α.Makes x) → (lits.foldl place slots).size = slots.size ∧
    ∀ v < slots.size, (lits.foldl place slots)[v]? =
      if ∃ x ∈ lits, x.natAbs = v + 1 then some (α.literal (v + 1)) else slots[v]?
  | [], slots, _ => ⟨rfl, fun v _ => by simp⟩
  | x :: lits, slots, h => by
    obtain ⟨hx, hmakes⟩ := h x (by simp)
    have hstep : place slots x = slots.setIfInBounds (x.natAbs - 1) x := by simp [place, hx]
    obtain ⟨hsize, hget⟩ := foldl_place lits (place slots x) fun y hy => h y (List.mem_cons_of_mem _ hy)
    have hsame : (place slots x).size = slots.size := by rw [hstep]; simp
    refine ⟨hsize.trans hsame, fun v hv => ?_⟩
    rw [List.foldl_cons, hget v (by rw [hsame]; exact hv)]
    by_cases hrest : ∃ y ∈ lits, y.natAbs = v + 1
    · obtain ⟨y, hy, hyv⟩ := hrest
      rw [if_pos ⟨y, hy, hyv⟩, if_pos ⟨y, List.mem_cons_of_mem _ hy, hyv⟩]
    · rw [if_neg hrest, hstep, Array.getElem?_setIfInBounds]
      by_cases hxv : x.natAbs = v + 1
      · rw [if_pos (by omega), if_pos (by omega), if_pos ⟨x, by simp, hxv⟩]
        rw [(Assignment.makes_iff_eq_literal hx).1 hmakes, hxv]
      · rw [if_neg (by omega), if_neg]
        rintro ⟨y, hy, hyv⟩
        rcases List.mem_cons.1 hy with rfl | hy
        · exact hxv hyv
        · exact hrest ⟨y, hy, hyv⟩

theorem ofModel_eq_ofAssignment {lits : List Int} (h : ∀ x ∈ lits, x ≠ 0 ∧ α.Makes x)
    (hall : ∀ v < n, ∃ x ∈ lits, x.natAbs = v + 1) : ofModel lits n .indexed = ofAssignment n α := by
  obtain ⟨hsize, hget⟩ := foldl_place lits (Array.replicate n 0) h
  rw [Array.size_replicate] at hsize hget
  unfold ofModel ofAssignment
  dsimp only
  congr 1
  refine Array.ext_getElem? fun v => ?_
  by_cases hv : v < n
  · rw [hget v hv, if_pos (hall v hv)]
    exact (slots_ofAssignment hv).symm
  · simp [hsize, hv]

end LiteralSet

namespace Trail

variable {t : Trail}

theorem Ok.mem_model (h : t.Ok) {l : Lit} : l ∈ t.model ↔ l.var < t.numVars ∧ t.isTrue l = true := by
  simp only [model, List.mem_filterMap, Prod.exists, List.mem_zipIdx_iff_getElem?,
    Array.getElem?_toList]
  constructor
  · rintro ⟨values, v, hget, he⟩
    have hlt : v < t.values.size := by
      by_contra hge
      rw [Array.getElem?_eq_none (by omega)] at hget
      cases hget
    have hvalues : t.valuesOf v = values := by simp [valuesOf, Array.getD_eq_getD_getElem?, hget]
    cases hv : values.positive <;> rw [hv] at he <;>
      simp only [Option.some.injEq, reduceCtorEq] at he <;> subst he <;>
      simp [numVars, hlt, isTrue, h.value_eq, hvalues, hv, Value.flip]
  · rintro ⟨hlt, htrue⟩
    have hget : t.values[l.var]? = some (t.valuesOf l.var) := by
      have hlt' : l.var < t.values.size := hlt
      simp [valuesOf, Array.getD_eq_getD_getElem?, hlt']
    refine ⟨t.valuesOf l.var, l.var, hget, ?_⟩
    simp only [isTrue, h.value_eq, beq_iff_eq] at htrue
    have hl := Lit.ofVar_var_negated l
    cases hn : l.negated <;> rw [hn] at htrue hl <;> cases hv : (t.valuesOf l.var).positive <;>
      simp_all [Value.flip]

/-- The set of a trail that gives every variable a value. -/
theorem Ok.ofModel_model (h : t.Ok) {n : Nat} (hn : t.numVars = n)
    (hall : ∀ v < n, t.isFree v = false) :
    LiteralSet.ofModel (t.model.map Lit.toInt) n .indexed =
      LiteralSet.ofAssignment n t.assignment := by
  have hnat : ∀ l : Lit, l.toInt ≠ 0 ∧ l.toInt.natAbs = l.var + 1 := by
    intro l
    unfold Lit.toInt
    split <;> omega
  refine LiteralSet.ofModel_eq_ofAssignment (fun x hx => ?_) fun v hv => ?_
  · obtain ⟨l, hl, rfl⟩ := List.mem_map.1 hx
    obtain ⟨hlt, htrue⟩ := h.mem_model.1 hl
    have hholds := (h.holds_assignment (hall l.var (hn ▸ hlt))).2 htrue
    refine ⟨(hnat l).1, ?_⟩
    simp only [Lit.Holds] at hholds
    rw [Assignment.Makes, (hnat l).2, hholds, Lit.toInt]
    cases l.negated with
    | false =>
      rw [if_neg Bool.false_ne_true]
      exact (decide_eq_true (by omega)).symm
    | true =>
      rw [if_pos rfl]
      exact (decide_eq_false (by omega)).symm
  · have hset : t.isTrue (Lit.ofVar v false) = true ∨ t.isTrue (Lit.ofVar v true) = true := by
      have hfree := hall v hv
      simp only [isFree, beq_eq_false_iff_ne] at hfree
      simp only [isTrue, h.value_eq, Lit.var_ofVar, Lit.negated_ofVar]
      cases hval : (t.valuesOf v).positive <;> simp_all [Value.flip]
    rcases hset with htrue | htrue
    all_goals
      refine ⟨_, List.mem_map.2 ⟨_, h.mem_model.2 ⟨?_, htrue⟩, rfl⟩, ?_⟩
      · rw [Lit.var_ofVar, hn]
        exact hv
      · rw [(hnat _).2, Lit.var_ofVar]

end Trail

end ConfigSampler
