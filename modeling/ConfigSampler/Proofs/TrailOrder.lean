import ConfigSampler.Proofs.Truth
import ConfigSampler.Solver.Trail
import Mathlib.Data.List.Nodup
import Mathlib.Data.List.Perm.Subperm

/-!
# The trail as an ordered list of true literals

`Trail.Ok` ties the tables of a trail to its list of literals: a literal is true exactly if it is
on the list, complements have opposite values or none, no variable is on the list twice, and the
level of a variable is the number of limits at or below its place.  Adding variables, assigning,
opening levels and moving the head of the queue keep it.
-/

set_option autoImplicit false

namespace ConfigSampler

namespace Trail

variable {t : Trail} {l m : Lit}

/-! ## Values -/

theorem isTrue_not_isFalse (h : t.isTrue l = true) : t.isFalse l = false := by
  simp only [isFalse, isTrue, beq_iff_eq] at *
  simp [h]

/-! ## Order -/

/-- The level of the place `i`: the number of limits at or below it. -/
def levelAt (t : Trail) (i : Nat) : Nat := t.limits.toList.countP (· ≤ i)

theorem levelAt_mono (t : Trail) {i j : Nat} (h : i ≤ j) : t.levelAt i ≤ t.levelAt j :=
  List.countP_mono_left fun b _ hb => by simp only [decide_eq_true_eq] at *; omega

theorem levelAt_le (t : Trail) (i : Nat) : t.levelAt i ≤ t.level := by
  have h := @List.countP_le_length _ (fun b => decide (b ≤ i)) t.limits.toList
  rwa [Array.length_toList] at h

/-- The tables of a trail describe its list of literals. -/
structure Ok (t : Trail) : Prop where
  levels_size : t.levels.size = t.numVars
  reasons_size : t.reasons.size = t.numVars
  nodup : (t.lits.toList.map Lit.var).Nodup
  var_lt : ∀ l ∈ t.lits, l.var < t.numVars
  isTrue_iff : ∀ l, t.isTrue l = true ↔ l ∈ t.lits
  value_negate : ∀ l, t.value l.negate = (t.value l).flip
  limits_sorted : t.limits.toList.Pairwise (· ≤ ·)
  limits_le : ∀ b ∈ t.limits.toList, b ≤ t.size
  levelOf_litAt : ∀ i < t.size, t.levelOf (t.litAt i) = t.levelAt i
  queueHead_le : t.queueHead ≤ t.size

theorem lt_length_lits {i : Nat} (h : i < t.size) : i < t.lits.toList.length := by
  simpa [size] using h

theorem litAt_eq {i : Nat} (h : i < t.lits.toList.length) : t.litAt i = t.lits.toList[i] := by
  have hi : i < t.lits.size := h
  simp [litAt, Array.getD_eq_getD_getElem?, hi]

theorem litAt_mem {i : Nat} (h : i < t.size) : t.litAt i ∈ t.lits := by
  rw [litAt_eq (lt_length_lits h), ← Array.mem_toList_iff]; exact List.getElem_mem _

theorem exists_litAt (h : l ∈ t.lits) : ∃ i < t.size, t.litAt i = l := by
  obtain ⟨i, hi, rfl⟩ := List.mem_iff_getElem.1 (Array.mem_toList_iff.2 h)
  exact ⟨i, hi, litAt_eq (lt_length_lits hi)⟩

namespace Ok

theorem isFalse_eq (h : t.Ok) (l : Lit) : t.isFalse l = t.isTrue l.negate := by
  simp only [isFalse, isTrue, h.value_negate]
  cases t.value l <;> rfl

theorem isFalse_iff (h : t.Ok) (l : Lit) : t.isFalse l = true ↔ l.negate ∈ t.lits := by
  rw [h.isFalse_eq, h.isTrue_iff]

/-- The value of the positive literal tells that of both. -/
theorem value_eq (h : t.Ok) (l : Lit) :
    t.value l =
      if l.negated then (t.valuesOf l.var).positive.flip else (t.valuesOf l.var).positive := by
  cases hn : l.negated with
  | false => rw [value, hn]; rfl
  | true =>
    have hneg := h.value_negate l.negate
    rw [Lit.negate_negate] at hneg
    rw [hneg, value, Lit.var_negate, Lit.negated_negate, hn]
    rfl

/-- A variable is free if neither of its literals is true. -/
theorem isFree_iff (h : t.Ok) (l : Lit) :
    t.isFree l.var = true ↔ t.isTrue l = false ∧ t.isFalse l = false := by
  simp only [isFree, isTrue, isFalse, h.value_eq]
  cases (t.valuesOf l.var).positive <;> cases l.negated <;> simp [Value.flip]

/-- A trail with more true literals has fewer variables without a value. -/
theorem isFree_of_isTrue {u : Trail} (ht : t.Ok) (hu : u.Ok)
    (h : ∀ m, t.isTrue m = true → u.isTrue m = true) {v : Nat} (hv : u.isFree v = true) :
    t.isFree v = true := by
  have hback : ∀ m, u.isTrue m = false → t.isTrue m = false := by
    intro m hm
    cases ht : t.isTrue m with
    | false => rfl
    | true => rw [h m ht] at hm; cases hm
  rw [← Lit.var_ofVar v false] at hv ⊢
  rw [hu.isFree_iff, hu.isFalse_eq] at hv
  rw [ht.isFree_iff, ht.isFalse_eq]
  exact ⟨hback _ hv.1, hback _ hv.2⟩

theorem isTrue_litAt (h : t.Ok) {i : Nat} (hi : i < t.size) : t.isTrue (t.litAt i) = true :=
  (h.isTrue_iff _).2 (litAt_mem hi)

/-- No two places of the trail hold literals of one variable. -/
theorem litAt_inj (h : t.Ok) {i j : Nat} (hi : i < t.size) (hj : j < t.size)
    (hv : (t.litAt i).var = (t.litAt j).var) : i = j := by
  rw [litAt_eq (lt_length_lits hi), litAt_eq (lt_length_lits hj)] at hv
  have hi' : i < (t.lits.toList.map Lit.var).length := by simpa [size] using hi
  have hj' : j < (t.lits.toList.map Lit.var).length := by simpa [size] using hj
  exact (List.Nodup.getElem_inj_iff h.nodup).1
    (show (t.lits.toList.map Lit.var)[i] = (t.lits.toList.map Lit.var)[j] by
      rw [List.getElem_map, List.getElem_map]
      exact hv)

theorem levelOf_le (h : t.Ok) (hl : l ∈ t.lits) : t.levelOf l ≤ t.level := by
  obtain ⟨i, hi, rfl⟩ := exists_litAt hl
  rw [h.levelOf_litAt i hi]; exact t.levelAt_le i

theorem size_le (h : t.Ok) : t.size ≤ t.numVars := by
  have hsub : (t.lits.toList.map Lit.var) ⊆ List.range t.numVars := by
    intro v hv
    obtain ⟨l, hl, rfl⟩ := List.mem_map.1 hv
    exact List.mem_range.2 (h.var_lt l (by simpa using hl))
  have := (List.subperm_of_subset h.nodup hsub).length_le
  simpa [size] using this

end Ok

@[simp]
theorem levelOf_negate (t : Trail) (l : Lit) : t.levelOf l.negate = t.levelOf l := by
  simp [levelOf]

/-! ## Starting, assigning, opening levels -/

@[simp]
theorem value_empty (l : Lit) : empty.value l = .unset := by
  simp [empty, value, valuesOf, LitValues.get, LitValues.unset]

theorem ok_empty : Trail.empty.Ok where
  levels_size := rfl
  reasons_size := rfl
  nodup := by simp [empty]
  var_lt := by simp [empty]
  isTrue_iff l := by rw [isTrue, value_empty]; simp [empty]
  value_negate l := by rw [value_empty, value_empty, Value.flip]
  limits_sorted := by simp [empty]
  limits_le := by simp [empty]
  levelOf_litAt := by simp [empty, size]
  queueHead_le := by simp [empty, size]

@[simp]
theorem numVars_assign (t : Trail) (l : Lit) (reason : Option ClauseRef) :
    (t.assign l reason).numVars = t.numVars := by simp [assign, numVars]

@[simp]
theorem size_assign (t : Trail) (l : Lit) (reason : Option ClauseRef) :
    (t.assign l reason).size = t.size + 1 := by simp [assign, size]

@[simp]
theorem level_assign (t : Trail) (l : Lit) (reason : Option ClauseRef) :
    (t.assign l reason).level = t.level := rfl

@[simp]
theorem queueHead_assign (t : Trail) (l : Lit) (reason : Option ClauseRef) :
    (t.assign l reason).queueHead = t.queueHead := rfl

@[simp]
theorem levelAt_assign (t : Trail) (l : Lit) (reason : Option ClauseRef) (i : Nat) :
    (t.assign l reason).levelAt i = t.levelAt i := rfl

theorem mem_assign {reason : Option ClauseRef} : m ∈ (t.assign l reason).lits ↔ m ∈ t.lits ∨ m = l := by
  simp [assign]

theorem litAt_assign_of_lt (reason : Option ClauseRef) {i : Nat} (h : i < t.size) :
    (t.assign l reason).litAt i = t.litAt i := by
  have hi : i < t.lits.size := h
  simp [litAt, assign, Array.getD, Array.getElem_push, hi, Nat.lt_succ_of_lt hi]

theorem litAt_assign_size (t : Trail) (l : Lit) (reason : Option ClauseRef) :
    (t.assign l reason).litAt t.size = l := by
  simp [litAt, assign, size, Array.getD]

theorem levelOf_assign_of_ne (reason : Option ClauseRef) (h : m.var ≠ l.var) :
    (t.assign l reason).levelOf m = t.levelOf m := by
  simp [levelOf, assign, Array.getD_eq_getD_getElem?, Ne.symm h]

theorem reasonOf_assign_of_ne (reason : Option ClauseRef) (h : m.var ≠ l.var) :
    (t.assign l reason).reasonOf m = t.reasonOf m := by
  simp [reasonOf, assign, Array.getD_eq_getD_getElem?, Ne.symm h]

theorem value_assign_of_ne (reason : Option ClauseRef) (h : m.var ≠ l.var) :
    (t.assign l reason).value m = t.value m := by
  simp [value, valuesOf, assign, Array.getD_eq_getD_getElem?, Ne.symm h]

theorem valuesOf_assign (hl : l.var < t.numVars) (reason : Option ClauseRef) :
    (t.assign l reason).valuesOf l.var =
      ((t.valuesOf l.var).set l.negated .isTrue).set (!l.negated) .isFalse := by
  have hl' : l.var < t.values.size := hl
  simp [valuesOf, assign, Array.getD_eq_getD_getElem?, hl']

theorem value_assign (hl : l.var < t.numVars) (reason : Option ClauseRef) :
    (t.assign l reason).value l = .isTrue := by
  rw [value, valuesOf_assign hl, LitValues.get_set_not, LitValues.get_set]

theorem value_assign_negate (hl : l.var < t.numVars) (reason : Option ClauseRef) :
    (t.assign l reason).value l.negate = .isFalse := by
  rw [value, Lit.var_negate, Lit.negated_negate, valuesOf_assign hl, LitValues.get_set]

namespace Ok

theorem levelOf_assign (h : t.Ok) (hl : l.var < t.numVars) (reason : Option ClauseRef) :
    (t.assign l reason).levelOf l = t.level := by
  have : l.var < t.levels.size := by rw [h.levels_size]; exact hl
  simp [levelOf, assign, level, Array.getD_eq_getD_getElem?, this]

theorem reasonOf_assign (h : t.Ok) (hl : l.var < t.numVars) (reason : Option ClauseRef) :
    (t.assign l reason).reasonOf l = reason := by
  have : l.var < t.reasons.size := by rw [h.reasons_size]; exact hl
  simp [reasonOf, assign, Array.getD_eq_getD_getElem?, this]

theorem var_ne_of_isFree (h : t.Ok) (hf : t.isFree l.var = true) (hm : m ∈ t.lits) :
    m.var ≠ l.var := by
  intro hv
  rw [← hv, h.isFree_iff, (h.isTrue_iff m).2 hm] at hf
  simp at hf

/-- Exactly the assigned literal becomes true. -/
theorem isTrue_assign (h : t.Ok) (hl : l.var < t.numVars) (hf : t.isFree l.var = true)
    (reason : Option ClauseRef) :
    (t.assign l reason).isTrue m = true ↔ m = l ∨ t.isTrue m = true := by
  by_cases hv : m.var = l.var
  · have hfalse : t.isTrue m = false := by
      rw [← hv, h.isFree_iff] at hf; exact hf.1
    rw [hfalse, isTrue]
    rcases Lit.eq_or_eq_negate hv with rfl | rfl
    · simp [value_assign hl]
    · simp [value_assign_negate hl, Lit.negate_ne]
  · rw [isTrue, value_assign_of_ne reason hv]
    exact ⟨.inr, fun he => he.resolve_left fun he => hv (he ▸ rfl)⟩

/-- Both values of the assigned variable are written. -/
theorem value_negate_assign (h : t.Ok) (hl : l.var < t.numVars) (reason : Option ClauseRef)
    (m : Lit) : (t.assign l reason).value m.negate = ((t.assign l reason).value m).flip := by
  by_cases hv : m.var = l.var
  · rcases Lit.eq_or_eq_negate hv with rfl | rfl
    · rw [value_assign_negate hl, value_assign hl, Value.flip]
    · rw [Lit.negate_negate, value_assign_negate hl, value_assign hl, Value.flip]
  · rw [value_assign_of_ne reason hv, value_assign_of_ne reason (by rwa [Lit.var_negate]),
      h.value_negate]

theorem assign (h : t.Ok) (hl : l.var < t.numVars) (hf : t.isFree l.var = true)
    (reason : Option ClauseRef) : (t.assign l reason).Ok where
  levels_size := by simpa [Trail.assign, numVars] using h.levels_size
  reasons_size := by simpa [Trail.assign, numVars] using h.reasons_size
  nodup := by
    have hd : ∀ m ∈ t.lits, m.var ≠ l.var := fun m hm => h.var_ne_of_isFree hf hm
    simp only [Trail.assign, Array.toList_push, List.map_append, List.map_cons, List.map_nil]
    refine List.nodup_append.2 ⟨h.nodup, by simp, ?_⟩
    intro v hv w hw
    obtain ⟨m, hm, rfl⟩ := List.mem_map.1 hv
    rw [List.mem_singleton.1 hw]
    exact hd m (by simpa using hm)
  var_lt m hm := by
    rw [numVars_assign]
    rcases mem_assign.1 hm with hm | rfl
    · exact h.var_lt m hm
    · exact hl
  isTrue_iff m := by
    rw [h.isTrue_assign hl hf, mem_assign, h.isTrue_iff, or_comm]
  value_negate := h.value_negate_assign hl reason
  limits_sorted := h.limits_sorted
  limits_le b hb := by rw [size_assign]; exact Nat.le_succ_of_le (h.limits_le b hb)
  levelOf_litAt i hi := by
    rw [size_assign] at hi
    rw [levelAt_assign]
    rcases Nat.lt_succ_iff_lt_or_eq.1 hi with hi | rfl
    · rw [litAt_assign_of_lt _ hi,
        levelOf_assign_of_ne _ (h.var_ne_of_isFree hf (litAt_mem hi)), h.levelOf_litAt i hi]
    · rw [litAt_assign_size, h.levelOf_assign hl, levelAt, level, List.countP_eq_length.2,
        Array.length_toList]
      intro b hb
      simpa using h.limits_le b hb
  queueHead_le := by rw [queueHead_assign, size_assign]; exact Nat.le_succ_of_le h.queueHead_le

end Ok

@[simp]
theorem litAt_newLevel (t : Trail) (i : Nat) : t.newLevel.litAt i = t.litAt i := rfl

@[simp]
theorem levelOf_newLevel (t : Trail) (l : Lit) : t.newLevel.levelOf l = t.levelOf l := rfl

@[simp]
theorem level_newLevel (t : Trail) : t.newLevel.level = t.level + 1 := by simp [newLevel, level]

theorem levelAt_newLevel {i : Nat} (h : i < t.size) : t.newLevel.levelAt i = t.levelAt i := by
  have : ¬ t.size ≤ i := by omega
  simp [levelAt, newLevel, List.countP_append, show ¬ t.lits.size ≤ i from this]

theorem Ok.newLevel (h : t.Ok) : t.newLevel.Ok where
  levels_size := h.levels_size
  reasons_size := h.reasons_size
  nodup := h.nodup
  var_lt := h.var_lt
  isTrue_iff := h.isTrue_iff
  value_negate := h.value_negate
  limits_sorted := by
    simp only [Trail.newLevel, Array.toList_push]
    refine List.pairwise_append.2 ⟨h.limits_sorted, by simp, ?_⟩
    intro b hb c hc
    rw [List.mem_singleton.1 hc]
    exact h.limits_le b hb
  limits_le b hb := by
    simp only [Trail.newLevel, Array.toList_push, List.mem_append, List.mem_singleton] at hb
    rcases hb with hb | rfl
    · exact h.limits_le b hb
    · exact Nat.le_refl _
  levelOf_litAt i hi := by
    rw [litAt_newLevel, levelOf_newLevel, levelAt_newLevel (t := t) hi, h.levelOf_litAt i hi]
  queueHead_le := h.queueHead_le

/-! ## The queue -/

theorem dequeue_eq_some {u : Trail} (h : t.dequeue = some (l, u)) :
    t.queueHead < t.size ∧ l = t.litAt t.queueHead ∧ u = { t with queueHead := t.queueHead + 1 } := by
  unfold dequeue at h
  split at h
  · rename_i hlt
    cases h
    exact ⟨hlt, rfl, rfl⟩
  · cases h

theorem dequeue_eq_none (h : t.dequeue = none) : t.size ≤ t.queueHead := by
  unfold dequeue at h
  split at h
  · cases h
  · rename_i hge
    simpa [size] using hge

theorem Ok.withQueueHead (h : t.Ok) {q : Nat} (hq : q ≤ t.size) : { t with queueHead := q }.Ok :=
  ⟨h.levels_size, h.reasons_size, h.nodup, h.var_lt, h.isTrue_iff, h.value_negate, h.limits_sorted,
    h.limits_le, h.levelOf_litAt, hq⟩

/-! ## New variables -/

theorem value_newVar (t : Trail) (l : Lit) : t.newVar.value l = t.value l := by
  simp only [value, valuesOf, newVar, Array.getD_eq_getD_getElem?, Array.getElem?_push]
  by_cases h : l.var = t.values.size
  · simp [h]
  · rw [if_neg h]

theorem Ok.newVar (h : t.Ok) : t.newVar.Ok where
  levels_size := by simpa [Trail.newVar, numVars] using h.levels_size
  reasons_size := by simpa [Trail.newVar, numVars] using h.reasons_size
  nodup := h.nodup
  var_lt l hl := Nat.lt_of_lt_of_le (h.var_lt l hl) (by simp [Trail.newVar, numVars])
  isTrue_iff l := by rw [isTrue, value_newVar]; exact h.isTrue_iff l
  value_negate l := by rw [value_newVar, value_newVar, h.value_negate]
  limits_sorted := h.limits_sorted
  limits_le := h.limits_le
  levelOf_litAt i hi := by
    have hv : (t.litAt i).var < t.levels.size := by
      rw [h.levels_size]; exact h.var_lt _ (litAt_mem hi)
    have : t.newVar.levelOf (t.litAt i) = t.levelOf (t.litAt i) := by
      simp only [levelOf, Trail.newVar, Array.getD_eq_getD_getElem?, Array.getElem?_push,
        if_neg (Nat.ne_of_lt hv)]
    exact this.trans (h.levelOf_litAt i hi)
  queueHead_le := h.queueHead_le

end Trail

end ConfigSampler
