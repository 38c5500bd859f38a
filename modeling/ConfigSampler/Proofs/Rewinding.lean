import ConfigSampler.Proofs.TrailOrder

/-!
# Going back on the trail

`Trail.rewindTo` is described by its outcome.  `cut_rewindTo` says that list and limits are cut,
newest literal first, and that exactly the variables cut off lose value and reason; from this
follows what holds on the shorter trail (`mem_rewindTo`, `isTrue_rewindTo`, `reasonOf_rewindTo`) and
that it is in order (`Ok.rewindTo`).
-/

set_option autoImplicit false

namespace ConfigSampler

namespace Trail

variable {t : Trail} {l m : Lit}

/-- The variables of the literals from place `b` on. -/
def varsFrom (t : Trail) (b : Nat) : List Nat := (t.lits.toList.drop b).map Lit.var

theorem varsFrom_of_size_le {b : Nat} (h : t.size ≤ b) : t.varsFrom b = [] := by
  rw [varsFrom, List.drop_eq_nil_of_le (by simpa [size] using h), List.map_nil]

/-- `u` is `t` without the literals from place `b` on, whose variables lost values and reason. -/
structure Cut (t u : Trail) (b : Nat) : Prop where
  lits : u.lits.toList = t.lits.toList.take b
  numVars : u.numVars = t.numVars
  levels : u.levels = t.levels
  reasons_size : u.reasons.size = t.reasons.size
  valuesOf : ∀ v, u.valuesOf v = if v ∈ t.varsFrom b then .unset else t.valuesOf v
  reasonOf : ∀ l, u.reasonOf l = if l.var ∈ t.varsFrom b then none else t.reasonOf l

namespace Cut

variable {u w : Trail} {b c : Nat}

theorem refl (t : Trail) (limits : Array Nat) (queueHead : Nat) (hb : t.size ≤ b) :
    Cut t { t with limits := limits, queueHead := queueHead } b := by
  refine ⟨?_, rfl, rfl, rfl, fun v => ?_, fun l => ?_⟩
  · rw [List.take_of_length_le (by simpa [Trail.size] using hb)]
  · rw [varsFrom_of_size_le hb]; rfl
  · rw [varsFrom_of_size_le hb]; rfl

theorem of_limits {limits : Array Nat} (h : Cut { t with limits := limits } u b) : Cut t u b :=
  ⟨h.lits, h.numVars, h.levels, h.reasons_size, h.valuesOf, h.reasonOf⟩

theorem value (h : Cut t u b) (l : Lit) :
    u.value l = if l.var ∈ t.varsFrom b then .unset else t.value l := by
  rw [Trail.value, h.valuesOf]
  split
  · cases l.negated <;> rfl
  · rfl

theorem varsFrom_append (h : Cut t u b) (hc : c ≤ b) :
    u.varsFrom c ++ t.varsFrom b = t.varsFrom c := by
  rw [varsFrom, varsFrom, varsFrom, h.lits, ← List.map_append]
  congr 1
  conv_rhs => rw [← List.take_append_drop b t.lits.toList]
  rw [List.drop_append, List.length_take]
  by_cases hb : b ≤ t.lits.toList.length
  · rw [Nat.min_eq_left hb, Nat.sub_eq_zero_of_le hc, List.drop_zero]
  · rw [List.drop_eq_nil_of_le (i := b) (by omega), List.drop_nil]

theorem trans (h : Cut t u b) (h' : Cut u w c) (hc : c ≤ b) : Cut t w c := by
  refine ⟨?_, h'.numVars.trans h.numVars, h'.levels.trans h.levels,
    h'.reasons_size.trans h.reasons_size, fun v => ?_, fun l => ?_⟩
  · rw [h'.lits, h.lits, List.take_take, Nat.min_eq_left hc]
  · rw [h'.valuesOf, h.valuesOf, ← h.varsFrom_append hc]
    simp only [List.mem_append]
    split <;> simp_all
  · rw [h'.reasonOf, h.reasonOf, ← h.varsFrom_append hc]
    simp only [List.mem_append]
    split <;> simp_all

theorem size (h : Cut t u b) (hb : b ≤ t.size) : u.size = b := by
  have := congrArg List.length h.lits
  simp only [Array.length_toList, List.length_take] at this
  simp only [Trail.size] at *
  omega

end Cut

theorem drop_last (h : 0 < t.size) :
    t.lits.toList.drop (t.lits.size - 1) = [t.litAt (t.lits.size - 1)] := by
  have hlt : t.lits.size - 1 < t.size := by simp only [size] at *; omega
  rw [litAt_eq (lt_length_lits hlt), List.drop_eq_getElem_cons, List.drop_eq_nil_of_le]
  simp only [Array.length_toList]; omega

/-- Taking the last literal off. -/
theorem cut_pop (h : 0 < t.size) :
    Cut t (unassign { t with lits := t.lits.pop } (t.litAt (t.lits.size - 1)).var) (t.size - 1) := by
  have hvars : t.varsFrom (t.size - 1) = [(t.litAt (t.lits.size - 1)).var] := by
    rw [varsFrom, size, drop_last h, List.map_singleton]
  generalize t.litAt (t.lits.size - 1) = l at *
  refine ⟨?_, by simp [unassign, numVars], rfl, by simp [unassign], fun v => ?_, fun m => ?_⟩
  · simp [unassign, size, List.dropLast_eq_take]
  · rw [hvars]
    by_cases hv : v = l.var
    · subst hv
      simp only [Trail.valuesOf, unassign, Array.getD_eq_getD_getElem?, Array.getElem?_setIfInBounds]
      by_cases hb : l.var < t.values.size <;> simp [hb]
    · simp [Trail.valuesOf, unassign, Array.getD_eq_getD_getElem?, Ne.symm hv, hv]
  · rw [hvars]
    by_cases hv : m.var = l.var
    · simp only [reasonOf, unassign, hv, Array.getD_eq_getD_getElem?, Array.getElem?_setIfInBounds]
      by_cases hb : l.var < t.reasons.size <;> simp [hb]
    · simp [reasonOf, unassign, Array.getD_eq_getD_getElem?, Ne.symm hv, hv]

theorem dropLits_spec (level : Nat) : ∀ (n : Nat) (t : Trail) (removed : Array (Nat × Lit)),
    n ≤ t.size →
      Cut t (dropLits level n t removed).1 (t.size - n) ∧
      (dropLits level n t removed).1.limits = t.limits ∧
      (dropLits level n t removed).1.queueHead = t.queueHead ∧
      (dropLits level n t removed).2.toList =
        removed.toList ++ (t.lits.toList.drop (t.size - n)).reverse.map (level, ·)
  | 0, t, removed, _ => by
    refine ⟨Cut.refl t t.limits t.queueHead (by omega), rfl, rfl, ?_⟩
    simp [dropLits, size]
  | n + 1, t, removed, hn => by
    have hpop := cut_pop (t := t) (by omega)
    generalize hu : unassign { t with lits := t.lits.pop } (t.litAt (t.lits.size - 1)).var = u at hpop
    have hsize : u.size = t.size - 1 := hpop.size (by omega)
    obtain ⟨hcut, hlimits, hqueue, hremoved⟩ := dropLits_spec level n u
      (removed.push (level, t.litAt (t.lits.size - 1))) (by omega)
    have hstep : dropLits level (n + 1) t removed =
        dropLits level n u (removed.push (level, t.litAt (t.lits.size - 1))) := by
      rw [← hu]; rfl
    have hb : u.size - n = t.size - (n + 1) := by omega
    rw [hb] at hcut hremoved
    rw [hstep]
    refine ⟨hpop.trans hcut (by omega), by rw [hlimits, ← hu]; rfl, by rw [hqueue, ← hu]; rfl, ?_⟩
    have hlast : t.lits.toList.drop (t.size - (n + 1)) =
        (t.lits.toList.take (t.size - 1)).drop (t.size - (n + 1)) ++ [t.litAt (t.lits.size - 1)] := by
      rw [← drop_last (t := t) (by omega)]
      conv_lhs => rw [← List.take_append_drop (t.size - 1) t.lits.toList]
      rw [List.drop_append_of_le_length (by simp only [List.length_take, Array.length_toList, size]; omega)]
      rfl
    rw [hremoved, hpop.lits, hlast]
    simp

theorem lt_length_limits {k : Nat} (h : k < t.level) : k < t.limits.toList.length := by
  simpa [level] using h

theorem top_of_lt {k : Nat} (h : k < t.limits.toList.length) : t.top k = t.limits.toList[k] := by
  have hk : k < t.limits.size := h
  simp [top, Array.getD_eq_getD_getElem?, hk]

theorem top_of_level_le {k : Nat} (h : t.level ≤ k) : t.top k = t.size := by
  simp only [level, top, size] at *
  simp [Array.getD_eq_getD_getElem?, h]

theorem top_mono (hsorted : t.limits.toList.Pairwise (· ≤ ·)) {j k : Nat} (hjk : j ≤ k)
    (hk : k < t.level) : t.top j ≤ t.top k := by
  rw [top_of_lt (lt_length_limits (Nat.lt_of_le_of_lt hjk hk)), top_of_lt (lt_length_limits hk)]
  rcases Nat.lt_or_eq_of_le hjk with hlt | rfl
  · exact List.pairwise_iff_getElem.1 hsorted j k _ _ hlt
  · exact Nat.le_refl _

section Pop

variable {u : Trail}

theorem limits_of_pop (hlimits : u.limits = t.limits.pop) :
    u.limits.toList = t.limits.toList.take (t.level - 1) := by
  rw [hlimits, Array.toList_pop, List.dropLast_eq_take, Array.length_toList, level]

theorem level_of_pop (hlimits : u.limits = t.limits.pop) : u.level = t.level - 1 := by
  rw [level, level, hlimits, Array.size_pop]

/-- The levels that are left have the same places if the last one was cut off. -/
theorem top_of_pop (hlimits : u.limits = t.limits.pop) (hsize : u.size = t.top (t.level - 1))
    {k : Nat} (hk : k < t.level) : u.top k = t.top k := by
  have hlevel := level_of_pop hlimits
  rcases Nat.lt_or_ge k u.level with hlt | hge
  · rw [top_of_lt (lt_length_limits hlt), top_of_lt (lt_length_limits hk)]
    simp [limits_of_pop hlimits]
  · obtain rfl : k = t.level - 1 := by omega
    rw [top_of_level_le hge, hsize]

theorem limits_le_of_pop (hsorted : t.limits.toList.Pairwise (· ≤ ·)) (hpos : 0 < t.level)
    (hlimits : u.limits = t.limits.pop) (hsize : u.size = t.top (t.level - 1)) :
    ∀ b ∈ u.limits.toList, b ≤ u.size := by
  intro b hb
  obtain ⟨k, hk, rfl⟩ := List.mem_iff_getElem.1 hb
  have hk' : k < u.level := by simpa [level] using hk
  have hlevel := level_of_pop hlimits
  rw [← top_of_lt hk, top_of_pop hlimits hsize (by omega), hsize]
  exact top_mono hsorted (by omega) (by omega)

end Pop

/-- Undoing levels starts with the literals of the last one. -/
theorem dropLevels_succ (n : Nat) (removed : Array (Nat × Lit))
    (hle : ∀ b ∈ t.limits.toList, b ≤ t.size) (hpos : 0 < t.level) :
    ∃ u gone, dropLevels (n + 1) t removed = dropLevels n u gone ∧
      Cut t u (t.top (t.level - 1)) ∧ u.limits = t.limits.pop ∧ u.queueHead = t.queueHead ∧
      gone.toList = removed.toList ++
        (t.lits.toList.drop (t.top (t.level - 1))).reverse.map (t.level, ·) := by
  have hlt : t.level - 1 < t.level := by omega
  have hbottom : t.limits.getD (t.limits.size - 1) 0 = t.top (t.level - 1) := by
    rw [top_of_lt (lt_length_limits hlt)]
    simp only [level] at hlt ⊢
    simp [Array.getD_eq_getD_getElem?, hlt]
  have htop : t.top (t.level - 1) ≤ t.size := by
    rw [top_of_lt (lt_length_limits hlt)]
    exact hle _ (List.getElem_mem _)
  obtain ⟨hcut, hlimits, hqueue, hremoved⟩ := dropLits_spec t.level
    (t.size - t.top (t.level - 1)) { t with limits := t.limits.pop } removed (Nat.sub_le _ _)
  have hback : ({ t with limits := t.limits.pop } : Trail).size - (t.size - t.top (t.level - 1)) =
      t.top (t.level - 1) := by
    show t.size - _ = _
    omega
  rw [hback] at hcut hremoved
  refine ⟨_, _, ?_, hcut.of_limits, hlimits, hqueue, hremoved⟩
  rw [← hbottom]
  rfl

/-- Undoing the last `n` levels cuts the literals of these levels off, newest first. -/
theorem dropLevels_spec : ∀ (n : Nat) (t : Trail) (removed : Array (Nat × Lit)),
    t.limits.toList.Pairwise (· ≤ ·) → (∀ b ∈ t.limits.toList, b ≤ t.size) → n ≤ t.level →
      Cut t (dropLevels n t removed).1 (t.top (t.level - n)) ∧
      (dropLevels n t removed).1.limits.toList = t.limits.toList.take (t.level - n) ∧
      (dropLevels n t removed).1.queueHead = t.queueHead ∧
      (dropLevels n t removed).2.toList.map Prod.snd =
        removed.toList.map Prod.snd ++ (t.lits.toList.drop (t.top (t.level - n))).reverse
  | 0, t, removed, _, _, _ => by
    rw [Nat.sub_zero, top_of_level_le (Nat.le_refl _)]
    refine ⟨Cut.refl t t.limits t.queueHead (Nat.le_refl _), ?_, rfl, ?_⟩
    · rw [List.take_of_length_le (by simp [level])]; rfl
    · simp [dropLevels, size]
  | n + 1, t, removed, hsorted, hle, hn => by
    have hlt : t.level - 1 < t.level := by omega
    have htop : t.top (t.level - 1) ≤ t.size := by
      rw [top_of_lt (lt_length_limits hlt)]
      exact hle _ (List.getElem_mem _)
    -- the literals of the last level go first
    obtain ⟨u, gone, hstep, hcut, hlimits, hqueue, hgone⟩ :=
      dropLevels_succ n removed hle (Nat.zero_lt_of_lt hlt)
    have hremoved := congrArg (List.map Prod.snd) hgone
    rw [List.map_append, List.map_map] at hremoved
    have hsize : u.size = t.top (t.level - 1) := hcut.size htop
    have hlevel : u.level - n = t.level - (n + 1) := by
      rw [level_of_pop hlimits]
      omega
    have hsorted' : u.limits.toList.Pairwise (· ≤ ·) := by
      rw [limits_of_pop hlimits]
      exact hsorted.sublist (List.take_sublist _ _)
    -- then those of the other levels
    obtain ⟨hcut', hlimits', hqueue', hremoved'⟩ := dropLevels_spec n u gone hsorted'
      (limits_le_of_pop hsorted (Nat.zero_lt_of_lt hlt) hlimits hsize)
      (by rw [level_of_pop hlimits]; omega)
    rw [hlevel, top_of_pop hlimits hsize (by omega)] at hcut' hremoved'
    rw [hlevel] at hlimits'
    have hmono : t.top (t.level - (n + 1)) ≤ t.top (t.level - 1) := top_mono hsorted (by omega) hlt
    rw [hstep]
    refine ⟨hcut.trans hcut' hmono, ?_, by rw [hqueue', hqueue], ?_⟩
    · rw [hlimits', limits_of_pop hlimits, List.take_take, Nat.min_eq_left (by omega)]
    · rw [hremoved', hremoved, hcut.lits, Function.comp_def, List.map_id', List.append_assoc,
        ← List.reverse_append]
      congr 2
      conv_rhs => rw [← List.take_append_drop (t.top (t.level - 1)) t.lits.toList]
      rw [List.drop_append_of_le_length (by simp only [List.length_take, Array.length_toList, size] at *; omega)]

namespace Ok

theorem top_le_size (h : t.Ok) (k : Nat) : t.top k ≤ t.size := by
  by_cases hk : k < t.level
  · rw [top_of_lt (lt_length_limits hk)]; exact h.limits_le _ (List.getElem_mem _)
  · exact Nat.le_of_eq (top_of_level_le (by omega))

theorem limits_mono (h : t.Ok) {i j : Nat} (hij : i ≤ j) (hj : j < t.limits.toList.length) :
    t.limits.toList[i] ≤ t.limits.toList[j] := by
  rcases Nat.lt_or_eq_of_le hij with hlt | rfl
  · exact List.pairwise_iff_getElem.1 h.limits_sorted _ _ _ _ hlt
  · exact Nat.le_refl _

/-- No limit from the `k`-th on is at or below a place below it. -/
theorem countP_drop (h : t.Ok) {i k : Nat} (hi : i < t.top k) :
    (t.limits.toList.drop k).countP (· ≤ i) = 0 := by
  refine List.countP_eq_zero.2 fun b hb => ?_
  obtain ⟨j, hj, rfl⟩ := List.mem_iff_getElem.1 hb
  rw [List.length_drop] at hj
  rw [top_of_lt (by omega)] at hi
  have := h.limits_mono (Nat.le_add_right k j) (by omega)
  simp only [List.getElem_drop, decide_eq_true_eq]
  omega

end Ok

/-- Going back cuts the literals above the target level off. -/
theorem cut_rewindTo (h : t.Ok) (target : Nat) :
    Cut t (t.rewindTo target).1 (t.top target) ∧
    (t.rewindTo target).1.limits.toList = t.limits.toList.take target ∧
    (t.rewindTo target).1.queueHead = min t.queueHead (t.top target) ∧
    (t.rewindTo target).2.toList.map Prod.snd = (t.lits.toList.drop (t.top target)).reverse := by
  obtain ⟨hcut, hlimits, hqueue, hremoved⟩ := dropLevels_spec (t.level - target) t #[]
    h.limits_sorted h.limits_le (Nat.sub_le _ _)
  have htop : t.top (t.level - (t.level - target)) = t.top target := by
    by_cases hk : target ≤ t.level
    · congr 1; omega
    · rw [top_of_level_le (by omega), top_of_level_le (by omega)]
  have htake : t.limits.toList.take (t.level - (t.level - target)) = t.limits.toList.take target := by
    by_cases hk : target ≤ t.level
    · congr 1; omega
    · rw [List.take_of_length_le, List.take_of_length_le] <;>
        simp only [Array.length_toList, level] at * <;> omega
  rw [htop] at hcut hremoved
  rw [htake] at hlimits
  have hsize := hcut.size (h.top_le_size target)
  refine ⟨⟨hcut.lits, hcut.numVars, hcut.levels, hcut.reasons_size, hcut.valuesOf, hcut.reasonOf⟩,
    hlimits, ?_, hremoved⟩
  show min (dropLevels (t.level - target) t #[]).1.queueHead
    (dropLevels (t.level - target) t #[]).1.size = _
  rw [hqueue, hsize]

namespace Ok

/-- The places below the top of a level are those of this level and the ones under it. -/
theorem lt_top_iff (h : t.Ok) {i k : Nat} (hi : i < t.size) : i < t.top k ↔ t.levelAt i ≤ k := by
  by_cases hk : k < t.level
  · have hlen : k < t.limits.toList.length := by simpa [level] using hk
    constructor
    · intro hlt
      rw [levelAt, ← List.take_append_drop k t.limits.toList, List.countP_append, h.countP_drop hlt]
      have := @List.countP_le_length _ (fun b => decide (b ≤ i)) (t.limits.toList.take k)
      rw [List.length_take] at this
      omega
    · intro hle
      by_contra hlt
      rw [top_of_lt (lt_length_limits hk)] at hlt
      have hall : (t.limits.toList.take (k + 1)).countP (· ≤ i) = k + 1 := by
        rw [List.countP_eq_length.2, List.length_take, Nat.min_eq_left (by omega)]
        intro b hb
        rw [List.mem_take_iff_getElem] at hb
        obtain ⟨j, hj, rfl⟩ := hb
        have := h.limits_mono (show j ≤ k by omega) hlen
        simp only [decide_eq_true_eq]
        omega
      have := (List.take_sublist (k + 1) t.limits.toList).countP_le (p := (· ≤ i))
      simp only [levelAt] at hle
      omega
  · rw [top_of_level_le (by omega)]
    exact ⟨fun _ => Nat.le_trans (t.levelAt_le i) (by omega), fun _ => hi⟩

theorem size_rewindTo (h : t.Ok) (target : Nat) : (t.rewindTo target).1.size = t.top target :=
  (cut_rewindTo h target).1.size (h.top_le_size target)

theorem lt_size_rewindTo (h : t.Ok) {target i : Nat} :
    i < (t.rewindTo target).1.size ↔ i < t.size ∧ t.levelOf (t.litAt i) ≤ target := by
  rw [h.size_rewindTo]
  have := h.top_le_size target
  constructor
  · intro hi
    have hi' : i < t.size := by omega
    exact ⟨hi', by rw [h.levelOf_litAt i hi']; exact (h.lt_top_iff hi').1 hi⟩
  · rintro ⟨hi, hl⟩
    rw [h.levelOf_litAt i hi] at hl
    exact (h.lt_top_iff hi).2 hl

theorem litAt_rewindTo (h : t.Ok) {target i : Nat} (hi : i < (t.rewindTo target).1.size) :
    (t.rewindTo target).1.litAt i = t.litAt i := by
  have hcut := (cut_rewindTo h target).1
  have hi' := (h.lt_size_rewindTo.1 hi).1
  rw [litAt_eq (lt_length_lits hi), litAt_eq (lt_length_lits hi')]
  simp only [hcut.lits, List.getElem_take]

/-- The literals that stay true are those of the levels that stay. -/
theorem mem_rewindTo (h : t.Ok) {target : Nat} :
    l ∈ (t.rewindTo target).1.lits ↔ l ∈ t.lits ∧ t.levelOf l ≤ target := by
  constructor
  · intro hl
    obtain ⟨i, hi, rfl⟩ := exists_litAt hl
    obtain ⟨hi', hlevel⟩ := h.lt_size_rewindTo.1 hi
    rw [h.litAt_rewindTo hi]
    exact ⟨litAt_mem hi', hlevel⟩
  · rintro ⟨hl, hlevel⟩
    obtain ⟨i, hi, rfl⟩ := exists_litAt hl
    have hi' := h.lt_size_rewindTo.2 ⟨hi, hlevel⟩
    rw [← h.litAt_rewindTo hi']
    exact litAt_mem hi'

theorem mem_varsFrom_top (h : t.Ok) {target v : Nat} :
    v ∈ t.varsFrom (t.top target) ↔ ∃ l ∈ t.lits, l.var = v ∧ target < t.levelOf l := by
  simp only [varsFrom, List.mem_map]
  constructor
  · rintro ⟨l, hl, rfl⟩
    obtain ⟨j, hj, rfl⟩ := List.mem_iff_getElem.1 hl
    rw [List.length_drop, Array.length_toList] at hj
    have hi : t.top target + j < t.size := by simp only [size]; omega
    have he : (t.lits.toList.drop (t.top target))[j] = t.litAt (t.top target + j) := by
      rw [litAt_eq (lt_length_lits hi), List.getElem_drop]
    rw [he]
    refine ⟨_, litAt_mem hi, rfl, ?_⟩
    rw [h.levelOf_litAt _ hi]
    by_contra hle
    have := (h.lt_top_iff hi (k := target)).2 (by omega)
    omega
  · rintro ⟨l, hl, rfl, hlevel⟩
    obtain ⟨i, hi, rfl⟩ := exists_litAt hl
    rw [h.levelOf_litAt i hi] at hlevel
    have hge : t.top target ≤ i := by
      by_contra hlt
      have := (h.lt_top_iff hi (k := target)).1 (by omega)
      omega
    refine ⟨_, ?_, rfl⟩
    rw [litAt_eq (lt_length_lits hi), List.mem_iff_getElem]
    refine ⟨i - t.top target, by simp only [List.length_drop, Array.length_toList, size] at *; omega, ?_⟩
    rw [List.getElem_drop]
    congr 1; omega

theorem levelOf_rewindTo (h : t.Ok) (target : Nat) (l : Lit) :
    (t.rewindTo target).1.levelOf l = t.levelOf l := by
  simp only [levelOf, (cut_rewindTo h target).1.levels]

theorem numVars_rewindTo (h : t.Ok) (target : Nat) :
    (t.rewindTo target).1.numVars = t.numVars := (cut_rewindTo h target).1.numVars

theorem level_rewindTo (h : t.Ok) {target : Nat} (ht : target ≤ t.level) :
    (t.rewindTo target).1.level = target := by
  have := congrArg List.length (cut_rewindTo h target).2.1
  simp only [Array.length_toList, List.length_take, level] at *
  omega

theorem queueHead_rewindTo (h : t.Ok) (target : Nat) :
    (t.rewindTo target).1.queueHead = min t.queueHead (t.rewindTo target).1.size := by
  rw [h.size_rewindTo]; exact (cut_rewindTo h target).2.2.1

theorem reasonOf_rewindTo (h : t.Ok) {target : Nat} (hl : l ∈ (t.rewindTo target).1.lits) :
    (t.rewindTo target).1.reasonOf l = t.reasonOf l := by
  rw [(cut_rewindTo h target).1.reasonOf, if_neg]
  intro hv
  obtain ⟨m, hm, hv, hlevel⟩ := h.mem_varsFrom_top.1 hv
  obtain ⟨hl, hle⟩ := h.mem_rewindTo.1 hl
  have : t.levelOf m = t.levelOf l := by simp only [levelOf, hv]
  omega

theorem isTrue_rewindTo (h : t.Ok) {target : Nat} :
    (t.rewindTo target).1.isTrue l = true ↔ l ∈ t.lits ∧ t.levelOf l ≤ target := by
  have hval := (cut_rewindTo h target).1.value l
  by_cases hv : l.var ∈ t.varsFrom (t.top target)
  · have hunset : (t.rewindTo target).1.isTrue l = false := by
      rw [isTrue, hval, if_pos hv]; rfl
    obtain ⟨m, hm, hvar, hlevel⟩ := h.mem_varsFrom_top.1 hv
    have : t.levelOf m = t.levelOf l := by simp only [levelOf, hvar]
    simp only [hunset, Bool.false_eq_true, false_iff, not_and]
    omega
  · have hsame : (t.rewindTo target).1.isTrue l = t.isTrue l := by
      rw [isTrue, hval, if_neg hv]; rfl
    rw [hsame, h.isTrue_iff]
    refine ⟨fun hl => ⟨hl, ?_⟩, fun hl => hl.1⟩
    by_contra hlevel
    exact hv (h.mem_varsFrom_top.2 ⟨l, hl, rfl, by omega⟩)

theorem rewindTo (h : t.Ok) (target : Nat) : (t.rewindTo target).1.Ok := by
  obtain ⟨hcut, hlimits, hqueue, -⟩ := cut_rewindTo h target
  refine ⟨?_, ?_, ?_, ?_, ?_, ?_, ?_, ?_, ?_, ?_⟩
  · rw [hcut.levels, hcut.numVars, h.levels_size]
  · rw [hcut.reasons_size, hcut.numVars, h.reasons_size]
  · rw [hcut.lits]
    exact h.nodup.sublist ((List.take_sublist _ _).map _)
  · intro l hl
    rw [hcut.numVars]
    exact h.var_lt l (h.mem_rewindTo.1 hl).1
  · intro l
    rw [h.isTrue_rewindTo, h.mem_rewindTo]
  · intro l
    rw [hcut.value, hcut.value, Lit.var_negate, h.value_negate]
    split <;> rfl
  · rw [hlimits]; exact h.limits_sorted.sublist (List.take_sublist _ _)
  · intro b hb
    rw [hlimits, List.mem_take_iff_getElem] at hb
    obtain ⟨j, hj, rfl⟩ := hb
    rw [h.size_rewindTo]
    by_cases hk : target < t.level
    · rw [top_of_lt (lt_length_limits hk)]
      exact List.pairwise_iff_getElem.1 h.limits_sorted _ _ _ _ (by omega)
    · rw [top_of_level_le (by omega)]
      exact h.limits_le _ (List.getElem_mem _)
  · intro i hi
    obtain ⟨hi', hlevel⟩ := h.lt_size_rewindTo.1 hi
    rw [h.litAt_rewindTo hi, h.levelOf_rewindTo, h.levelOf_litAt i hi']
    rw [levelAt, levelAt, hlimits]
    rw [h.size_rewindTo] at hi
    conv_lhs => rw [← List.take_append_drop target t.limits.toList]
    rw [List.countP_append, h.countP_drop hi, Nat.add_zero]
  · rw [hqueue, h.size_rewindTo]; exact Nat.min_le_right _ _

end Ok

end Trail

end ConfigSampler
