import ConfigSampler.Proofs.UnitPropagation

/-!
# What clauses and trail entail

An assignment is a model of a propagator if it satisfies the stored clauses and makes the ground
literals true (`Propagator.Models`).  A model that makes the decisions true makes the whole trail
true; propagation neither loses nor adds models; a conflict at ground level rules out all of them;
and a settled trail that gives every variable a value is a model itself.
-/

set_option autoImplicit false

namespace ConfigSampler

namespace Trail

/-- The assignment that makes the true literals true, and variables without a value false. -/
def assignment (t : Trail) : Assignment := fun v => t.isTrue (Lit.ofVar (v - 1) false)

theorem Ok.holds_assignment {t : Trail} {l : Lit} (ht : t.Ok) (h : t.isFree l.var = false) :
    l.Holds t.assignment ↔ t.isTrue l = true := by
  simp only [Lit.Holds, assignment, Nat.add_sub_cancel]
  simp only [isFree] at h
  cases hn : l.negated <;>
    simp only [isTrue, ht.value_eq, Lit.var_ofVar, Lit.negated_ofVar, hn] <;>
    cases hv : (t.valuesOf l.var).positive <;> simp_all [Value.flip]

/-- The level of a place that was filled after the last level was opened. -/
theorem levelAt_of_limits {t u : Trail} (ht : t.Ok) (hlimits : u.limits = t.limits) {i : Nat}
    (hi : t.size ≤ i) : u.levelAt i = t.level := by
  rw [levelAt, level, hlimits, List.countP_eq_length.2, Array.length_toList]
  intro b hb
  have := ht.limits_le b hb
  simp only [decide_eq_true_eq]
  omega

end Trail

namespace Propagator

variable {p q : Propagator} {lists : Lit → List Watcher} {α : Assignment} {r : ClauseRef} {l : Lit}

/-- The assignment satisfies all stored clauses and makes the ground literals true. -/
structure Models (p : Propagator) (α : Assignment) : Prop where
  clause : ∀ r, p.arena.IsLive r → ∃ l ∈ (p.arena.view r).lits, l.Holds α
  ground : ∀ l ∈ p.trail.lits, p.trail.levelOf l = 0 → l.Holds α

/-- The assignment satisfies the problem clauses and makes the ground literals true. -/
structure ModelsProblem (p : Propagator) (α : Assignment) : Prop where
  clause : ∀ r, p.arena.IsLive r → (p.arena.view r).learnt = false →
    ∃ l ∈ (p.arena.view r).lits, l.Holds α
  ground : ∀ l ∈ p.trail.lits, p.trail.levelOf l = 0 → l.Holds α

theorem Models.problem (h : p.Models α) : p.ModelsProblem α :=
  ⟨fun r hr _ => h.clause r hr, h.ground⟩

/-- A literal follows from the clause that forces it and the literals before it. -/
theorem Forces.holds {i : Nat} (h : p.Forces r i) (hα : p.Models α)
    (hbefore : ∀ j < i, (p.trail.litAt j).Holds α) : (p.trail.litAt i).Holds α := by
  obtain ⟨l, hl, hholds⟩ := hα.clause r h.live
  by_cases he : l = p.trail.litAt i
  · rwa [← he]
  · obtain ⟨j, hj, hneg⟩ := h.others l hl he
    have := hbefore j hj
    rw [hneg, Lit.holds_negate] at this
    exact absurd hholds this

/-- **A model that makes the decisions true makes every literal of the trail true.** -/
theorem Ok.holds_of_decisions (h : Ok lists p) (hα : p.Models α)
    (hdecisions : ∀ i < p.trail.size, 0 < p.trail.levelOf (p.trail.litAt i) →
      p.trail.reasonOf (p.trail.litAt i) = none → (p.trail.litAt i).Holds α) :
    ∀ i < p.trail.size, (p.trail.litAt i).Holds α := by
  intro i
  induction i using Nat.strongRecOn with
  | ind i ih =>
    intro hi
    rcases Nat.eq_zero_or_pos (p.trail.levelOf (p.trail.litAt i)) with h0 | hpos
    · exact hα.ground _ (Trail.litAt_mem hi) h0
    · rcases h.reason i hi hpos with ⟨hnone, -⟩ | ⟨r, -, hf⟩
      · exact hdecisions i hi hpos hnone
      · exact hf.holds hα fun j hj => ih j hj (Nat.lt_trans hj hi)

/-- Literals that propagation adds at ground level hold in every model. -/
theorem Grows.models (hp : p.trail.Ok) (hq : q.trail.Ok) (hg : Grows p q) (hα : p.Models α) :
    q.Models α := by
  have hclause : ∀ r, q.arena.IsLive r → ∃ l ∈ (q.arena.view r).lits, l.Holds α := by
    intro r hr
    obtain ⟨l, hl, hholds⟩ := hα.clause r (hg.arena.isLive_iff.1 hr)
    exact ⟨l, (hg.arena.clause r).mem_iff.2 hl, hholds⟩
  have hlevel : ∀ i, p.trail.size ≤ i → i < q.trail.size →
      q.trail.levelOf (q.trail.litAt i) = p.trail.level := by
    intro i hi hi'
    rw [hq.levelOf_litAt i hi', Trail.levelAt_of_limits hp hg.trail.limits hi]
  have hground : ∀ i < q.trail.size, q.trail.levelOf (q.trail.litAt i) = 0 →
      (q.trail.litAt i).Holds α := by
    intro i
    induction i using Nat.strongRecOn with
    | ind i ih =>
      intro hi h0
      rcases Nat.lt_or_ge i p.trail.size with hlt | hge
      · have hmem := Trail.litAt_mem hlt
        rw [hg.trail.litAt i hlt] at h0 ⊢
        rw [hg.trail.levelOf _ hmem] at h0
        exact hα.ground _ hmem h0
      · obtain ⟨r, -, hf⟩ := hg.forced i hge hi
        obtain ⟨l, hl, hholds⟩ := hclause r hf.live
        by_cases he : l = q.trail.litAt i
        · rwa [← he]
        · obtain ⟨j, hj, hneg⟩ := hf.others l hl he
          have hj0 : q.trail.levelOf (q.trail.litAt j) = 0 := by
            have hmono := q.trail.levelAt_mono (Nat.le_of_lt hj)
            rw [hq.levelOf_litAt i hi] at h0
            rw [hq.levelOf_litAt j (Nat.lt_trans hj hi)]
            omega
          have := ih j hj (Nat.lt_trans hj hi) hj0
          rw [hneg, Lit.holds_negate] at this
          exact absurd hholds this
  refine ⟨hclause, fun l hl h0 => ?_⟩
  obtain ⟨i, hi, rfl⟩ := Trail.exists_litAt hl
  exact hground i hi h0

theorem Grows.modelsProblem (hg : Grows p q) (hα : q.ModelsProblem α) : p.ModelsProblem α where
  clause r hr hl := by
    obtain ⟨l, hl, hholds⟩ := hα.clause r (hg.arena.isLive_iff.2 hr)
      ((hg.arena.clause r).learnt.trans hl)
    exact ⟨l, (hg.arena.clause r).mem_iff.1 hl, hholds⟩
  ground l hl h0 := hα.ground l (hg.trail.mem hl) ((hg.trail.levelOf l hl).trans h0)

/-- A conflict at ground level is a contradiction. -/
theorem IsConflict.not_models (h : p.IsConflict r) (hp : p.trail.Ok) (hground : p.trail.level = 0) :
    ¬ p.Models α := by
  intro hα
  obtain ⟨l, hl, hholds⟩ := hα.clause r h.live
  have hmem := (hp.isFalse_iff l).1 (h.isFalse l hl)
  have hlevel := hp.levelOf_le hmem
  have := hα.ground _ hmem (by omega)
  rw [Lit.holds_negate] at this
  exact this hholds

/-- **A settled trail that gives every variable a value is a model.** -/
theorem InOrder.models (h : p.InOrder) (hs : p.IsSettled)
    (hqueue : p.trail.queueHead = p.trail.size)
    (hall : ∀ v < p.trail.numVars, p.trail.isFree v = false) : p.Models p.trail.assignment := by
  have hok := h.ok.trail
  refine ⟨fun r hr => ?_, fun l hl _ => ?_⟩
  · have hc := h.ok.clause r hr
    have hbound := hall _ (hc.var_lt _ hc.head_mem)
    have htrue : ∃ l ∈ (p.arena.view r).lits, p.trail.isTrue l = true := by
      by_cases hhead : p.trail.isTrue (p.arena.view r).head = true
      · exact ⟨_, hc.head_mem, hhead⟩
      · have hfalse : p.trail.isFalse (p.arena.view r).head = true := by
          by_contra hf
          have := (hok.isFree_iff (p.arena.view r).head).2 ⟨by simpa using hhead, by simpa using hf⟩
          rw [hbound] at this
          cases this
        obtain ⟨i, hi, he⟩ := Trail.exists_litAt ((hok.isFalse_iff _).1 hfalse)
        obtain ⟨b, hb, hbtrue, -⟩ :=
          (hs r hr _ (.inl rfl) ⟨i, by rw [hqueue]; exact hi, he⟩).resolve_left id
        exact ⟨b, hb, hbtrue⟩
    obtain ⟨l, hl, hltrue⟩ := htrue
    exact ⟨l, hl, (hok.holds_assignment (hall _ (hc.var_lt l hl))).2 hltrue⟩
  · exact (hok.holds_assignment (hall _ (hok.var_lt l hl))).2 ((hok.isTrue_iff l).2 hl)

end Propagator

end ConfigSampler
