import ConfigSampler.Proofs.ReachableStates

/-!
# What propagation comes to

`Propagator.Propagated` describes a round of propagation by its outcome: the queue is empty; without a
conflict no clause is false or unit, and a conflict is a false clause; every literal that was added
follows from its reason and literals before it; and every clause is watched through its first two
literals, once each.

`Search.propagate_outcome` is the main statement: **propagation comes to this in every reachable
state**.
-/

set_option autoImplicit false

namespace ConfigSampler

namespace Trail

variable {t : Trail} {lits : Array Lit}

/-- All literals are false. -/
def Falsifies (t : Trail) (lits : Array Lit) : Prop := ∀ l ∈ lits, t.isFalse l = true

/-- One literal has no value, and all others are false. -/
def LeavesOne (t : Trail) (lits : Array Lit) : Prop :=
  ∃ u ∈ lits, t.isFree u.var = true ∧ ∀ l ∈ lits, l ≠ u → t.isFalse l = true

end Trail

namespace Propagator

variable {p q : Propagator} {r : ClauseRef} {l : Lit} {conflict : Option ClauseRef}

/-- How often the list of a literal names a clause. -/
def watchCount (p : Propagator) (l : Lit) (r : ClauseRef) : Nat :=
  ((p.watches.listOf l).watchers.toList.map Watcher.clause).count r

/-- The outcome of a round of propagation. -/
structure Propagated (p : Propagator) (conflict : Option ClauseRef) (q : Propagator) : Prop where
  queueHead : q.trail.queueHead = q.trail.size
  extends_ : p.trail.Extends q.trail
  stable : conflict = none → ∀ r, q.arena.IsLive r →
    ¬ q.trail.Falsifies (q.arena.view r).lits ∧ ¬ q.trail.LeavesOne (q.arena.view r).lits
  found : ∀ r, conflict = some r →
    q.arena.IsLive r ∧ q.trail.Falsifies (q.arena.view r).lits
  appended : ∀ i, p.trail.size ≤ i → i < q.trail.size →
    ∃ r, q.trail.reasonOf (q.trail.litAt i) = some r ∧ q.arena.IsLive r ∧
      (q.arena.view r).head = q.trail.litAt i ∧
      ∀ l ∈ (q.arena.view r).lits, l ≠ q.trail.litAt i →
        q.trail.isFalse l = true ∧ ∃ j < i, q.trail.litAt j = l.negate
  watched : ∀ r, q.arena.IsLive r → (q.arena.view r).head ≠ (q.arena.view r).second ∧
    ∀ l, q.watchCount l r =
      if l = (q.arena.view r).head.negate ∨ l = (q.arena.view r).second.negate then 1 else 0

/-- A live clause is named as often among all watchers as among those of live clauses. -/
theorem watchCount_eq (hr : p.arena.IsLive r) (l : Lit) :
    p.watchCount l r = ((p.watchersOf l).map Watcher.clause).count r := by
  rw [watchCount, watchersOf, List.count_eq_countP, List.count_eq_countP, List.countP_map,
    List.countP_map, List.countP_filter]
  refine List.countP_congr fun x _ => ?_
  simp only [Function.comp_apply, beq_iff_eq, Bool.and_eq_true, Bool.not_eq_true',
    iff_self_and]
  rintro rfl
  exact Arena.isDeleted_eq_false.2 hr

/-- Live clauses are watched through their first two literals, once each. -/
theorem InOrder.watchCount (h : p.InOrder) (hr : p.arena.IsLive r) (l : Lit) :
    p.watchCount l r =
      if l = (p.arena.view r).head.negate ∨ l = (p.arena.view r).second.negate then 1 else 0 := by
  have hmem : r ∈ (p.watchersOf l).map Watcher.clause ↔
      l = (p.arena.view r).head.negate ∨ l = (p.arena.view r).second.negate := by
    rw [List.mem_map, h.ok.watched.mem_iff r hr l, Clause.IsWatched, Lit.negate_eq_comm,
      Lit.negate_eq_comm]
  rw [watchCount_eq hr, (h.ok.watched.nodup l).count]
  exact if_congr hmem rfl rfl

/-- **Where everything was propagated no clause is false or unit**: one of its watched literals
    would be false without a guard. -/
theorem Idle.not_false_or_unit (h : p.Idle) (hr : p.arena.IsLive r) :
    ¬ p.trail.Falsifies (p.arena.view r).lits ∧ ¬ p.trail.LeavesOne (p.arena.view r).lits := by
  have hc := h.inOrder.ok.clause r hr
  have hguard : ∀ w, (p.arena.view r).IsWatched w → p.trail.isFalse w = true →
      ∃ b ∈ (p.arena.view r).lits, p.trail.isTrue b = true := fun w hw hfalse => by
    obtain ⟨b, hb, htrue, -⟩ := h.guarded hr hw hfalse
    exact ⟨b, hb, htrue⟩
  have hnot : ∀ b, p.trail.isTrue b = true → p.trail.isFalse b = true → False := fun b htrue hfalse => by
    rw [Trail.isTrue_not_isFalse htrue] at hfalse
    cases hfalse
  constructor
  · intro hall
    obtain ⟨b, hb, htrue⟩ := hguard _ (.inl rfl) (hall _ hc.head_mem)
    exact hnot b htrue (hall b hb)
  · rintro ⟨u, -, hfree, hothers⟩
    -- one of the two watched literals is not the one without a value
    obtain ⟨w, hw, hwu⟩ : ∃ w, (p.arena.view r).IsWatched w ∧ w ≠ u := by
      by_cases hhead : (p.arena.view r).head = u
      · exact ⟨_, .inr rfl, fun he => hc.head_ne_second (hhead.trans he.symm)⟩
      · exact ⟨_, .inl rfl, hhead⟩
    obtain ⟨b, hb, htrue⟩ := hguard w hw (hothers w (hc.mem_of_isWatched hw) hwu)
    by_cases hbu : b = u
    · rw [hbu, ((h.inOrder.ok.trail.isFree_iff u).1 hfree).1] at htrue
      cases htrue
    · exact hnot b htrue (hothers b hb hbu)

theorem InOrder.propagated (h : p.InOrder) (hs : p.IsSettled)
    (hq : p.propagate = (conflict, q)) : p.Propagated conflict q := by
  obtain ⟨hin, hg, hqueue, hnone, hsome⟩ := propagate_spec h hs hq
  refine ⟨hqueue, hg.trail, fun hc r hr => ?_, fun r hc => ⟨(hsome r hc).live, (hsome r hc).isFalse⟩,
    fun i hi hi' => ?_, fun r hr => ⟨(hin.ok.clause r hr).head_ne_second, hin.watchCount hr⟩⟩
  · exact Idle.not_false_or_unit ⟨hin, hnone hc, hqueue⟩ hr
  · obtain ⟨r, hreason, hf⟩ := hg.forced i hi hi'
    refine ⟨r, hreason, hf.live, hf.head, fun l hl hne => ?_⟩
    obtain ⟨j, hj, he⟩ := hf.others l hl hne
    refine ⟨?_, j, hj, he⟩
    rw [hin.ok.trail.isFalse_iff, ← he]
    exact Trail.litAt_mem (Nat.lt_trans hj hi')

end Propagator

namespace Search

variable {s : Search} {n : Nat}

/-- **Propagation in any reachable state** empties the queue and ends without a false or a unit
    clause, or with a false clause; what it adds to the trail is forced by live clauses; and every
    live clause is watched through its first two literals, once each. -/
theorem propagate_outcome (h : Reachable n .ready s) :
    s.propagator.Propagated s.propagator.propagate.1 s.propagator.propagate.2 :=
  h.ok.inOrder.propagated h.poised.settled rfl

theorem propagate_outcome_cornered :
    Reachable 3 .ready cornered ∧ cornered.propagator.propagate.1 = some ⟨1⟩ ∧
      cornered.propagator.Propagated cornered.propagator.propagate.1
        cornered.propagator.propagate.2 :=
  ⟨reachable_cornered, by decide +kernel, propagate_outcome reachable_cornered⟩

end Search

end ConfigSampler
