import ConfigSampler.Proofs.ReachableStates

/-!
# Housekeeping keeps the meaning of the clauses

`Propagator.KeepsMeaning` says what may be relied on after housekeeping: the problem clauses have the
same models, every clause that is left holds in all of them, and the literals above ground level keep
their reasons, which may have new names.  `ClauseLists.Spares` adds what deleting learnt clauses leaves
exactly as it is: problem clauses, clauses of two literals, and clauses that are reasons.

`Search.housekeeping_keeps_meaning` is the main statement: **deleting learnt clauses, on any level, and
simplifying at ground level keep the meaning of the clauses in every reachable state**.
-/

set_option autoImplicit false

namespace ConfigSampler

namespace Propagator

variable {p q : Propagator} {r : ClauseRef} {l : Lit}

/-- The trail holds the same literals on the same levels, the clauses mean the same, and whatever had
    a reason above ground level has one. -/
structure KeepsMeaning (p q : Propagator) : Prop where
  trail : q.trail = { p.trail with reasons := q.trail.reasons }
  models : ∀ α, q.ModelsProblem α ↔ p.ModelsProblem α
  implied : ∀ r, q.arena.IsLive r → ∀ α, p.ModelsProblem α →
    ∃ l ∈ (q.arena.view r).lits, l.Holds α
  two_le : ∀ r, q.arena.IsLive r → 2 ≤ (q.arena.view r).lits.size
  reason : ∀ l ∈ p.trail.lits, 0 < p.trail.levelOf l → ∀ r, p.trail.reasonOf l = some r →
    ∃ r', q.trail.reasonOf l = some r' ∧ q.arena.IsLive r' ∧ (q.arena.view r').head = l

/-- Where the problem clauses entail the learnt ones, tidying keeps the meaning. -/
theorem Tidied.keepsMeaning (h : Tidied p q) (hlearnt : ∀ α, p.ModelsProblem α → p.Models α) :
    KeepsMeaning p q where
  trail := h.trail
  models α := ⟨h.modelsProblem α, fun hα => (h.models α (hlearnt α hα)).problem⟩
  implied r hr α hα := (h.models α (hlearnt α hα)).clause r hr
  two_le r hr := (h.inOrder.ok.clause r hr).two_le
  reason l hl hpos r hr := by
    obtain ⟨i, hi, rfl⟩ := Trail.exists_litAt hl
    have hlit : q.trail.litAt i = p.trail.litAt i := by rw [h.trail]; rfl
    have hsize : q.trail.size = p.trail.size := by rw [h.trail]; rfl
    have hlevel : q.trail.levelOf (p.trail.litAt i) = p.trail.levelOf (p.trail.litAt i) := by
      rw [h.trail]; rfl
    have hjust := h.inOrder.ok.reason i (by omega) (by rw [hlit, hlevel]; exact hpos)
    rw [Justified, hlit] at hjust
    rcases hjust with ⟨hnone, -⟩ | ⟨r', hr', hf⟩
    · -- a reason does not turn into a decision
      rw [h.decisions i hi hpos hnone] at hr
      cases hr
    · exact ⟨r', hr', hf.live, hf.head.trans hlit⟩

/-- Once everything was propagated, a clause without a true literal has no value in its watched
    places. -/
theorem Idle.isFree_watched (h : p.Idle) (hr : p.arena.IsLive r)
    (hopen : ClauseLists.isSatisfied p.trail (p.arena.view r) = false)
    (hw : (p.arena.view r).IsWatched l) : p.trail.isFree l.var = true := by
  have hnone : ∀ b ∈ (p.arena.view r).lits, p.trail.isTrue b = false := fun b hb => by
    by_contra htrue
    have hsat : ClauseLists.isSatisfied p.trail (p.arena.view r) = true :=
      Array.any_eq_true'.2 ⟨b, hb, by simpa using htrue⟩
    rw [hopen] at hsat
    cases hsat
  have hmem := (h.inOrder.ok.clause r hr).mem_of_isWatched hw
  refine (h.inOrder.ok.trail.isFree_iff l).2 ⟨hnone l hmem, ?_⟩
  by_contra hfalse
  obtain ⟨b, hb, htrue, -⟩ := h.guarded hr hw (by simpa using hfalse)
  rw [hnone b hb] at htrue
  cases htrue

end Propagator

namespace ClauseLists

open Propagator

variable {p q q' : Propagator} {d d' d'' : ClauseLists} {r : ClauseRef}

/-- What deleting learnt clauses of little use leaves exactly as it is. -/
structure Spares (d : ClauseLists) (p : Propagator) (d' : ClauseLists) (q : Propagator) : Prop where
  trail : q.trail = p.trail
  problem : ∀ r, (p.arena.view r).learnt = false → q.arena.view r = p.arena.view r
  short : ∀ r, (p.arena.view r).lits.size ≤ 2 → q.arena.view r = p.arena.view r
  locked : ∀ r, p.trail.isReasonFor r (p.arena.view r).head = true →
    q.arena.view r = p.arena.view r
  live : ∀ r, q.arena.IsLive r → p.arena.IsLive r
  watchers : ∀ l, (q.watches.listOf l).watchers = (p.watches.listOf l).watchers
  clauses : d'.clauses = d.clauses
  numClauses : d'.numClauses = d.numClauses
  clauseLiterals : d'.clauseLiterals = d.clauseLiterals

theorem Spares.refl (d : ClauseLists) (p : Propagator) : Spares d p d p :=
  ⟨rfl, fun _ _ => rfl, fun _ _ => rfl, fun _ _ => rfl, fun _ h => h, fun _ => rfl, rfl, rfl, rfl⟩

theorem Spares.trans (h : Spares d p d' q) (h' : Spares d' q d'' q') : Spares d p d'' q' where
  trail := h'.trail.trans h.trail
  problem r hr := by
    have he := h.problem r hr
    exact (h'.problem r (by rw [he]; exact hr)).trans he
  short r hr := by
    have he := h.short r hr
    exact (h'.short r (by rw [he]; exact hr)).trans he
  locked r hr := by
    have he := h.locked r hr
    exact (h'.locked r (by rw [he, h.trail]; exact hr)).trans he
  live r hr := h.live r (h'.live r hr)
  watchers l := (h'.watchers l).trans (h.watchers l)
  clauses := h'.clauses.trans h.clauses
  numClauses := h'.numClauses.trans h.numClauses
  clauseLiterals := h'.clauseLiterals.trans h.clauseLiterals

/-- One dispensable learnt clause is deleted. -/
theorem spares_delete {firstHalf : Bool} {least : Float} (d : ClauseLists)
    (hl : (p.arena.view r).learnt = true) (hd : isDispensable p r firstHalf least = true) :
    Spares d p (d.delete p r).1 (d.delete p r).2 := by
  simp only [isDispensable, Bool.and_eq_true, Bool.not_eq_true', decide_eq_true_eq] at hd
  obtain ⟨⟨⟨-, hlong⟩, hreason⟩, -⟩ := hd
  have hview : ∀ s, s ≠ r → (d.delete p r).2.arena.view s = p.arena.view s := fun s hs =>
    Arena.view_edit_of_ne _ hs
  have hlists : (d.delete p r).1 = d.discount true (p.arena.view r).size :=
    congrArg (d.discount · (p.arena.view r).size) hl
  refine ⟨rfl, fun s hs => hview s ?_, fun s hs => hview s ?_, fun s hs => hview s ?_,
    fun s hs => (Arena.isLive_free.1 hs).2, fun l => WatchTable.watchers_detach _ _ _ l,
    by rw [hlists]; rfl, by rw [hlists]; rfl, by rw [hlists]; rfl⟩
  · rintro rfl
    rw [hl] at hs
    cases hs
  · rintro rfl
    exact absurd hlong (Nat.not_lt.2 hs)
  · rintro rfl
    rw [hreason] at hs
    cases hs

/-- The loop deletes dispensable clauses only, and keeps listing those it does not delete. -/
theorem reduceLoop_spares (least : Float) : ∀ (order : List ClauseRef) (half : Nat)
    (kept : Array ClauseRef) (d : ClauseLists) (p : Propagator),
    (∀ r ∈ order, p.arena.IsLearnt r) →
    ∀ {kept' : Array ClauseRef} {d' : ClauseLists} {q : Propagator},
      reduceLoop least order half kept d p = (kept', d', q) →
      Spares d p d' q ∧ (∀ r ∈ kept, r ∈ kept') ∧ ∀ r ∈ order, q.arena.IsLive r → r ∈ kept'
  | [], half, kept, d, p, _, kept', d', q, he => by
    cases he
    exact ⟨.refl d p, fun _ h => h, fun _ h => nomatch h⟩
  | r :: rest, half, kept, d, p, hlearnt, kept', d', q, he => by
    unfold reduceLoop at he
    obtain ⟨hr, hrest⟩ := List.forall_mem_cons.1 hlearnt
    split at he
    · rename_i hd
      have hone := spares_delete d hr.2 hd
      obtain ⟨hmore, hkept, hlisted⟩ := reduceLoop_spares least rest (half - 1) kept _ _
        (fun s hs => (hrest s hs).of_same (sameLearnt_delete d p r)) he
      refine ⟨hone.trans hmore, hkept, List.forall_mem_cons.2 ⟨fun hlive => ?_, hlisted⟩⟩
      exact absurd rfl (Arena.isLive_free.1 (hmore.live r hlive)).1
    · split at he
      · rename_i hdead
        obtain ⟨hmore, hkept, hlisted⟩ := reduceLoop_spares least rest (half - 1) kept d p hrest he
        refine ⟨hmore, hkept, List.forall_mem_cons.2 ⟨fun hlive => ?_, hlisted⟩⟩
        rw [Arena.isDeleted_eq_false.2 (hmore.live r hlive)] at hdead
        cases hdead
      · obtain ⟨hmore, hkept, hlisted⟩ :=
          reduceLoop_spares least rest (half - 1) (kept.push r) d p hrest he
        exact ⟨hmore, fun s hs => hkept s (Array.mem_push.2 (.inl hs)),
          List.forall_mem_cons.2 ⟨fun _ => hkept r (Array.mem_push.2 (.inr rfl)), hlisted⟩⟩

/-- Deleting learnt clauses of little use spares the others, which stay listed. -/
theorem reduce_spares (hd : d.ListsLearnt p.arena) :
    Spares d p (d.reduce p).1 (d.reduce p).2 ∧
      ∀ r ∈ d.learnts, (d.reduce p).2.arena.IsLive r → r ∈ (d.reduce p).1.learnts := by
  unfold reduce
  simp only
  generalize hout : reduceLoop _ _ _ _ _ _ = out
  obtain ⟨kept, d', q⟩ := out
  have hperm := List.mergeSort_perm d.learnts.toList (deletedBefore p.arena)
  obtain ⟨hspares, -, hlisted⟩ := reduceLoop_spares _ _ _ _ _ _
    (fun r hr => hd r (by simpa using hperm.mem_iff.1 hr)) hout
  exact ⟨⟨hspares.trail, hspares.problem, hspares.short, hspares.locked, hspares.live,
    hspares.watchers, hspares.clauses, hspares.numClauses, hspares.clauseLiterals⟩,
    fun r hr => hlisted r (hperm.mem_iff.2 (by simpa using hr))⟩

end ClauseLists

namespace Search

variable {s : Search} {n : Nat} {stage : Stage}

theorem Ok.keepsMeaning {q : Propagator} {F : Assignment → Prop} (h : s.Ok n F)
    (ht : Propagator.Tidied s.propagator q) : s.propagator.KeepsMeaning q :=
  ht.keepsMeaning fun _ => h.models_iff.1

/-- **Housekeeping keeps the meaning of the clauses.**  Deleting learnt clauses does so on any level,
    with and without compaction, and it spares problem clauses, clauses of two literals and reasons;
    simplifying does so at ground level, whether it may delete problem clauses or not, and once
    everything was propagated the clauses that it does not delete have no value in their watched
    places. -/
theorem housekeeping_keeps_meaning (h : Reachable n stage s) :
    (s.propagator.KeepsMeaning (s.lists.reduce s.propagator).2 ∧
      s.lists.Spares s.propagator (s.lists.reduce s.propagator).1
        (s.lists.reduce s.propagator).2 ∧
      (∀ r ∈ s.lists.learnts, (s.lists.reduce s.propagator).2.arena.IsLive r →
        r ∈ (s.lists.reduce s.propagator).1.learnts) ∧
      s.propagator.KeepsMeaning s.reduceLearnts.propagator) ∧
    (s.propagator.trail.level = 0 → ∀ settings : ClauseSettings,
      s.propagator.KeepsMeaning
        (({ s.lists with settings := settings } : ClauseLists).removeSatisfied s.propagator).2) ∧
    s.propagator.KeepsMeaning s.simplify.propagator ∧
    (stage = .stable → ∀ r, s.propagator.arena.IsLive r →
      ClauseLists.isSatisfied s.propagator.trail (s.propagator.arena.view r) = false →
      ∀ l, (s.propagator.arena.view r).IsWatched l → s.propagator.trail.isFree l.var = true) := by
  have hok := h.ok
  obtain ⟨hreduced, -⟩ := ClauseLists.reduce_spec hok.inOrder hok.listed
  obtain ⟨hspares, hlisted⟩ := ClauseLists.reduce_spares (p := s.propagator) hok.listed
  refine ⟨⟨hok.keepsMeaning hreduced, hspares, hlisted, hok.keepsMeaning hok.reduceLearnts.2⟩,
    fun hground settings => ?_, hok.keepsMeaning hok.simplify.2, fun hstable r hr hopen l hw => ?_⟩
  · obtain ⟨hsimplified, -⟩ := ClauseLists.removeSatisfied_spec
      (d := { s.lists with settings := settings }) hok.inOrder hground hok.listed
    exact hok.keepsMeaning hsimplified
  · subst hstable
    exact h.idle.isFree_watched hr hopen hw

theorem housekeeping_keeps_meaning_taught :
    taught.lists.learnts = #[⟨2⟩] ∧ taught.propagator.trail.reasonOf ⟨3⟩ = some ⟨2⟩ ∧
      taught.propagator.KeepsMeaning taught.reduceLearnts.propagator ∧
      (taught.lists.reduce taught.propagator).2.arena.view ⟨2⟩ =
        taught.propagator.arena.view ⟨2⟩ ∧
      small.propagator.trail.level = 0 ∧
      small.propagator.KeepsMeaning (({ small.lists with
        settings := { removeSatisfied := true } } : ClauseLists).removeSatisfied
          small.propagator).2 ∧
      small.propagator.KeepsMeaning (({ small.lists with
        settings := { removeSatisfied := false } } : ClauseLists).removeSatisfied
          small.propagator).2 := by
  have h := housekeeping_keeps_meaning reachable_taught
  have h' := housekeeping_keeps_meaning reachable_small
  have hground : small.propagator.trail.level = 0 := by decide +kernel
  exact ⟨by decide +kernel, by decide +kernel, h.1.2.2.2, h.1.2.1.short ⟨2⟩ (by decide +kernel),
    hground, h'.2.1 hground _, h'.2.1 hground _⟩

end Search

end ConfigSampler
