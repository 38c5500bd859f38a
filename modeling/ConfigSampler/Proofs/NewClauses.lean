import ConfigSampler.Proofs.Housekeeping

/-!
# Storing a clause

A new clause is watched through its first two literals.  It does not disturb the invariant if
neither of them is false on a level below the current one (`Propagator.InOrder.withClause`), and it is
the reason of its first literal if the others are false (`Propagator.InOrder.learn`).
-/

set_option autoImplicit false

namespace ConfigSampler

namespace Propagator

variable {p : Propagator} {lits : Array Lit} {learnt : Bool} {activity : Float} {l w : Lit}
  {r : ClauseRef} {α : Assignment}

/-- The propagator with one more clause, watched through two literals. -/
def withClause (p : Propagator) (lits : Array Lit) (learnt : Bool) (activity : Float)
    (first second : Lit) : Propagator :=
  { p with
    arena := (p.arena.push lits learnt activity).2
    watches := p.watches.attach (p.arena.push lits learnt activity).1 first second }

/-- The name of the next clause. -/
def nextName (p : Propagator) : ClauseRef := ⟨p.arena.clauses.size⟩

/-- A stored clause as it is given. -/
def newClause (lits : Array Lit) (learnt : Bool) (activity : Float) : Clause :=
  ⟨lits, learnt, false, activity, none⟩

section

variable {first second : Lit}

theorem view_withClause_new :
    (p.withClause lits learnt activity first second).arena.view p.nextName =
      newClause lits learnt activity := Arena.view_push_self _ _ _ _

theorem view_withClause_of_ne (h : r ≠ p.nextName) :
    (p.withClause lits learnt activity first second).arena.view r = p.arena.view r :=
  Arena.view_push_of_ne _ _ _ h

theorem isLive_withClause :
    (p.withClause lits learnt activity first second).arena.IsLive r ↔
      p.arena.IsLive r ∨ r = p.nextName := Arena.isLive_push _ _ _

theorem ne_nextName (h : p.arena.IsLive r) : r ≠ p.nextName := by
  rintro rfl
  exact Nat.lt_irrefl _ h.index_lt

/-- The watchers of the new clause in the list of a literal. -/
def newWatchers (p : Propagator) (first second l : Lit) : List Watcher :=
  (if l = first.negate then [⟨p.nextName, second⟩] else []) ++
    if l = second.negate then [⟨p.nextName, first⟩] else []

theorem mem_newWatchers {x : Watcher} : x ∈ p.newWatchers first second l ↔
    l = first.negate ∧ x = ⟨p.nextName, second⟩ ∨ l = second.negate ∧ x = ⟨p.nextName, first⟩ := by
  rw [newWatchers, List.mem_append]
  apply or_congr
  · split <;> simp [*]
  · split <;> simp [*]

/-- They name the new clause, under the complements of the two literals. -/
theorem exists_mem_newWatchers : (∃ x ∈ p.newWatchers first second l, x.clause = r) ↔
    r = p.nextName ∧ (l = first.negate ∨ l = second.negate) := by
  constructor
  · rintro ⟨x, hx, rfl⟩
    rcases mem_newWatchers.1 hx with ⟨hl, rfl⟩ | ⟨hl, rfl⟩
    · exact ⟨rfl, .inl hl⟩
    · exact ⟨rfl, .inr hl⟩
  · rintro ⟨rfl, hl | hl⟩
    · exact ⟨_, mem_newWatchers.2 (.inl ⟨hl, rfl⟩), rfl⟩
    · exact ⟨_, mem_newWatchers.2 (.inr ⟨hl, rfl⟩), rfl⟩

theorem nodup_newWatchers (hne : first ≠ second) :
    ((p.newWatchers first second l).map Watcher.clause).Nodup := by
  have hdiff : first.negate ≠ second.negate := fun he => hne (Lit.negate_inj.1 he)
  rw [newWatchers]
  by_cases hf : l = first.negate
  · subst hf
    rw [if_pos rfl, if_neg hdiff]
    exact List.nodup_singleton _
  · rw [if_neg hf]
    split
    · exact List.nodup_singleton _
    · exact List.nodup_nil

theorem watchersOf_withClause (hp : p.InOrder) (hne : first ≠ second)
    (hfirst : first.var < p.trail.numVars) (hsecond : second.var < p.trail.numVars) (l : Lit) :
    (p.withClause lits learnt activity first second).watchersOf l =
      p.watchersOf l ++ p.newWatchers first second l := by
  have hcode : ∀ m : Lit, m.var < p.trail.numVars → m.negate.code < p.watches.slots.size :=
    fun m hm => by rw [hp.ok.slots, Lit.code_lt_iff, Lit.var_negate]; exact hm
  have hdiff : first.negate ≠ second.negate := fun he => hne (Lit.negate_inj.1 he)
  have hlist : (WatchTable.listOf (p.withClause lits learnt activity first second).watches l).watchers
      = (p.watches.listOf l).watchers ++ (p.newWatchers first second l).toArray := by
    have hattach : (p.withClause lits learnt activity first second).watches =
      (p.watches.push first.negate ⟨p.nextName, second⟩).push second.negate ⟨p.nextName, first⟩ := rfl
    rw [hattach]
    by_cases hs : l = second.negate
    · subst hs
      rw [WatchTable.listOf_push_self (by rw [WatchTable.slots_push]; exact hcode second hsecond),
        WatchTable.listOf_push_of_ne hdiff.symm]
      simp [newWatchers, hdiff.symm]
    · rw [WatchTable.listOf_push_of_ne hs]
      by_cases hf : l = first.negate
      · subst hf
        rw [WatchTable.listOf_push_self (hcode first hfirst)]
        simp [newWatchers, hdiff]
      · rw [WatchTable.listOf_push_of_ne hf]
        simp [newWatchers, hs, hf]
  -- the watchers that were there name older clauses
  have hold : (p.watches.listOf l).watchers.toList.filter (fun x =>
      !(p.withClause lits learnt activity first second).arena.isDeleted x.clause) =
      p.watchersOf l := by
    refine List.filter_congr fun x hx => ?_
    have hlt := (hp.fresh l x (by simpa using hx)).1
    rw [Arena.isDeleted, view_withClause_of_ne]
    · rfl
    · rintro he
      rw [he] at hlt
      exact Nat.lt_irrefl _ hlt
  have hnew : ∀ x ∈ p.newWatchers first second l,
      (!(p.withClause lits learnt activity first second).arena.isDeleted x.clause) = true := by
    intro x hx
    rw [(exists_mem_newWatchers.1 ⟨x, hx, rfl⟩).1, Arena.isDeleted, view_withClause_new]
    rfl
  rw [watchersOf, hlist, Array.toList_append, List.filter_append, hold,
    List.filter_eq_self.2 hnew]

theorem fresh_withClause (hp : p.InOrder) (hfirst : first.var < p.trail.numVars)
    (hsecond : second.var < p.trail.numVars) :
    (p.withClause lits learnt activity first second).Fresh := by
  have hcode : ∀ m : Lit, m.var < p.trail.numVars → m.negate.code < p.watches.slots.size :=
    fun m hm => by rw [hp.ok.slots, Lit.code_lt_iff, Lit.var_negate]; exact hm
  have hpushed : Fresh { p with arena := (p.arena.push lits learnt activity).2 } := by
    intro l x hx
    obtain ⟨hlt, hlive⟩ := hp.fresh l x hx
    refine ⟨Nat.lt_of_lt_of_le hlt (by simp [Arena.push]), fun hstale => ?_⟩
    exact (Arena.isLive_push _ _ _).2 (.inl (hlive hstale))
  have hnew : (p.arena.push lits learnt activity).2.IsLive p.nextName :=
    (Arena.isLive_push _ _ _).2 (.inr rfl)
  exact (hpushed.push (x := ⟨p.nextName, second⟩) (hcode first hfirst) hnew).push
    (x := ⟨p.nextName, first⟩) (by rw [WatchTable.slots_push]; exact hcode second hsecond) hnew

end

/-- The new clause is listed under the complements of its first two literals. -/
theorem watched_withClause (hp : p.InOrder)
    (hc : (newClause lits learnt activity).Ok p.trail.numVars) :
    Watched (p.withClause lits learnt activity (lits.getD 0 default) (lits.getD 1 default)).watchersOf
      (p.withClause lits learnt activity (lits.getD 0 default) (lits.getD 1 default)) := by
  have hok := hp.ok.watched
  have hfirst : lits.getD 0 default ∈ lits := hc.head_mem
  have hsecond : lits.getD 1 default ∈ lits := hc.second_mem
  have hne : lits.getD 0 default ≠ lits.getD 1 default := hc.head_ne_second
  have hlists : ∀ l, (p.withClause lits learnt activity (lits.getD 0 default)
      (lits.getD 1 default)).watchersOf l =
      p.watchersOf l ++ p.newWatchers (lits.getD 0 default) (lits.getD 1 default) l :=
    watchersOf_withClause hp hne (hc.var_lt _ hfirst) (hc.var_lt _ hsecond)
  have hwatched : ∀ l, (newClause lits learnt activity).IsWatched l.negate ↔
      l = (lits.getD 0 default).negate ∨ l = (lits.getD 1 default).negate := by
    intro l
    rw [← Lit.negate_eq_comm, ← Lit.negate_eq_comm]
    rfl
  -- the watchers that were there name older clauses
  have holdNe : ∀ l, ∀ x ∈ p.watchersOf l, x.clause ≠ p.nextName :=
    fun l x hx => ne_nextName (isLive_of_mem_watchersOf hx)
  refine ⟨fun l x hx => isLive_of_mem_watchersOf hx, fun r hr l => ?_, fun l => ?_, fun l x hx => ?_⟩
  · have hsplit : (∃ x ∈ p.watchersOf l ++ p.newWatchers (lits.getD 0 default)
        (lits.getD 1 default) l, x.clause = r) ↔ (∃ x ∈ p.watchersOf l, x.clause = r) ∨
          r = p.nextName ∧ (l = (lits.getD 0 default).negate ∨ l = (lits.getD 1 default).negate) := by
      simp only [List.mem_append, or_and_right, exists_or, exists_mem_newWatchers]
    rw [hlists, hsplit]
    rcases isLive_withClause.1 hr with hr | rfl
    · have hrne := ne_nextName hr
      rw [view_withClause_of_ne hrne, ← hok.mem_iff r hr l]
      exact or_iff_left fun hnew => hrne hnew.1
    · rw [view_withClause_new, hwatched]
      constructor
      · rintro (⟨x, hx, he⟩ | ⟨-, hl⟩)
        · exact absurd he (holdNe l x hx)
        · exact hl
      · exact fun hl => .inr ⟨rfl, hl⟩
  · rw [hlists, List.map_append, List.nodup_append]
    refine ⟨hok.nodup l, nodup_newWatchers hne, ?_⟩
    rintro s hs s' hs' rfl
    obtain ⟨x, hx, rfl⟩ := List.mem_map.1 hs
    exact holdNe l x hx (exists_mem_newWatchers.1 (List.mem_map.1 hs')).1
  · rw [hlists, List.mem_append, mem_newWatchers] at hx
    rcases hx with hx | ⟨-, rfl⟩ | ⟨-, rfl⟩
    · rw [view_withClause_of_ne (holdNe l x hx)]
      exact hok.blocker l x hx
    · rw [view_withClause_new]
      exact .inl hsecond
    · rw [view_withClause_new]
      exact .inl hfirst

/-- A new clause may be stored if no watched literal of it is false below the current level. -/
theorem InOrder.withClause (hp : p.InOrder)
    (hc : (newClause lits learnt activity).Ok p.trail.numVars)
    (hlevel : ∀ w, (newClause lits learnt activity).IsWatched w → p.trail.isFalse w = true →
      p.trail.level ≤ p.trail.levelOf w) :
    (p.withClause lits learnt activity (lits.getD 0 default) (lits.getD 1 default)).InOrder := by
  have hok := hp.ok
  have hmem : ∀ {k : Nat}, k < 2 → lits.getD k default ∈ lits := fun {k} hk =>
    Clause.litAt_mem (c := newClause lits learnt activity) (i := k) (by
      have := hc.two_le
      omega)
  refine ⟨⟨hok.trail, fun r hr => ?_,
    ((WatchTable.slots_push _ _ _).trans (WatchTable.slots_push _ _ _)).trans hok.slots,
    watched_withClause hp hc, fun i hi hpos => ?_, hok.current, fun r hr w hw hfalse hlt => ?_⟩,
    fresh_withClause hp (hc.var_lt _ (hmem (k := 0) (by decide)))
      (hc.var_lt _ (hmem (k := 1) (by decide)))⟩
  · rcases isLive_withClause.1 hr with hr | rfl
    · rw [view_withClause_of_ne (ne_nextName hr)]
      exact hok.clause r hr
    · rw [view_withClause_new]
      exact hc
  · refine (hok.reason i hi hpos).imp id fun ⟨r, hr, hf⟩ => ⟨r, hr, isLive_withClause.2 (.inl hf.live), ?_, ?_⟩
    · rw [view_withClause_of_ne (ne_nextName hf.live)]; exact hf.head
    · rw [view_withClause_of_ne (ne_nextName hf.live)]; exact hf.others
  · rcases isLive_withClause.1 hr with hr | rfl
    · have hview : (p.withClause lits learnt activity (lits.getD 0 default)
          (lits.getD 1 default)).arena.view r = p.arena.view r :=
        view_withClause_of_ne (ne_nextName hr)
      rw [hview] at hw
      obtain ⟨b, hb, hg⟩ := hok.below r hr w hw hfalse hlt
      exact ⟨b, by rw [hview]; exact hb, hg⟩
    · rw [view_withClause_new] at hw
      exact absurd (hlevel w hw hfalse) (Nat.not_le.2 hlt)

/-- Only the new clause may lack a guard. -/
theorem IsSettled.withClause (hs : p.IsSettled) {first second : Lit} :
    Settled (fun r _ => r = p.nextName) (p.withClause lits learnt activity first second) := by
  intro r hr w hw hproc
  rcases isLive_withClause.1 hr with hr | rfl
  · have hview : (p.withClause lits learnt activity first second).arena.view r = p.arena.view r :=
      view_withClause_of_ne (ne_nextName hr)
    rw [hview] at hw
    obtain ⟨b, hb, hg⟩ := (hs r hr w hw hproc).resolve_left id
    exact .inr ⟨b, by rw [hview]; exact hb, hg⟩
  · exact .inl rfl

theorem Models.withClause {first second : Lit} (hα : p.Models α) (hlits : ∃ l ∈ lits, l.Holds α) :
    (p.withClause lits learnt activity first second).Models α := by
  refine ⟨fun r hr => ?_, hα.ground⟩
  rcases isLive_withClause.1 hr with hr | rfl
  · rw [view_withClause_of_ne (ne_nextName hr)]
    exact hα.clause r hr
  · rw [view_withClause_new]
    exact hlits

theorem ModelsProblem.withClause {first second : Lit}
    (hα : (p.withClause lits learnt activity first second).ModelsProblem α) :
    p.ModelsProblem α ∧ (learnt = false → ∃ l ∈ lits, l.Holds α) := by
  refine ⟨⟨fun r hr hl => ?_, hα.ground⟩, fun hl => ?_⟩
  · have hview : (p.withClause lits learnt activity first second).arena.view r = p.arena.view r :=
      view_withClause_of_ne (ne_nextName hr)
    obtain ⟨l, hl, hh⟩ := hα.clause r (isLive_withClause.2 (.inl hr)) (by rw [hview]; exact hl)
    rw [hview] at hl
    exact ⟨l, hl, hh⟩
  · have := hα.clause p.nextName (isLive_withClause.2 (.inr rfl))
      (by rw [view_withClause_new]; exact hl)
    rwa [view_withClause_new] at this

theorem isUnit_withClause {first second : Lit}
    (hothers : ∀ l ∈ lits, l ≠ lits.getD 0 default → p.trail.isFalse l = true) :
    IsUnit (p.withClause lits learnt activity first second) p.nextName (lits.getD 0 default) := by
  refine ⟨isLive_withClause.2 (.inr rfl), ?_, ?_⟩
  · rw [view_withClause_new]; rfl
  · rw [view_withClause_new]; exact hothers

/-- **A learnt clause forces its first literal** if the others are false, the second one on the
    current level. -/
theorem InOrder.learn (hp : p.InOrder) (hs : p.IsSettled)
    (hc : (newClause lits learnt activity).Ok p.trail.numVars)
    (hfree : p.trail.isFree (lits.getD 0 default).var = true)
    (hothers : ∀ l ∈ lits, l ≠ lits.getD 0 default → p.trail.isFalse l = true)
    (hsecond : p.trail.levelOf (lits.getD 1 default) = p.trail.level) :
    ((p.withClause lits learnt activity (lits.getD 0 default) (lits.getD 1 default)).assign
      (lits.getD 0 default) (some p.nextName)).InOrder ∧
    ((p.withClause lits learnt activity (lits.getD 0 default) (lits.getD 1 default)).assign
      (lits.getD 0 default) (some p.nextName)).IsSettled := by
  have hfirst : lits.getD 0 default ∈ lits := hc.head_mem
  have hlt := hc.var_lt _ hfirst
  have hnot := (hp.ok.trail.isFree_iff (lits.getD 0 default)).1 hfree
  have hin := hp.withClause hc fun w hw hfalse => by
    rcases hw with rfl | rfl
    · have hf : p.trail.isFalse (lits.getD 0 default) = true := hfalse
      rw [hnot.2] at hf
      cases hf
    · exact Nat.le_of_eq hsecond.symm
  have hassign : Ok _ ((p.withClause lits learnt activity (lits.getD 0 default)
      (lits.getD 1 default)).assign (lits.getD 0 default) (some p.nextName)) :=
    hin.ok.assign hlt hfree fun _ => .inr ⟨_, rfl, isUnit_withClause hothers⟩
  refine ⟨⟨hassign, hin.fresh⟩, fun r hr w hw hproc => ?_⟩
  have hview : (p.withClause lits learnt activity (lits.getD 0 default)
      (lits.getD 1 default)).arena.view p.nextName = newClause lits learnt activity :=
    view_withClause_new
  rcases hs.withClause.assign hin.ok.trail hlt hfree (some p.nextName) r hr w hw hproc with rfl | hg
  · have hfalse := hproc.isFalse hassign.trail
    have htrue : (p.trail.assign (lits.getD 0 default) (some p.nextName)).isTrue
        (lits.getD 0 default) = true := (hp.ok.trail.isTrue_assign hlt hfree _).2 (.inl rfl)
    have hw' : (newClause lits learnt activity).IsWatched w := by
      rw [← hview]
      exact hw
    rcases hw' with rfl | rfl
    · exact absurd (Trail.isTrue_not_isFalse htrue) (ne_true_of_eq_false · hfalse)
    · -- the first literal guards the second one
      refine .inr ⟨lits.getD 0 default, ?_, htrue, ?_⟩
      · exact (congrArg (fun c : Clause => lits.getD 0 default ∈ c.lits) hview).mpr hfirst
      · have hne : lits.getD 1 default ≠ lits.getD 0 default := hc.head_ne_second.symm
        have hsecondFalse := hothers _ hc.second_mem hne
        have hsame := (Trail.Extends.assign hp.ok.trail hfree
          (some p.nextName)).levelOf_of_isFalse hp.ok.trail hsecondFalse
        have hfirstLevel := hp.ok.trail.levelOf_assign hlt (some p.nextName)
        exact Nat.le_of_eq (hfirstLevel.trans (hsecond.symm.trans hsame.symm))
  · exact .inr hg

end Propagator

end ConfigSampler
