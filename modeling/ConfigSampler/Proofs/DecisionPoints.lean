import ConfigSampler.Proofs.Turns

/-!
# What waits when a search decides

A search comes to a decision whenever rounds of propagation left no conflict and it is to go on;
`Search.ComesTo` lists the states in which that happens, over all attempts of a run.  They are
reachable, so the queue is complete in them.  Between its operations a solver keeps its queue
complete whatever the operations came to, also after its clauses were found to be contradictory
(`Solver.Queued`).

`Solver.undecided_wait` is the main statement: **between operations and whenever a search decides,
every variable without a value waits in the queue, no variable waits twice, and the queue chooses a
variable without a value or, if there is none, nothing**.
-/

set_option autoImplicit false

namespace ConfigSampler

/-! ## The choice of the queue -/

namespace DecisionQueue

variable {q : DecisionQueue} {n : Nat} {t : Trail}

/-- The queue holds what is to be decided, and chooses from it. -/
structure Serves (q : DecisionQueue) (n : Nat) (t : Trail) : Prop where
  /-- No variable waits twice. -/
  nodup : q.heap.keys.toList.Nodup
  /-- Every variable without a value waits. -/
  waiting : ∀ v < n, t.isFree v = true → v ∈ q.heap.keys
  none_iff : (q.pickLit t).1 = none ↔ ∀ v < n, t.isFree v = false
  chosen : ∀ l, (q.pickLit t).1 = some l → l.var < n ∧ t.isFree l.var = true

theorem Waits.serves (h : q.Waits n fun v => t.isFree v = true) : q.Serves n t := by
  have hpick := pickLit_spec h
  have hchosen : ∀ l, (q.pickLit t).1 = some l → l.var < n ∧ t.isFree l.var = true := by
    intro l hl
    rw [hl] at hpick
    exact ⟨hpick.1, hpick.2.1⟩
  refine ⟨h.heap.nodup, h.mem, ⟨fun hnone => ?_, fun hall => ?_⟩, hchosen⟩
  · rw [hnone] at hpick
    exact hpick.1
  · cases hchoice : (q.pickLit t).1 with
    | none => rfl
    | some l =>
      obtain ⟨hl, hfree⟩ := hchosen l hchoice
      rw [hall _ hl] at hfree
      cases hfree

end DecisionQueue

namespace Search

variable {s s' d : Search} {n : Nat} {assumptions : Array Lit} {limit : LearntLimit}
  {query : Query} {conflictLimit : Nat} {budget : Budget}

/-! ## The decisions of a run -/

/-- An attempt that goes on from the state `s` decides in the state `d`, after housekeeping. -/
inductive AttemptComesTo (query : Query) (conflictLimit : Nat) :
    LearntLimit → Search → Search → Prop
  | now {limit limit' : LearntLimit} {s s' : Search} :
      stabilise (s.propagator.trail.level + 2) limit s = (.stable, limit', s') →
      s'.affords query = true → s'.conflicts < conflictLimit →
      AttemptComesTo query conflictLimit limit s (s'.looked.tidied limit')
  | later {limit limit' : LearntLimit} {s s' d : Search} :
      turn byActivity query conflictLimit limit s = .inr (limit', s') →
      AttemptComesTo query conflictLimit limit' s' d → AttemptComesTo query conflictLimit limit s d

/-- One of the attempts from the state `s` on decides in the state `d`, whatever the limits on the
    steps and the conflicts of each attempt are. -/
inductive AttemptsComeTo (query : Query) : LearntLimit → Search → Search → Prop
  | first {limit : LearntLimit} {s d : Search} (conflictLimit : Nat) :
      AttemptComesTo query conflictLimit limit { s with starts := s.starts + 1 } d →
      AttemptsComeTo query limit s d
  | again {limit limit' : LearntLimit} {s s' d : Search} (conflictLimit steps : Nat) :
      attempt query conflictLimit steps limit { s with starts := s.starts + 1 } =
        (.restart, limit', s') →
      AttemptsComeTo query limit' s' d → AttemptsComeTo query limit s d

/-- The state in which the attempts of a run begin. -/
def started (s : Search) (assumptions : Array Lit) : Search :=
  { s.report (.searchStarted assumptions.size s.lists.learnts.size) with solves := s.solves + 1 }

/-- A run from the state `s` decides in the state `d`. -/
def ComesTo (s : Search) (budget : Budget) (assumptions : Array Lit) (d : Search) : Prop :=
  AttemptsComeTo (s.question budget assumptions)
    (.start s.settings.learnt s.lists.numClauses) (s.started assumptions) d

/-- The state after the first round of propagation of a run. -/
def firstRound (s : Search) (assumptions : Array Lit) : Round × LearntLimit × Search :=
  stabilise (s.propagator.trail.level + 2) (.start s.settings.learnt s.lists.numClauses)
    { s.started assumptions with starts := s.starts + 1 }

/-- A run decides when the first round is over, if the budget affords it. -/
theorem comesTo_firstRound (hround : (s.firstRound assumptions).1 = .stable)
    (hbudget : (s.firstRound assumptions).2.2.affords (s.question budget assumptions) = true) :
    s.ComesTo budget assumptions
      ((s.firstRound assumptions).2.2.looked.tidied (s.firstRound assumptions).2.1) :=
  .first _ (.now (Prod.ext hround rfl) hbudget (Nat.lt_succ_self _))

theorem Reachable.attemptComesTo (hvars : ∀ l ∈ query.assumptions, l.var < n)
    (h : Reachable n .ready s) (hd : AttemptComesTo query conflictLimit limit s d) :
    Reachable n .stable d := by
  induction hd with
  | @now _ _ _ s' hround _ _ =>
    have hkept : Trail.Kept #[] fun _ => True := kept_true
    obtain ⟨-, hstable⟩ := stabilise_keeps hkept _ h trivial (by omega) hround
    have hlooked : Reachable n .stable s'.looked := (hstable rfl).1.note rfl rfl rfl rfl
    exact hlooked.tidied _
  | @later limit _ _ _ _ hturn _ ih =>
    have hturned := turn_spec Rule.lawful_byActivity kept_true hvars h trivial conflictLimit limit
    rw [hturn] at hturned
    exact ih hturned.1

theorem Reachable.attemptsComeTo (hvars : ∀ l ∈ query.assumptions, l.var < n)
    (h : Reachable n .ready s) (hd : AttemptsComeTo query limit s d) : Reachable n .stable d := by
  have hstart : ∀ {s : Search}, Reachable n .ready s →
      Reachable n .ready { s with starts := s.starts + 1 } := fun h => h.note rfl rfl rfl rfl
  induction hd with
  | first conflictLimit hd => exact (hstart h).attemptComesTo hvars hd
  | again conflictLimit steps hattempt _ ih =>
    rw [attempt_eq] at hattempt
    exact ih ((hstart h).attemptBy Rule.lawful_byActivity hvars steps hattempt (by simp))

/-- **A run decides in reachable states.** -/
theorem Reachable.comesTo (h : Reachable n .ready s) (hvars : ∀ l ∈ assumptions, l.var < n)
    (hd : s.ComesTo budget assumptions d) : Reachable n .stable d := by
  have hstarted : Reachable n .ready (s.started assumptions) := h.note rfl rfl rfl rfl
  have hquery : ∀ l ∈ (s.question budget assumptions).assumptions, l.var < n := hvars
  exact hstarted.attemptsComeTo hquery hd

/-- The trail of a state that decides, after the levels of the assumptions that are true. -/
def trailToDecide (d : Search) (assumptions : Array Lit) : Trail :=
  (nextAssumption assumptions (assumptions.size - d.propagator.trail.level) d.propagator.trail).2

/-- Levels for assumptions change no value. -/
theorem isFree_nextAssumption (assumptions : Array Lit) (v : Nat) : ∀ (m : Nat) (t : Trail),
    (nextAssumption assumptions m t).2.isFree v = t.isFree v
  | 0, _ => rfl
  | m + 1, t => by
    unfold nextAssumption
    dsimp only
    split
    · exact isFree_nextAssumption assumptions v m t.newLevel
    · rfl
    · rfl

theorem Reachable.serves (h : Reachable n .stable d) (assumptions : Array Lit) :
    d.queue.Serves n (d.trailToDecide assumptions) := by
  refine DecisionQueue.Waits.serves (h.ok.waits.mono fun v _ hfree => ?_)
  rwa [trailToDecide, isFree_nextAssumption] at hfree

/-! ## The queue after a clause was added and after a run -/

/-- The variables without a value wait. -/
def Queued (s : Search) (n : Nat) : Prop :=
  s.queue.Waits n fun v => s.propagator.trail.isFree v = true

/-- A clause that is found contradictory leaves the queue complete, too. -/
theorem Reachable.queued_addClause (h : Reachable n .ready s)
    (hground : s.propagator.trail.level = 0) {lits : List Lit} (hvars : ∀ l ∈ lits, l.var < n) :
    (s.addClause lits).2.Queued n := by
  generalize hadd : s.addClause lits = out
  obtain ⟨addition, s'⟩ := out
  by_cases hne : addition ≠ .contradiction
  · exact (h.addClause hground hvars hadd hne).1.ok.waits
  obtain rfl : addition = .contradiction := not_not.1 hne
  unfold Search.addClause at hadd
  dsimp only at hadd
  rw [show (sortLits lits).filter (fun l => !s.propagator.trail.isFalse l) =
    openLits s.propagator.trail lits from rfl] at hadd
  split at hadd
  · cases hadd
  rename_i hnot
  have hunset := holdsAlready_eq_false _ _ (by simpa using hnot)
  split at hadd
  · -- no literal of the clause is left
    cases hadd
    exact h.ok.waits
  · rename_i l hopen
    have hl : l ∈ openLits s.propagator.trail lits := by
      rw [hopen]
      exact List.mem_singleton_self l
    obtain ⟨hmem, hfalse⟩ := mem_openLits.1 hl
    have hfree := (h.ok.inOrder.ok.trail.isFree_iff _).2 ⟨hunset l hl, hfalse⟩
    split at hadd
    · cases hadd
    · -- the last literal that is left leads to a conflict
      rename_i hq
      cases hadd
      exact ((h.assert hground (hvars l hmem) hfree).fail hq).ok.waits
  · cases hadd

/-- A run leaves the queue complete, whatever it comes to. -/
theorem Reachable.queued_run (h : Reachable n .ready s) (hground : s.propagator.trail.level = 0)
    (hvars : ∀ l ∈ assumptions, l.var < n) (budget : Budget) :
    (s.run budget assumptions).2.Queued n := by
  obtain ⟨hok, hsettled⟩ := h.poised
  have hrun := run_spec ⟨hok, hsettled, hground⟩ hvars budget
  generalize s.run budget assumptions = out at hrun ⊢
  obtain ⟨verdict, s'⟩ := out
  cases verdict with
  | satisfiable model => exact hrun.1.ok.waits
  | unsatisfiable => exact hrun.1.waits
  | assumptionsFail => exact hrun.1.ok.waits
  | interrupted progress => exact hrun.ok.waits
  | outOfSteps => exact hrun.ok.waits

end Search

/-! ## Solvers between their operations -/

namespace Solver

variable {s : Solver} {n : Nat}

/-- The solver is in a reachable state unless its clauses are contradictory, and in any case the
    variables without a value wait in its queue. -/
structure Queued (s : Solver) (n : Nat) : Prop where
  reaches : s.Reaches n
  waits : s.search.Queued n

theorem Queued.insert (h : s.Queued n) {clause : List Lit} (hvars : ∀ l ∈ clause, l.var < n) :
    (s.insert clause).Queued n := by
  refine ⟨h.reaches.insert hvars, ?_⟩
  unfold Solver.insert
  split
  · rename_i hcon
    obtain ⟨hreach, hground⟩ := h.reaches hcon
    have hadd := hreach.queued_addClause hground hvars
    split <;> rename_i he <;> rwa [he] at hadd
  · exact h.waits

theorem Queued.addClause (h : s.Queued n) (lits : List Int) : (s.addClause lits).2.Queued n := by
  refine ⟨h.reaches.addClause lits, ?_⟩
  unfold Solver.addClause
  split
  · exact h.waits
  · rename_i clause he
    have hinsert : (s.insert clause).search.Queued n := by
      by_cases hcon : s.consistent = true
      · exact (h.insert (h.reaches.toLits hcon he)).waits
      · rw [Solver.insert, if_neg hcon]
        exact h.waits
    dsimp only
    split <;> exact hinsert

theorem Queued.solve (h : s.Queued n) (assumptions : List Int) :
    (s.solve assumptions).2.Queued n := by
  refine ⟨h.reaches.solve assumptions, ?_⟩
  unfold Solver.solve
  split
  · exact h.waits
  · rename_i lits he
    split
    · exact h.waits
    · rename_i hcon
      have htrue : s.consistent = true := by simpa using hcon
      have hvars : ∀ l ∈ lits.toArray, l.var < n := by simpa using h.reaches.toLits htrue he
      obtain ⟨hreach, hground⟩ := h.reaches htrue
      obtain ⟨consistent, search, budget⟩ := s
      have hrun := hreach.queued_run hground hvars budget
      dsimp only at hrun ⊢
      generalize search.run budget lits.toArray = out at *
      obtain ⟨verdict, search'⟩ := out
      cases verdict <;> exact hrun

theorem Queued.perform (h : s.Queued n) (call : Call) : (call.perform s).Queued n := by
  cases call with
  | addClause lits => exact h.addClause lits
  | solve assumptions => exact h.solve assumptions
  | shuffle rand =>
    exact ⟨h.reaches.perform (.shuffle rand),
      DecisionQueue.waits_shuffle h.waits.numVars rand _⟩
  | setPolarity polarity =>
    exact ⟨h.reaches.perform (.setPolarity polarity),
      ⟨h.waits.heap, h.waits.numVars, h.waits.bound, h.waits.mem⟩⟩
  | withBudget change => exact ⟨h.reaches, h.waits⟩
  | takeEvents => exact ⟨h.reaches.perform .takeEvents, h.waits⟩

theorem Queued.after : ∀ (calls : List Call) {s : Solver}, s.Queued n → (s.after calls).Queued n
  | [], _, h => h
  | call :: calls, _, h => Queued.after calls (h.perform call)

theorem queued_ofCnf {cnf : Cnf} (hcnf : cnf.WellFormed) (settings : SolverSettings) :
    (ofCnf cnf settings).Queued cnf.size := by
  refine ofCnf_rule (P := fun s => s.Queued cnf.size) hcnf settings
    ⟨reaches_newVars cnf.size settings, ?_⟩ fun _ _ h hvars => h.insert hvars
  exact (Search.Reachable.start settings).ok.waits

/-- **The queue serves every decision**: between operations and whenever a search decides. -/
theorem undecided_wait {cnf : Cnf} (hcnf : cnf.WellFormed) (settings : SolverSettings)
    (calls : List Call) :
    let s := (ofCnf cnf settings).after calls
    s.search.queue.Serves cnf.size s.search.propagator.trail ∧
    ∀ assumptions lits d, s.toLits assumptions = .ok lits → s.consistent = true →
      s.search.ComesTo s.budget lits.toArray d →
      d.queue.Serves cnf.size (d.trailToDecide lits.toArray) := by
  intro s
  have hqueued : s.Queued cnf.size := (queued_ofCnf hcnf settings).after calls
  refine ⟨hqueued.waits.serves, fun assumptions lits d he hcon hd => ?_⟩
  have hvars : ∀ l ∈ lits.toArray, l.var < cnf.size := by
    simpa using hqueued.reaches.toLits hcon he
  exact ((hqueued.reaches hcon).1.comesTo hvars hd).serves _

/-- The first decision among the models of a formula, under the negative polarity. -/
theorem undecided_wait_eitherOf : Cnf.eitherOf.WellFormed ∧ ∃ (s : Solver) (d : Search),
    s = (ofCnf Cnf.eitherOf {}).after [.setPolarity .negative, .takeEvents] ∧
    s.toLits [] = .ok [] ∧ s.consistent = true ∧ s.search.ComesTo s.budget #[] d ∧
    d.queue.Serves 2 (d.trailToDecide #[]) := by
  have hcnf : Cnf.eitherOf.WellFormed := by decide
  have hascending : Search.Ascending [⟨0⟩, ⟨2⟩] := by simp [Search.Ascending]
  have hsolver : ofCnf Cnf.eitherOf {} =
      ⟨true, (Search.newVars 2 (Search.empty {})).stored ⟨0⟩ ⟨2⟩ [], {}⟩ := by
    show Solver.insert ⟨true, Search.newVars 2 (Search.empty {}), {}⟩ [⟨0⟩, ⟨2⟩] = _
    rw [Solver.insert, if_pos rfl, Search.addClause_of_ascending hascending (by decide +kernel)
      (by decide +kernel)]
  have hserves := undecided_wait hcnf {} [.setPolarity .negative, .takeEvents]
  rw [hsolver] at hserves ⊢
  have hcomes : Search.ComesTo
      (Call.perform ((Call.setPolarity .negative).perform
        ⟨true, (Search.newVars 2 (Search.empty {})).stored ⟨0⟩ ⟨2⟩ [], {}⟩) .takeEvents).search
      {} #[] _ :=
    Search.comesTo_firstRound (by decide +kernel) (by decide +kernel)
  exact ⟨hcnf, _, _, rfl, rfl, rfl, hcomes, hserves.2 [] [] _ rfl rfl hcomes⟩

end Solver

end ConfigSampler
