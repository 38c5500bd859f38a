import ConfigSampler.Proofs.Histories

/-!
# States that a search comes through

`Search.Reachable n stage s` is closed under the steps of a search over `n` variables: clauses are
added at ground level, literals are propagated, a clause is learnt from a conflict, levels are opened
and undone, any variable without a value is decided, learnt clauses are deleted, the clauses are
simplified at ground level and the arena is compacted.  Every step keeps the invariant
(`Reachable.invariant`).

A state that is ready stands for the models of its problem clauses and ground literals, which are
the models of all its clauses (`Reachable.poised`, `Ok.models_iff`).
-/

set_option autoImplicit false

namespace ConfigSampler

namespace Search

variable {s s' : Search} {n : Nat} {F : Assignment → Prop} {assumptions : Array Lit}
  {limit limit' : LearntLimit} {query : Query}

/-- Where a search stands between two steps. -/
inductive Stage where
  /-- Literals may wait for their propagation. -/
  | ready
  /-- Every literal was propagated, without a conflict. -/
  | stable
  /-- Propagation found that the clause is false. -/
  | conflict (clause : ClauseRef)

/-- The states of searches over `n` variables. -/
inductive Reachable (n : Nat) : Stage → Search → Prop where
  /-- There are variables, but no clauses. -/
  | start (settings : SolverSettings) : Reachable n .ready (newVars n (empty settings))
  /-- A clause is stored at ground level. -/
  | store {s s' : Search} {lits : List Lit} {r : ClauseRef} : Reachable n .ready s →
      s.propagator.trail.level = 0 → (∀ l ∈ lits, l.var < n) →
      s.addClause lits = (.stored r, s') → Reachable n .ready s'
  /-- A clause of one literal makes it true at ground level. -/
  | assert {s : Search} {l : Lit} : Reachable n .ready s → s.propagator.trail.level = 0 →
      l.var < n → s.propagator.trail.isFree l.var = true →
      Reachable n .ready { s with propagator := s.propagator.assign l none }
  | propagate {s : Search} {q : Propagator} : Reachable n .ready s →
      s.propagator.propagate = (none, q) → Reachable n .stable { s with propagator := q }
  | fail {s : Search} {q : Propagator} {r : ClauseRef} : Reachable n .ready s →
      s.propagator.propagate = (some r, q) → Reachable n (.conflict r) { s with propagator := q }
  | learn {s s' : Search} {r : ClauseRef} {limit limit' : LearntLimit} :
      Reachable n (.conflict r) s → s.learn limit r = (true, limit', s') → Reachable n .ready s'
  | simplify {s : Search} : Reachable n .stable s → Reachable n .stable s.simplify
  | reduce {s : Search} : Reachable n .stable s → Reachable n .stable s.reduceLearnts
  /-- A level without a decision, as an assumption gets that is true already. -/
  | openLevel {s : Search} : Reachable n .stable s →
      Reachable n .stable { s with
        propagator := { s.propagator with trail := s.propagator.trail.newLevel } }
  /-- A level with a decision: any literal without a value.  Whatever is done to the queue, the
      other variables without a value still wait in it. -/
  | decide {s : Search} {l : Lit} {queue : DecisionQueue} : Reachable n .stable s → l.var < n →
      s.propagator.trail.isFree l.var = true →
      (queue.Waits n fun v => v ≠ l.var ∧ s.propagator.trail.isFree v = true) →
      Reachable n .ready { s with
        propagator := { s.propagator with trail := s.propagator.trail.newLevel.assign l none }
        queue := queue }
  | backtrack {s : Search} (target : Nat) : Reachable n .ready s →
      Reachable n .ready (s.backtrack target)
  | pause {s : Search} : Reachable n .stable s → Reachable n .ready s
  /-- The queue is put into another order, or some of its settings change. -/
  | requeue {s : Search} {stage : Stage} {queue : DecisionQueue} : Reachable n stage s →
      (queue.Waits n fun v => s.propagator.trail.isFree v = true) →
      Reachable n stage { s with queue := queue }
  /-- Counters, limits and the journal change. -/
  | note {s s' : Search} {stage : Stage} : Reachable n stage s → s'.propagator = s.propagator →
      s'.lists = s.lists → s'.queue = s.queue → s'.marks = s.marks → Reachable n stage s'

/-- What holds on every stage. -/
def Stage.Invariant (n : Nat) (s : Search) : Stage → Prop
  | .ready => ∃ F, s.Poised n F
  | .stable => ∃ F, s.Poised n F ∧ s.propagator.trail.queueHead = s.propagator.trail.size
  | .conflict r => ∃ F, s.Ok n F ∧ s.propagator.IsConflict r

/-! ## The steps keep the invariant -/

theorem Poised.idle (h : s.Poised n F)
    (hqueue : s.propagator.trail.queueHead = s.propagator.trail.size) : s.propagator.Idle :=
  ⟨h.ok.inOrder, h.settled, hqueue⟩

theorem Poised.congr (h : s.Poised n F) (hp : s'.propagator = s.propagator)
    (hl : s'.lists = s.lists) (hq : s'.queue = s.queue) (hm : s'.marks = s.marks) :
    s'.Poised n F :=
  ⟨h.ok.congr hp hl hq hm, by rw [hp]; exact h.settled⟩

theorem Stage.Invariant.congr {stage : Stage} (h : stage.Invariant n s)
    (hp : s'.propagator = s.propagator) (hl : s'.lists = s.lists) (hq : s'.queue = s.queue)
    (hm : s'.marks = s.marks) : stage.Invariant n s' := by
  cases stage with
  | ready =>
    obtain ⟨F, hpoised⟩ := h
    exact ⟨F, hpoised.congr hp hl hq hm⟩
  | stable =>
    obtain ⟨F, hpoised, hqueue⟩ := h
    exact ⟨F, hpoised.congr hp hl hq hm, by rw [hp]; exact hqueue⟩
  | conflict r =>
    obtain ⟨F, hok, hconflict⟩ := h
    exact ⟨F, hok.congr hp hl hq hm, by rw [hp]; exact hconflict⟩

theorem Ok.requeue (h : s.Ok n F) {queue : DecisionQueue}
    (hqueue : queue.Waits n fun v => s.propagator.trail.isFree v = true) :
    Ok { s with queue := queue } n F :=
  ⟨h.numVars, h.inOrder, h.sound, h.complete, h.listed, hqueue, h.marks⟩

theorem Stage.Invariant.requeue {stage : Stage} (h : stage.Invariant n s) {queue : DecisionQueue}
    (hqueue : queue.Waits n fun v => s.propagator.trail.isFree v = true) :
    stage.Invariant n { s with queue := queue } := by
  cases stage with
  | ready =>
    obtain ⟨F, hpoised⟩ := h
    exact ⟨F, hpoised.ok.requeue hqueue, hpoised.settled⟩
  | stable =>
    obtain ⟨F, hpoised, hempty⟩ := h
    exact ⟨F, ⟨hpoised.ok.requeue hqueue, hpoised.settled⟩, hempty⟩
  | conflict r =>
    obtain ⟨F, hok, hconflict⟩ := h
    exact ⟨F, hok.requeue hqueue, hconflict⟩

theorem Poised.of_tidied (h : s.Poised n F) (hok : s'.Ok n F)
    (hqueue : s.propagator.trail.queueHead = s.propagator.trail.size)
    (ht : Propagator.Tidied s.propagator s'.propagator) :
    s'.Poised n F ∧ s'.propagator.trail.queueHead = s'.propagator.trail.size := by
  refine ⟨⟨hok, ht.settled h.settled⟩, ?_⟩
  rw [ht.trail]
  exact hqueue

theorem poised_newVars (n : Nat) (settings : SolverSettings) :
    (newVars n (empty settings)).Poised n fun _ => True := by
  have hblank := Blank.newVars n (blank_empty settings)
  rw [Nat.zero_add] at hblank
  exact ⟨hblank.ok, hblank.idle.settled⟩

theorem Reachable.invariant {stage : Stage} (h : Reachable n stage s) : stage.Invariant n s := by
  induction h with
  | start settings => exact ⟨_, poised_newVars n settings⟩
  | store _ hground hvars he ih =>
    obtain ⟨F, hok, hsettled⟩ := ih
    have hadd := addClause_spec ⟨hok, hsettled, hground⟩ hvars
    rw [he] at hadd
    exact ⟨_, hadd.ok, hadd.settled⟩
  | assert _ hground hl hfree ih =>
    obtain ⟨F, hok, hsettled⟩ := ih
    have hlt := Nat.lt_of_lt_of_eq hl hok.numVars.symm
    exact ⟨_, hok.assignGround hground hl hfree fun α => Iff.rfl,
      hsettled.assign hok.inOrder.ok.trail hlt hfree none⟩
  | propagate _ he ih =>
    obtain ⟨F, hok, hsettled⟩ := ih
    obtain ⟨hin, hg, hqueue, hnone, -⟩ := Propagator.propagate_spec hok.inOrder hsettled he
    exact ⟨F, ⟨hok.grow hin hg, hnone rfl⟩, hqueue⟩
  | fail _ he ih =>
    obtain ⟨F, hok, hsettled⟩ := ih
    obtain ⟨hin, hg, -, -, hsome⟩ := Propagator.propagate_spec hok.inOrder hsettled he
    exact ⟨F, hok.grow hin hg, hsome _ rfl⟩
  | learn _ he ih =>
    obtain ⟨F, hok, hconflict⟩ := ih
    obtain ⟨-, -, hmore⟩ := hok.learn hconflict he
    exact ⟨F, (hmore rfl).1⟩
  | simplify _ ih =>
    obtain ⟨F, hpoised, hqueue⟩ := ih
    obtain ⟨hok, ht⟩ := hpoised.ok.simplify
    exact ⟨F, hpoised.of_tidied hok hqueue ht⟩
  | reduce _ ih =>
    obtain ⟨F, hpoised, hqueue⟩ := ih
    obtain ⟨hok, ht⟩ := hpoised.ok.reduceLearnts
    exact ⟨F, hpoised.of_tidied hok hqueue ht⟩
  | openLevel _ ih =>
    obtain ⟨F, hpoised, hqueue⟩ := ih
    exact ⟨F, hpoised.withLimits (hpoised.idle hqueue).newLevel, hqueue⟩
  | decide _ hl hfree hwaits ih =>
    obtain ⟨F, hpoised, hqueue⟩ := ih
    exact ⟨F, hpoised.decide (hpoised.idle hqueue) hl hfree hwaits rfl rfl rfl⟩
  | backtrack target _ ih =>
    obtain ⟨F, hpoised⟩ := ih
    exact ⟨F, hpoised.backtrack target⟩
  | pause _ ih =>
    obtain ⟨F, hpoised, -⟩ := ih
    exact ⟨F, hpoised⟩
  | requeue _ hwaits ih => exact ih.requeue hwaits
  | note _ hp hl hq hm ih => exact ih.congr hp hl hq hm

/-! ## What a state stands for -/

/-- Learnt clauses rule no model out. -/
theorem Ok.models_iff (h : s.Ok n F) {α : Assignment} :
    s.propagator.ModelsProblem α ↔ s.propagator.Models α :=
  ⟨fun hα => h.sound α (h.complete α hα), fun hα => hα.problem⟩

/-- The accepted assignments are the models. -/
theorem Ok.canonical (h : s.Ok n F) : s.Ok n s.propagator.ModelsProblem :=
  ⟨h.numVars, h.inOrder, fun _ hα => h.models_iff.1 hα, fun _ hα => hα, h.listed, h.waits, h.marks⟩

theorem Reachable.poised (h : Reachable n .ready s) : s.Poised n s.propagator.ModelsProblem := by
  obtain ⟨F, hok, hsettled⟩ := h.invariant
  exact ⟨hok.canonical, hsettled⟩

theorem Reachable.idle (h : Reachable n .stable s) : s.propagator.Idle := by
  obtain ⟨F, hpoised, hqueue⟩ := h.invariant
  exact hpoised.idle hqueue

theorem Reachable.ok {stage : Stage} (h : Reachable n stage s) :
    s.Ok n s.propagator.ModelsProblem := by
  have hinv := h.invariant
  cases stage with
  | ready =>
    obtain ⟨F, hpoised⟩ := hinv
    exact hpoised.ok.canonical
  | stable =>
    obtain ⟨F, hpoised, -⟩ := hinv
    exact hpoised.ok.canonical
  | conflict r =>
    obtain ⟨F, hok, -⟩ := hinv
    exact hok.canonical

theorem Reachable.isConflict {r : ClauseRef} (h : Reachable n (.conflict r) s) :
    s.propagator.IsConflict r := by
  obtain ⟨F, -, hconflict⟩ := h.invariant
  exact hconflict

/-! ## The states after single steps -/

/-- The state after a clause was stored. -/
def stored (s : Search) (first second : Lit) (rest : List Lit) : Search :=
  let lits := (first :: second :: rest).toArray
  { s with
    propagator := s.propagator.withClause lits false 0 first second
    lists := (s.lists.addClause s.propagator.arena lits).2.1 }

/-- The state after a round of propagation. -/
def propagated (s : Search) : Search := { s with propagator := s.propagator.propagate.2 }

/-- The state after a decision. -/
def decided (s : Search) (l : Lit) : Search :=
  { s with propagator := { s.propagator with trail := s.propagator.trail.newLevel.assign l none } }

section

variable {first second l : Lit} {rest : List Lit}

/-- A clause in strict order, without a true or a false literal, is stored as it is. -/
theorem addClause_of_ascending (hsorted : Ascending (first :: second :: rest))
    (hfalse : ∀ l ∈ first :: second :: rest, s.propagator.trail.isFalse l = false)
    (hopen : holdsAlready s.propagator.trail none (first :: second :: rest) = false) :
    s.addClause (first :: second :: rest) =
      (.stored s.propagator.nextName, s.stored first second rest) := by
  have hkept : (first :: second :: rest).filter (fun l => !s.propagator.trail.isFalse l) =
      first :: second :: rest :=
    List.filter_eq_self.2 fun l hl => by rw [hfalse l hl]; rfl
  unfold Search.addClause
  dsimp only
  rw [hsorted.sortLits_eq, hkept, hopen]
  rfl

theorem Reachable.stored (h : Reachable n .ready s) (hground : s.propagator.trail.level = 0)
    (hvars : ∀ l ∈ first :: second :: rest, l.var < n)
    (hsorted : (first :: second :: rest).Pairwise fun l m => l.code < m.code)
    (hfalse : ∀ l ∈ first :: second :: rest, s.propagator.trail.isFalse l = false)
    (hopen : holdsAlready s.propagator.trail none (first :: second :: rest) = false) :
    Reachable n .ready (s.stored first second rest) :=
  h.store hground hvars (addClause_of_ascending hsorted hfalse hopen)

theorem Reachable.propagated (h : Reachable n .ready s)
    (hnone : s.propagator.propagate.1 = none) : Reachable n .stable s.propagated :=
  h.propagate (Prod.ext hnone rfl)

theorem Reachable.failed {r : ClauseRef} (h : Reachable n .ready s)
    (hsome : s.propagator.propagate.1 = some r) : Reachable n (.conflict r) s.propagated :=
  h.fail (Prod.ext hsome rfl)

theorem Reachable.decided (h : Reachable n .stable s) (hl : l.var < n)
    (hfree : s.propagator.trail.isFree l.var = true) : Reachable n .ready (s.decided l) :=
  h.decide hl hfree (h.ok.waits.mono fun _ _ hv => hv.2)

end

/-! ## A small search -/

/-- Three variables and two clauses: if the first two variables are true, the third one is both true
    and false. -/
def small : Search :=
  ((newVars 3 (empty {})).stored ⟨1⟩ ⟨3⟩ [⟨4⟩]).stored ⟨1⟩ ⟨3⟩ [⟨5⟩]

/-- The first two variables were decided, and the second one waits for its propagation. -/
def cornered : Search := (small.propagated.decided ⟨0⟩).propagated.decided ⟨2⟩

/-- The conflict was learnt from: the first variable is still true, and because of a new clause the
    second one is not. -/
def taught : Search := (cornered.propagated.learn (.start {} 2) ⟨1⟩).2.2

/-- The third variable was made true at ground level, which satisfies the first of the two clauses. -/
def satisfied : Search :=
  propagated { small with propagator := small.propagator.assign ⟨4⟩ none }

theorem reachable_small : Reachable 3 .ready small := by
  have hfirst : Reachable 3 .ready ((newVars 3 (empty {})).stored ⟨1⟩ ⟨3⟩ [⟨4⟩]) :=
    (Reachable.start {}).stored (by decide +kernel) (by decide +kernel) (by decide +kernel)
      (by decide +kernel) (by decide +kernel)
  exact hfirst.stored (by decide +kernel) (by decide +kernel) (by decide +kernel)
    (by decide +kernel) (by decide +kernel)

theorem reachable_satisfied : Reachable 3 .stable satisfied :=
  (reachable_small.assert (l := ⟨4⟩) (by decide +kernel) (by decide) (by decide +kernel)).propagated
    (by decide +kernel)

theorem reachable_cornered : Reachable 3 .ready cornered := by
  have hfirst : Reachable 3 .ready (small.propagated.decided ⟨0⟩) :=
    (reachable_small.propagated (by decide +kernel)).decided (by decide) (by decide +kernel)
  exact (hfirst.propagated (by decide +kernel)).decided (by decide) (by decide +kernel)

theorem reachable_taught : Reachable 3 .ready taught := by
  have hlearnt : (cornered.propagated.learn (.start {} 2) ⟨1⟩).1 = true := by decide +kernel
  exact (reachable_cornered.failed (by decide +kernel)).learn (Prod.ext hlearnt rfl)

end Search

end ConfigSampler
