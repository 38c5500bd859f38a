import ConfigSampler.Journal
import ConfigSampler.Solver.Budget
import ConfigSampler.Solver.ClauseLists
import ConfigSampler.Solver.DecisionQueue
import ConfigSampler.Solver.Learning
import ConfigSampler.Solver.Restart

/-!
# Conflict-driven search

The search decides literals, propagates, and learns a clause from every conflict until every
variable has a value, the assumptions fail, or the clauses are found contradictory.  It starts over
after a growing number of conflicts, deletes learnt clauses of little use, and compacts the arena
when too much of it is garbage.

`Search` is the state that outlives a search; between searches it rests at ground level.  Loops
whose end is not visible in their arguments take a number of steps, and running out of it is an
outcome of its own, never an answer.
-/

set_option autoImplicit false

namespace ConfigSampler

/-- Counters of a solver's work. -/
structure SolverStats where
  solves : Nat := 0
  restarts : Nat := 0
  decisions : Nat := 0
  randomDecisions : Nat := 0
  conflicts : Nat := 0
  propagations : Nat := 0
  learntLiterals : Nat := 0
  droppedLiterals : Nat := 0
deriving DecidableEq, Repr

/-- The limit on the number of learnt clauses during one search. -/
structure LearntLimit where
  settings : LearntSettings
  limit : Float
  /-- The number of conflicts before the limit grows, before rounding. -/
  interval : Float
  /-- The number of conflicts left before the limit grows, a signed word that wraps around. -/
  left : Int32

namespace LearntLimit

/-- The limit at the start of a search over the given number of clauses. -/
def start (settings : LearntSettings) (clauses : Nat) : LearntLimit where
  settings := settings
  limit := Floating.maximum (Float.ofNat clauses * settings.share)
    (Floating.ofInteger settings.minimum)
  interval := Floating.ofInteger settings.firstInterval
  left := .ofInt settings.firstInterval

/-- Counts a conflict and says whether the limit grew. -/
def step (g : LearntLimit) : Bool × LearntLimit :=
  let left := g.left - 1
  if left = 0 then
    let interval := g.interval * g.settings.intervalGrowth
    (true, { g with
      interval := interval
      left := .ofInt (Floating.toInt32 interval)
      limit := g.limit * g.settings.growth })
  else (false, { g with left := left })

end LearntLimit

/-- The state of a solver between and during searches. -/
structure Search where
  settings : SolverSettings
  propagator : Propagator
  lists : ClauseLists
  queue : DecisionQueue
  marks : Marks
  solves : Nat
  starts : Nat
  decisions : Nat
  conflicts : Nat
  /-- The numbers of literals of all learnt clauses before and after shortening. -/
  rawLiterals : Nat
  keptLiterals : Nat
  /-- The number of ground literals at the latest simplification. -/
  simplifiedAt : Option Nat
  /-- The number of propagations before the next simplification. -/
  simplifyAfter : Nat
  /-- How often searches have looked at the flag of their budget. -/
  looks : Nat
  journal : Journal

/-- How an attempt of a search ended. -/
inductive Attempt where
  | satisfiable
  | unsatisfiable
  | assumptionsFail
  | restart
  /-- The budget ran out; the number tells how far the search had come. -/
  | interrupted (progress : Float)
  | outOfSteps

/-- How a search ended. -/
inductive Verdict where
  | satisfiable (model : List Lit)
  | unsatisfiable
  | assumptionsFail
  | interrupted (progress : Float)
  | outOfSteps

/-- What a clause adds to a search. -/
inductive Addition where
  /-- The clauses are contradictory now. -/
  | contradiction
  /-- The clause holds at ground level. -/
  | absorbed
  | stored (clause : ClauseRef)

namespace Search

/-- A search without variables and clauses. -/
def empty (settings : SolverSettings) : Search where
  settings := settings
  propagator := Propagator.empty
  lists := ClauseLists.empty settings.clause
  queue := DecisionQueue.empty settings.decision
  marks := #[]
  solves := 0
  starts := 0
  decisions := 0
  conflicts := 0
  rawLiterals := 0
  keptLiterals := 0
  simplifiedAt := none
  simplifyAfter := 0
  looks := 0
  journal := #[]

/-- The number of variables. -/
def numVars (s : Search) : Nat := s.propagator.trail.numVars

/-- The number of problem clauses. -/
def numClauses (s : Search) : Nat := s.lists.numClauses

/-- The counters. -/
def stats (s : Search) : SolverStats where
  solves := s.solves
  restarts := s.starts
  decisions := s.decisions
  randomDecisions := s.queue.randomDecisions
  conflicts := s.conflicts
  propagations := s.propagator.propagations
  learntLiterals := s.keptLiterals
  droppedLiterals := s.rawLiterals - s.keptLiterals

/-- Adds an event to the journal. -/
def report (s : Search) (event : Event) : Search :=
  { s with journal := s.journal.push event }

/-- Adds a variable. -/
def newVar (s : Search) : Search :=
  { s with
    propagator := s.propagator.newVar
    queue := s.queue.newVar
    marks := s.marks.push .unseen }

/-- Adds variables. -/
def newVars : Nat → Search → Search
  | 0, s => s
  | n + 1, s => newVars n s.newVar

/-! ## Adding clauses -/

/-- Literals in order of their codes, each once. -/
def sortLits (lits : List Lit) : List Lit :=
  (lits.mergeSort fun a b => a.code ≤ b.code).eraseReps

/-- The first of ordered literals that is true, or that follows its complement. -/
def holdsAlready (trail : Trail) : Option Lit → List Lit → Bool
  | _, [] => false
  | last, l :: rest =>
    trail.isTrue l || last == some l.negate || holdsAlready trail (some l) rest

/-- Adds a clause at ground level. -/
def addClause (s : Search) (lits : List Lit) : Addition × Search :=
  let trail := s.propagator.trail
  let lits := (sortLits lits).filter fun l => !trail.isFalse l
  if holdsAlready trail none lits then (.absorbed, s)
  else
    match lits with
    | [] => (.contradiction, s)
    | [l] =>
      match (s.propagator.assign l none).propagate with
      | (none, p) => (.absorbed, { s with propagator := p })
      | (some _, p) => (.contradiction, { s with propagator := p })
    | first :: second :: _ =>
      let p := s.propagator
      let (r, lists, arena) := s.lists.addClause p.arena lits.toArray
      let p := { p with arena := arena, watches := WatchTable.attach p.watches r first second }
      (.stored r, { s with propagator := p, lists := lists })

/-! ## Going back -/

/-- Undoes the levels above `level`; variables that lose their value wait again. -/
def backtrack (s : Search) (level : Nat) : Search :=
  let p := s.propagator
  let (trail, removed) := p.trail.rewindTo level
  let vars := removed.toList.map fun (_, l) => l.var
  { s with propagator := { p with trail := trail }, queue := s.queue.insertAll vars }

/-! ## Housekeeping -/

/-- Compacts the arena if too much of it is garbage. -/
def collectGarbage (s : Search) : Search :=
  if s.propagator.arena.hasGarbage s.settings.garbageShare then
    let before := s.propagator.arena.size
    let (lists, p) := compact s.lists s.propagator
    let after := p.arena.size
    { s with lists := lists, propagator := p, journal := s.journal.push (.compacted before after) }
  else s

/-- Deletes learnt clauses of little use. -/
def reduceLearnts (s : Search) : Search :=
  let (lists, p) := s.lists.reduce s.propagator
  collectGarbage { s with lists := lists, propagator := p }

/-- Nothing changed at ground level since the latest simplification, or it is too early for the
    next one. -/
def skipsSimplification (s : Search) : Bool :=
  s.simplifiedAt == some s.propagator.trail.size
    || s.propagator.propagations < s.simplifyAfter

/-- Deletes clauses that the ground level satisfies and shortens the others. -/
def simplify (s : Search) : Search :=
  if !s.propagator.trail.atGround || s.skipsSimplification then s
  else
    let (lists, p) := s.lists.removeSatisfied s.propagator
    let s := collectGarbage { s with lists := lists, propagator := p }
    { s with
      queue := s.queue.rebuild s.propagator.trail
      simplifiedAt := some s.propagator.trail.size
      simplifyAfter :=
        s.propagator.propagations + (s.lists.clauseLiterals + s.lists.learntLiterals) }

/-! ## Conflicts -/

/-- The line of the search table for the present state. -/
def row (s : Search) (limit : LearntLimit) : SearchRow where
  conflicts := s.conflicts
  freeVariables := s.queue.numVars - s.propagator.trail.groundSize
  clauses := s.lists.numClauses
  clauseLiterals := s.lists.clauseLiterals
  learntLimit := Floating.toCount limit.limit
  learnts := s.lists.numLearnts
  literalsPerLearnt := Float.ofNat s.lists.learntLiterals / Float.ofNat s.lists.numLearnts
  progress := s.propagator.trail.progress

/-- Takes up an analysis: its marks, its counts, and the activity of what it came across. -/
def absorb (s : Search) (a : Analysis) : Search :=
  let p := s.propagator
  let (lists, arena) := s.lists.bumpAll p.arena a.usedClauses
  { s with
    propagator := { p with arena := arena }
    lists := lists
    queue := s.queue.bumpAll a.seenVars
    marks := a.marks
    rawLiterals := s.rawLiterals + a.before
    keptLiterals := s.keptLiterals + a.after }

/-- Goes back to the level of a lesson and makes its first literal true. -/
def follow (s : Search) : Lesson → Search
  | .contradiction => s
  | .unit l =>
    let s := s.backtrack 0
    { s with propagator := s.propagator.assign l none }
  | .clause level lits =>
    let s := s.backtrack level
    let first := lits.getD 0 default
    let second := lits.getD 1 default
    let p := s.propagator
    let (r, lists, arena) := s.lists.learnClause p.arena lits
    let p := { p with arena := arena, watches := WatchTable.attach p.watches r first second }
    { s with propagator := p.assign first (some r), lists := lists }

/-- Lets all activity weigh less, and raises the limit on learnt clauses when it is time. -/
def settle (s : Search) (limit : LearntLimit) : LearntLimit × Search :=
  let s := { s with queue := s.queue.decay, lists := s.lists.decay }
  let (grew, limit) := limit.step
  if grew then (limit, s.report (.learntLimitRaised (s.row limit))) else (limit, s)

/-- Learns from a conflict; a conflict at ground level is a contradiction. -/
def learn (s : Search) (limit : LearntLimit) (conflict : ClauseRef) :
    Bool × LearntLimit × Search :=
  let marks := s.marks
  let s := { s with marks := #[], conflicts := s.conflicts + 1 }
  let a := analyze s.settings.minimisation s.propagator.trail s.propagator.arena marks conflict
  let s := s.absorb a
  match a.lesson with
  | .contradiction => (false, limit, s)
  | lesson =>
    let (limit, s) := (s.follow lesson).settle limit
    (true, limit, s)

/-- How a round of propagation and learning ended. -/
inductive Round where
  /-- The queue is empty and no clause is false. -/
  | stable
  | contradiction
  | outOfSteps
deriving DecidableEq, Repr

/-- Propagates, and learns from conflicts until there is none.  Every conflict but the last goes
    back to a lower level, so the number of levels bounds the rounds. -/
def stabilise : Nat → LearntLimit → Search → Round × LearntLimit × Search
  | 0, limit, s => (.outOfSteps, limit, s)
  | rounds + 1, limit, s =>
    match s.propagator.propagate with
    | (none, p) => (.stable, limit, { s with propagator := p })
    | (some conflict, p) =>
      match learn { s with propagator := p } limit conflict with
      | (false, limit, s) => (.contradiction, limit, s)
      | (true, limit, s) => stabilise rounds limit s

/-! ## Decisions -/

/-- What to do next. -/
inductive Decision where
  | assumptionFails
  | allAssigned
  | decide (l : Lit)

/-- Opens a level for each assumption that is true already, up to the first that is not.  The
    first argument is the number of assumptions without a level. -/
def nextAssumption (assumptions : Array Lit) : Nat → Trail → Option Decision × Trail
  | 0, t => (none, t)
  | n + 1, t =>
    let l := assumptions.getD t.level default
    match t.value l with
    | .isTrue => nextAssumption assumptions n t.newLevel
    | .isFalse => (some .assumptionFails, t)
    | .unset => (some (.decide l), t)

/-- The next assumption without a value, or else the choice of the queue. -/
def nextDecision (s : Search) (assumptions : Array Lit) : Decision × Search :=
  let p := s.propagator
  match nextAssumption assumptions (assumptions.size - p.trail.level) p.trail with
  | (some decision, trail) => (decision, { s with propagator := { p with trail := trail } })
  | (none, trail) =>
    let (choice, queue) := s.queue.pickLit trail
    let s := { s with
      propagator := { p with trail := trail }
      queue := queue
      decisions := s.decisions + 1 }
    match choice with
    | none => (.allAssigned, s)
    | some l => (.decide l, s)

/-! ## The loops -/

/-- What a search is asked: the assumptions, the budget, and the counters at its start. -/
structure Query where
  assumptions : Array Lit
  budget : Budget
  startConflicts : Nat
  startPropagations : Nat
  startLooks : Nat

/-- The budget allows the search to go on, as the next look at its flag finds it. -/
def affords (s : Search) (query : Query) : Bool :=
  (query.budget.after (s.looks - query.startLooks)).within (s.conflicts - query.startConflicts)
    (s.propagator.propagations - query.startPropagations)

/-- Counts a look at the flag. -/
def looked (s : Search) : Search := { s with looks := s.looks + 1 }

/-- There are too many learnt clauses. -/
def isOverfull (s : Search) (limit : LearntLimit) : Bool :=
  Float.ofNat s.lists.learnts.size ≥ limit.limit + Float.ofNat s.propagator.trail.size

/-- One attempt: searches up to the given total number of conflicts. -/
def attempt (query : Query) (conflictLimit : Nat) :
    Nat → LearntLimit → Search → Attempt × LearntLimit × Search
  | 0, limit, s => (.outOfSteps, limit, s)
  | steps + 1, limit, s =>
    match stabilise (s.propagator.trail.level + 2) limit s with
    | (.outOfSteps, limit, s) => (.outOfSteps, limit, s)
    | (.contradiction, limit, s) => (.unsatisfiable, limit, s)
    | (.stable, limit, s) =>
      let goesOn := s.affords query
      let s := s.looked
      if !goesOn then
        let progress := s.propagator.trail.progress
        (.interrupted progress, limit, s.backtrack 0)
      else if conflictLimit ≤ s.conflicts then (.restart, limit, s.backtrack 0)
      else
        let s := s.simplify
        let s := if s.isOverfull limit then s.reduceLearnts else s
        match s.nextDecision query.assumptions with
        | (.assumptionFails, s) => (.assumptionsFail, limit, s)
        | (.allAssigned, s) => (.satisfiable, limit, s)
        | (.decide l, s) =>
          let p := s.propagator
          let p := { p with trail := p.trail.newLevel.assign l none }
          attempt query conflictLimit steps limit { s with propagator := p }

/-- The total number of conflicts up to which the attempt after so many restarts may search, a sum of
    64-bit words, which wraps around. -/
def conflictLimit (s : Search) (restarts : UInt32) : Nat :=
  (UInt64.ofNat s.conflicts + .ofNat (s.settings.restart.limit restarts.toNat)).toNat

/-- Attempts with growing limits on conflicts until one comes to a result. -/
def attempts (query : Query) : Nat → UInt32 → LearntLimit → Search → Verdict × Search
  | 0, _, _, s => (.outOfSteps, s)
  | steps + 1, restarts, limit, s =>
    let conflictLimit := s.conflictLimit restarts
    let stepLimit := s.settings.stepLimit
    match attempt query conflictLimit stepLimit limit { s with starts := s.starts + 1 } with
    | (.restart, limit, s) => attempts query steps (restarts + 1) limit s
    | (.satisfiable, _, s) => (.satisfiable s.propagator.trail.model, s)
    | (.unsatisfiable, _, s) => (.unsatisfiable, s)
    | (.assumptionsFail, _, s) => (.assumptionsFail, s)
    | (.interrupted progress, _, s) => (.interrupted progress, s)
    | (.outOfSteps, _, s) => (.outOfSteps, s)

/-- Searches for a model of the clauses and the assumptions within the budget, and comes back to
    ground level. -/
def run (s : Search) (budget : Budget) (assumptions : Array Lit) : Verdict × Search :=
  let s := s.report (.searchStarted assumptions.size s.lists.learnts.size)
  let s := { s with solves := s.solves + 1 }
  let limit := LearntLimit.start s.settings.learnt s.lists.numClauses
  let query : Query := ⟨assumptions, budget, s.conflicts, s.propagator.propagations, s.looks⟩
  let (verdict, s) := attempts query s.settings.stepLimit 0 limit s
  (verdict, s.backtrack 0)

end Search

end ConfigSampler
