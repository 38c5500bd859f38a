import ConfigSampler.Formula.Cnf
import ConfigSampler.Solver.Interface

/-!
# The solver

A `Solver` is an incremental solver over the variables of a formula: clauses can be added between
solves, and solves can be made under assumptions.  Every operation leaves it ready for the next
one, and learnt clauses are kept.
-/

set_option autoImplicit false

namespace ConfigSampler

/-- An incremental solver. -/
structure Solver where
  /-- The clause set is not known to be contradictory. -/
  consistent : Bool
  search : Search
  budget : Budget

namespace Solver

/-- The number of variables. -/
def numVars (s : Solver) : Nat := s.search.numVars

/-- The number of problem clauses. -/
def numClauses (s : Solver) : Nat := s.search.numClauses

/-- The clause set is known to be contradictory. -/
def isContradicted (s : Solver) : Bool := !s.consistent

/-- The counters. -/
def stats (s : Solver) : SolverStats := s.search.stats

/-- Adds a clause, unless the clause set is contradictory already. -/
def insert (s : Solver) (lits : List Lit) : Solver :=
  if s.consistent then
    match s.search.addClause lits with
    | (.contradiction, search) => { s with consistent := false, search := search }
    | (_, search) => { s with search := search }
  else s

/-- A solver for the clauses of a formula. -/
def ofCnf (cnf : Cnf) (settings : SolverSettings) : Solver :=
  let start : Solver := ⟨true, Search.newVars cnf.size (Search.empty settings), {}⟩
  cnf.clauses.toList.foldl (fun s clause => s.insert (clause.literals.map Lit.ofInt)) start

/-- The literals in the solver's terms.  The first that belongs to no variable is the error. -/
def toLits (s : Solver) (lits : List Int) : Except SampleError (List Lit) :=
  match Cnf.checkLiteralsWithin s.numVars lits with
  | .ok () => .ok (lits.map Lit.ofInt)
  | .error e => .error e

/-- Adds a clause for good. -/
def addClause (s : Solver) (lits : List Int) : Except SampleError ClauseEffect × Solver :=
  match s.toLits lits with
  | .error e => (.error e, s)
  | .ok clause =>
    let s := s.insert clause
    if s.consistent then (.ok .consistent, s)
    else (.ok .contradiction, { s with search := s.search.report (.clauseContradicts lits) })

/-- The answer that a verdict of the search stands for, over so many variables. -/
def answerOf (numVars : Nat) : Verdict → Answer
  | .satisfiable model => .model (LiteralSet.ofModel (model.map Lit.toInt) numVars .indexed)
  | .unsatisfiable => .noModel
  | .assumptionsFail => .noModel
  | .interrupted _ => .interrupted
  | .outOfSteps => .outOfSteps

/-- Takes up what the search came to: a contradiction that involves no assumption holds for good,
    and an interrupted search is reported. -/
def conclude (s : Solver) : Verdict → Solver
  | .unsatisfiable => { s with consistent := false }
  | .interrupted progress => { s with search := s.search.report (.solveInterrupted progress) }
  | _ => s

/-- Looks for a model of the clauses that makes the assumptions true. -/
def solve (s : Solver) (assumptions : List Int) : Except SampleError Answer × Solver :=
  match s.toLits assumptions with
  | .error e => (.error e, s)
  | .ok lits =>
    if !s.consistent then (.ok .noModel, s)
    else
      match s with
      | ⟨consistent, search, budget⟩ =>
        let (verdict, search) := search.run budget lits.toArray
        let s : Solver := ⟨consistent, search, budget⟩
        (.ok (answerOf s.numVars verdict), s.conclude verdict)

/-- Redraws the order of decisions. -/
def shuffle (s : Solver) (rand : Random) : Solver × Random :=
  match s with
  | ⟨consistent, search, budget⟩ =>
    let trail := search.propagator.trail
    let (queue, rand) := search.queue.shuffle rand trail
    (⟨consistent, { search with queue := queue }, budget⟩, rand)

/-- The polarity of free decisions. -/
def polarity (s : Solver) : Polarity := s.search.queue.settings.polarity

/-- Chooses the polarity of free decisions. -/
def setPolarity (s : Solver) (polarity : Polarity) : Solver :=
  match s with
  | ⟨consistent, search, budget⟩ =>
    let queue := search.queue
    let settings := { queue.settings with polarity := polarity }
    ⟨consistent, { search with queue := { queue with settings := settings } }, budget⟩

/-- Changes the budget. -/
def withBudget (s : Solver) (change : Budget → Budget) : Solver :=
  { s with budget := change s.budget }

/-- Gives the solver a flag that stops its solves. -/
def setInterrupted (s : Solver) (flag : Flag) : Solver :=
  s.withBudget fun b => { b with interrupted := flag }

/-- How often solves have looked at the flag. -/
def looks (s : Solver) : Nat := s.search.looks

/-- A solve that looks at the given flag in the place of the solver's own, if there is one. -/
def solveSharing (s : Solver) (flag? : Option Flag) (assumptions : List Int) :
    Except SampleError Answer × Solver :=
  let own := s.budget
  let (answer, s) := (s.withBudget fun b => b.sharing flag?).solve assumptions
  (answer, s.withBudget fun _ => own)

/-- Takes the events out that were noted since this was done last. -/
def takeEvents (s : Solver) : Journal × Solver :=
  match s with
  | ⟨consistent, search, budget⟩ =>
    let journal := search.journal
    (journal, ⟨consistent, { search with journal := #[] }, budget⟩)

instance : SatSolver Solver where
  addClause := addClause
  solve := solveSharing
  looks := looks
  shuffle := shuffle
  setPolarity := setPolarity
  isContradicted := isContradicted
  stats := stats
  takeEvents := takeEvents

end Solver

end ConfigSampler
