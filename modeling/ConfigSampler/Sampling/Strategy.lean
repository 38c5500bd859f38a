import ConfigSampler.Arithmetic.Count
import ConfigSampler.Sampling.Monitor
import ConfigSampler.Solver.Interface

/-!
# Sampling strategies

A strategy decides which configurations a sample consists of.  It works in steps, each of which
may ask the solver, draw random numbers and report work, and yields some configurations, nothing
yet, or the end of the run.
-/

set_option autoImplicit false

namespace ConfigSampler

/-- Settings of a sampling run. -/
structure SampleSettings where
  maxSize : Nat := maxCount
  allowDuplicates : Bool := false
  seed : Nat := 0
  /-- The number of steps after which the run gives up. -/
  stepLimit : Nat := unboundedSteps
deriving DecidableEq, Repr

/-- Candidate counts of a covering run.

    A run stopped by the size limit counts the candidates it never reached without solving them, so
    `uncovered` may then hold combinations that are infeasible. -/
structure Coverage where
  candidates : Nat := 0
  covered : Nat := 0
  infeasible : Nat := 0
  uncovered : Nat := 0
deriving DecidableEq, Repr

/-- The covered share of the feasible candidates. -/
def Coverage.ratio (c : Coverage) : Float :=
  let feasible := c.candidates - c.infeasible
  if feasible = 0 then 1.0 else Float.ofNat c.covered / Float.ofNat feasible

/-- What a step comes to. -/
inductive Step where
  /-- Configurations to accept, in order. -/
  | batch (configs : List LiteralSet)
  /-- Nothing is ready yet. -/
  | pending
  | done
  | exhausted

/-- The answer to a solve made during a run. -/
inductive Solved where
  | model (config : LiteralSet)
  | noModel
  | cancelled

/-- What a strategy works with: the solver, the random source and the monitor of the run, and the
    events so far. -/
structure Context (S σ : Type) where
  solver : S
  rand : Random
  monitor : σ
  journal : Journal

namespace Context

variable {S σ : Type} [SatSolver S] [Monitor σ]

/-- Applies an operation of the solver and takes up the events it noted. -/
@[inline]
def withSolver {α : Type} (cx : Context S σ) (operation : S → α × S) : α × Context S σ :=
  match cx with
  | ⟨solver, rand, monitor, journal⟩ =>
    let (result, solver) := operation solver
    let (events, solver) := SatSolver.takeEvents solver
    (result, ⟨solver, rand, monitor, journal ++ events⟩)

/-- Adds an event. -/
def report (cx : Context S σ) (event : Event) : Context S σ :=
  { cx with journal := cx.journal.push event }

/-- Announces the work that is left. -/
def announce (cx : Context S σ) (work : Nat) : Context S σ :=
  let (monitor, events) := Monitor.announce cx.monitor work
  { cx with monitor := monitor, journal := cx.journal ++ events }

/-- Reports work. -/
def worked (cx : Context S σ) (work : Nat) : Context S σ :=
  let (monitor, events) := Monitor.worked cx.monitor work
  { cx with monitor := monitor, journal := cx.journal ++ events }

/-- Reports that a configuration was accepted. -/
def step (cx : Context S σ) : Context S σ :=
  let (monitor, events) := Monitor.step cx.monitor
  { cx with monitor := monitor, journal := cx.journal ++ events }

/-- Asks the monitor whether the run is to stop. -/
def poll (cx : Context S σ) : Bool × Context S σ :=
  let (stop, monitor) := Monitor.poll cx.monitor
  (stop, { cx with monitor := monitor })

/-- Redraws the solver's order of decisions from the random source of the run. -/
def shuffle (cx : Context S σ) : Context S σ :=
  match cx with
  | ⟨solver, rand, monitor, journal⟩ =>
    let (solver, rand) := SatSolver.shuffle solver rand
    ⟨solver, rand, monitor, journal⟩

/-- Adds a clause to the solver. -/
def addClause (cx : Context S σ) (lits : List Int) :
    Except SampleError ClauseEffect × Context S σ :=
  cx.withSolver fun solver => SatSolver.addClause solver lits

/-- A solve under assumptions that looks at the monitor's flag.  The monitor is left as the last look
    found it. -/
def ask (cx : Context S σ) (assumptions : List Int) :
    Except SampleError Answer × Context S σ :=
  match cx with
  | ⟨solver, rand, monitor, journal⟩ =>
    let before := SatSolver.looks solver
    let (answer, solver) := SatSolver.solve solver (Monitor.sharedFlag monitor) assumptions
    let monitor := Monitor.elapse monitor (SatSolver.looks solver - before)
    let (events, solver) := SatSolver.takeEvents solver
    (answer, ⟨solver, rand, monitor, journal ++ events⟩)

/-- Solves under assumptions.  An interrupted solve counts as cancelled if the monitor wants the run
    to stop, and otherwise as the end of a budget. -/
def solve (cx : Context S σ) (assumptions : List Int) :
    Except SampleError Solved × Context S σ :=
  match cx.ask assumptions with
  | (.error e, cx) => (.error e, cx)
  | (.ok (.model config), cx) => (.ok (.model config), cx)
  | (.ok .noModel, cx) => (.ok .noModel, cx)
  | (.ok .outOfSteps, cx) => (.error .stepLimitReached, cx)
  | (.ok .interrupted, cx) =>
    match cx.poll with
    | (true, cx) => (.ok .cancelled, cx)
    | (false, cx) => (.error .budgetExhausted, cx)

end Context

/-- A way to choose the configurations of a sample. -/
class Strategy (G : Type) where
  /-- The work to be expected for a sample of at most the given size; each accepted configuration
      is one unit of it. -/
  workEstimate : G → Nat → Nat
  /-- One step, given the settings of the run and the configurations accepted so far. -/
  step : {S σ : Type} → [SatSolver S] → [Monitor σ] → G → SampleSettings → Array LiteralSet →
    Context S σ → Except SampleError Step × G × Context S σ
  /-- The status of a run that is done or whose sample is full. -/
  finished : G → Completion
  /-- The candidate counts, for a covering strategy. -/
  coverage : G → Option Coverage

end ConfigSampler
