import ConfigSampler.Sampling.Strategy

/-!
# Sampling runs

A `Sampler` owns a solver, a strategy and a random source.  `Sampler.run` asks the strategy for
steps and accepts the configurations they yield, one unit of work each, until the strategy ends,
the sample is full, or the monitor asks to stop.  Unless duplicates are allowed, every accepted
configuration is excluded by a clause; a contradiction then means that none is left.
-/

set_option autoImplicit false

namespace ConfigSampler

/-- The result of a run. -/
structure Sample where
  configurations : Array LiteralSet
  completion : Completion
  coverage : Option Coverage
  stats : SolverStats

/-- A solver, a strategy and a random source. -/
structure Sampler (S G : Type) where
  solver : S
  strategy : G
  settings : SampleSettings
  rand : Random

namespace Sampler

variable {S G σ : Type}

/-- The sampler with the random source of the settings. -/
def start (solver : S) (strategy : G) (settings : SampleSettings) : Sampler S G :=
  ⟨solver, strategy, settings, Random.ofSeed settings.seed⟩

/-- A run in progress. -/
structure Progress (S G σ : Type) where
  strategy : G
  context : Context S σ
  accepted : Array LiteralSet

variable [SatSolver S] [Strategy G] [Monitor σ]

/-- The sample holds as many configurations as it may. -/
def isFull (settings : SampleSettings) (r : Progress S G σ) : Bool :=
  decide (settings.maxSize ≤ r.accepted.size)

/-- Takes a configuration into the sample and reports it. -/
def take (r : Progress S G σ) (config : LiteralSet) : Progress S G σ :=
  match r with
  | ⟨strategy, context, accepted⟩ =>
    ⟨strategy, (context.report (.accepted config)).step, accepted.push config⟩

/-- Excludes a configuration that was taken, and says how the run ends if that leaves none. -/
def exclude (settings : SampleSettings) (r : Progress S G σ) (config : LiteralSet) :
    Option (Except SampleError Completion) × Progress S G σ :=
  if settings.allowDuplicates then (none, r)
  else
    match r with
    | ⟨strategy, context, accepted⟩ =>
      match context.addClause config.negate.literals with
      | (.error e, context) => (some (.error e), ⟨strategy, context, accepted⟩)
      | (.ok .consistent, context) => (none, ⟨strategy, context, accepted⟩)
      | (.ok .contradiction, context) =>
        let r : Progress S G σ :=
          ⟨strategy, context.report (.noneLeft accepted.size), accepted⟩
        let completion := if isFull settings r then Strategy.finished strategy else .exhausted
        (some (.ok completion), r)

/-- Accepts configurations in order, up to the first point where the run ends or the sample is
    full. -/
def acceptAll (settings : SampleSettings) :
    List LiteralSet → Progress S G σ → Option (Except SampleError Completion) × Progress S G σ
  | [], r => (none, r)
  | config :: rest, r =>
    match r with
    | ⟨strategy, context, accepted⟩ =>
      match context.poll with
      | (true, context) => (some (.ok .cancelled), ⟨strategy, context, accepted⟩)
      | (false, context) =>
        let r : Progress S G σ := ⟨strategy, context, accepted⟩
        if isFull settings r then (none, r)
        else
          match exclude settings (take r config) config with
          | (some result, r) => (some result, r)
          | (none, r) => acceptAll settings rest r

/-- Asks for steps until the run ends.  The first argument bounds their number. -/
def loop (settings : SampleSettings) :
    Nat → Progress S G σ → Except SampleError Completion × Progress S G σ
  | 0, r => (.error .stepLimitReached, r)
  | steps + 1, r =>
    match r with
    | ⟨strategy, context, accepted⟩ =>
      match context.poll with
      | (true, context) => (.ok .cancelled, ⟨strategy, context, accepted⟩)
      | (false, context) =>
        if settings.maxSize ≤ accepted.size then
          (.ok (Strategy.finished strategy), ⟨strategy, context, accepted⟩)
        else
          match Strategy.step strategy settings accepted context with
          | (.error e, strategy, context) => (.error e, ⟨strategy, context, accepted⟩)
          | (.ok .pending, strategy, context) =>
            loop settings steps ⟨strategy, context, accepted⟩
          | (.ok .done, strategy, context) =>
            (.ok (Strategy.finished strategy), ⟨strategy, context, accepted⟩)
          | (.ok .exhausted, strategy, context) =>
            (.ok .exhausted, ⟨strategy, context, accepted⟩)
          | (.ok (.batch configs), strategy, context) =>
            match acceptAll settings configs ⟨strategy, context, accepted⟩ with
            | (some result, r) => (result, r)
            | (none, r) => loop settings steps r

/-- Samples with the given monitor; gives the result, the sampler and the monitor afterwards, and
    what there is to report. -/
def run (g : Sampler S G) (monitor : σ) :
    Except SampleError Sample × Sampler S G × σ × Journal :=
  match g with
  | ⟨solver, strategy, settings, rand⟩ =>
    let context : Context S σ := ⟨solver, rand, monitor, #[]⟩
    let context := context.announce (Strategy.workEstimate strategy settings.maxSize)
    match loop settings settings.stepLimit ⟨strategy, context, #[]⟩ with
    | (.error e, ⟨strategy, ⟨solver, rand, monitor, journal⟩, _⟩) =>
      (.error e, ⟨solver, strategy, settings, rand⟩, monitor, journal)
    | (.ok completion, ⟨strategy, ⟨solver, rand, monitor, journal⟩, accepted⟩) =>
      let journal := journal.push (.sampled accepted.size completion)
      let sample : Sample :=
        ⟨accepted, completion, Strategy.coverage strategy, SatSolver.stats solver⟩
      (.ok sample, ⟨solver, strategy, settings, rand⟩, monitor, journal)

end Sampler

end ConfigSampler
