import ConfigSampler.Error
import ConfigSampler.Formula.LiteralSet
import ConfigSampler.Journal
import ConfigSampler.Random
import ConfigSampler.Solver.Search

/-!
# What a sampling run asks of a solver

`SatSolver` lists the operations that strategies and the sampling loop use, so that both can be
run, and reasoned about, with any solver.
-/

set_option autoImplicit false

namespace ConfigSampler

/-- The answer to a solve. -/
inductive Answer where
  /-- A full assignment, indexed by variable. -/
  | model (config : LiteralSet)
  | noModel
  /-- The budget ran out. -/
  | interrupted
  | outOfSteps
deriving DecidableEq, Repr

/-- The effect of a clause on the clause set. -/
inductive ClauseEffect where
  | consistent
  /-- The clause set can no longer be satisfied. -/
  | contradiction
deriving DecidableEq, Repr

/-- The name of an effect. -/
def ClauseEffect.name : ClauseEffect → String
  | .consistent => "Consistent"
  | .contradiction => "Contradiction"

/-- An incremental solver that owns its clause set. -/
class SatSolver (S : Type) where
  /-- Adds a clause for good; fails only on a literal that belongs to no variable. -/
  addClause : S → List Int → Except SampleError ClauseEffect × S
  /-- Looks for a model of the clauses and the assumptions.  A flag that others share stands in the
      place of the solver's own. -/
  solve : S → Option Flag → List Int → Except SampleError Answer × S
  /-- How often solves have looked at the flag. -/
  looks : S → Nat
  /-- Redraws the order of decisions. -/
  shuffle : S → Random → S × Random
  /-- Chooses the polarity of free decisions. -/
  setPolarity : S → Polarity → S
  /-- The clause set is known to be contradictory. -/
  isContradicted : S → Bool
  /-- The counters. -/
  stats : S → SolverStats
  /-- Takes the events out that were noted since this was done last. -/
  takeEvents : S → Journal × S

end ConfigSampler
