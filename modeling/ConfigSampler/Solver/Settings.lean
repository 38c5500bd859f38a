/-!
# Solver settings
-/

set_option autoImplicit false

namespace ConfigSampler

/-- The polarity given to a variable that the solver decides freely. -/
inductive Polarity where
  | random
  | positive
  | negative
deriving DecidableEq, Repr

/-- The name of a polarity rule. -/
def Polarity.name : Polarity → String
  | .random => "Random"
  | .positive => "Positive"
  | .negative => "Negative"

/-- How a learnt clause is shortened. -/
inductive Minimisation where
  /-- Not at all. -/
  | none
  /-- A literal goes if its reason holds only literals that are in the clause anyway. -/
  | basic
  /-- A literal goes if it follows from the others along any chain of reasons. -/
  | deep
deriving DecidableEq, Repr

/-- The name of a way to shorten clauses. -/
def Minimisation.name : Minimisation → String
  | .none => "None"
  | .basic => "Basic"
  | .deep => "Deep"

/-- How variables are chosen. -/
structure DecisionSettings where
  /-- The factor by which older activity loses weight. -/
  decay : Float := 0.95
  /-- The state of the random source before the first shuffle. -/
  randomSeed : Float := 91648253.0
  /-- The share of decisions that take a random variable. -/
  randomFrequency : Float := 0.0
  /-- Variables start with a small random activity. -/
  randomInitial : Bool := false
  polarity : Polarity := .negative

/-- How stored clauses are treated. -/
structure ClauseSettings where
  /-- Clauses that the ground level satisfies are removed. -/
  removeSatisfied : Bool := true
  /-- The factor by which older activity loses weight. -/
  decay : Float := 0.999

/-- When the search starts over. -/
structure RestartSettings where
  /-- Limits follow the Luby sequence; otherwise they grow steadily. -/
  luby : Bool := true
  /-- The first limit on conflicts. -/
  first : Float := 100.0
  /-- The factor between limits. -/
  factor : Float := 2.0

/-- How many learnt clauses are kept. -/
structure LearntSettings where
  /-- The least limit. -/
  minimum : Int := 0
  /-- The first limit as a share of the number of clauses. -/
  share : Float := 1.0 / 3.0
  /-- The factor by which the limit grows. -/
  growth : Float := 1.1
  /-- The number of conflicts before the limit grows first. -/
  firstInterval : Int := 100
  /-- The factor between the numbers of conflicts before it grows again. -/
  intervalGrowth : Float := 1.5

/-- The step limit of searches that are meant to run to their end. -/
def unboundedSteps : Nat := 1152921504606846976

/-- All settings of a solver. -/
structure SolverSettings where
  decision : DecisionSettings := {}
  clause : ClauseSettings := {}
  minimisation : Minimisation := .deep
  restart : RestartSettings := {}
  learnt : LearntSettings := {}
  /-- The share of words of deleted clauses above which the arena is compacted. -/
  garbageShare : Float := 0.20
  /-- The number of steps after which a search loop gives up. -/
  stepLimit : Nat := unboundedSteps

end ConfigSampler
