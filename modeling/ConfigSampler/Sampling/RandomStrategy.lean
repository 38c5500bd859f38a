import ConfigSampler.Sampling.Strategy

/-!
# Independent random configurations

Each step redraws the order of decisions and asks for one model with random polarities.
-/

set_option autoImplicit false

namespace ConfigSampler

/-- How many configurations are wanted and how many there are. -/
structure RandomStrategy where
  count : Nat
  found : Nat
deriving DecidableEq, Repr

namespace RandomStrategy

/-- The strategy that looks for `count` configurations. -/
def start (count : Nat) : RandomStrategy := ⟨count, 0⟩

variable {S σ : Type} [SatSolver S] [Monitor σ]

/-- Redraws the solver's order and polarities. -/
def prepare (cx : Context S σ) : Context S σ :=
  match cx with
  | ⟨solver, rand, monitor, journal⟩ =>
    Context.shuffle ⟨SatSolver.setPolarity solver .random, rand, monitor, journal⟩

/-- Looks for one more configuration. -/
def step (g : RandomStrategy) (cx : Context S σ) :
    Except SampleError Step × RandomStrategy × Context S σ :=
  if g.count ≤ g.found then (.ok .done, g, cx)
  else
    match (prepare cx).solve [] with
    | (.error e, cx) => (.error e, g, cx)
    | (.ok (.model config), cx) => (.ok (.batch [config]), { g with found := g.found + 1 }, cx)
    | (.ok .noModel, cx) => (.ok .exhausted, g, cx)
    | (.ok .cancelled, cx) => (.ok .pending, g, cx)

instance : Strategy RandomStrategy where
  workEstimate g max := min g.count max
  step g _ _ cx := step g cx
  finished _ := .complete
  coverage _ := none

end RandomStrategy

end ConfigSampler
