import ConfigSampler.Sampling.Covering
import ConfigSampler.Sampling.RandomStrategy
import ConfigSampler.Sampling.Run
import ConfigSampler.Solver.Basic

/-!
# Requests

What can be asked of a formula: random configurations, a sample that covers combinations, or one
configuration with and one without a feature.  `generate` samples with a fresh solver, so the
formula itself does not change.
-/

set_option autoImplicit false

namespace ConfigSampler

/-- What a sample is to consist of. -/
inductive Request where
  /-- So many random configurations. -/
  | random (count : Nat)
  /-- All combinations of `strength` expressions of a group, or of all literals if no groups are
      given, in at most `limit` configurations. -/
  | covering (strength : Nat) (groups : Option (List ExpressionGroup)) (limit : Nat)
  /-- One configuration with the feature and one without it. -/
  | feature (name : String)

variable {σ : Type} [Monitor σ]

/-- Samples with a strategy and forgets the sampler. -/
def sampleWith {G : Type} [Strategy G] (cnf : Cnf) (strategy : G) (settings : SampleSettings)
    (monitor : σ) : Except SampleError Sample × σ × Journal :=
  let solver := Solver.ofCnf cnf {}
  let (result, _, monitor, journal) := (Sampler.start solver strategy settings).run monitor
  (result, monitor, journal)

/-- Samples with a covering strategy, if it can be set up. -/
def sampleCovering (cnf : Cnf) (strength : Nat) (policy : ExtensionPolicy)
    (groups : Option (List ExpressionGroup)) (settings : SampleSettings) (monitor : σ) :
    Except SampleError Sample × σ × Journal :=
  match Covering.start cnf strength policy groups settings.maxSize with
  | .error e => (.error e, monitor, #[])
  | .ok strategy => sampleWith cnf strategy settings monitor

/-- Samples a formula.  Gives the result, the monitor afterwards, and what there is to report. -/
def generate (cnf : Cnf) (request : Request) (settings : SampleSettings)
    (policy : ExtensionPolicy) (monitor : σ) : Except SampleError Sample × σ × Journal :=
  match request with
  | .random count =>
    let settings := { settings with maxSize := min count settings.maxSize }
    sampleWith cnf (RandomStrategy.start count) settings monitor
  | .covering strength groups limit =>
    let settings := { settings with maxSize := min limit settings.maxSize }
    sampleCovering cnf strength policy groups settings monitor
  | .feature name =>
    match cnf.vars.indexOf name with
    | .error e => (.error e, monitor, #[])
    | .ok var =>
      let both : ExpressionGroup :=
        #[LiteralSet.ofList [(var : Int)], LiteralSet.ofList [-(var : Int)]]
      sampleCovering cnf 1 policy (some [both]) settings monitor

end ConfigSampler
