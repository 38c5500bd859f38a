/-!
# How a run ended
-/

set_option autoImplicit false

namespace ConfigSampler

/-- The status of a finished sampling run. -/
inductive Completion where
  /-- The strategy reached its goal. -/
  | complete
  /-- No further configuration exists. -/
  | exhausted
  /-- The size limit stopped a covering run before full coverage. -/
  | truncated
  /-- The monitor asked the run to stop. -/
  | cancelled
deriving DecidableEq, Repr

/-- The name of a status. -/
def Completion.name : Completion → String
  | .complete => "Complete"
  | .exhausted => "Exhausted"
  | .truncated => "Truncated"
  | .cancelled => "Cancelled"

end ConfigSampler
