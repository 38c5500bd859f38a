import ConfigSampler.Journal
import ConfigSampler.Solver.Budget

/-!
# Progress and cancellation

A run announces how much work is left, reports the work it does, and asks now and then whether it
is to stop.  `Monitor` lists these messages; a monitor is a value that changes with each of them.
It may have a flag that solves look at, and others may raise the flag while a solve is at work.
-/

set_option autoImplicit false

namespace ConfigSampler

/-- What a run tells and asks while it works. -/
class Monitor (σ : Type) where
  /-- So much work is left from now on. -/
  announce : σ → Nat → σ × Journal
  /-- So much work was done. -/
  worked : σ → Nat → σ × Journal
  /-- A configuration was accepted, which is one unit of work. -/
  step : σ → σ × Journal := fun m => worked m 1
  /-- Whether the run is to stop. -/
  poll : σ → Bool × σ
  /-- The flag that is to stop a solve, as it stands, if the monitor has one. -/
  flag? : σ → Option Bool
  /-- The monitor after so many looks of a solve at the flag, with what others did to it meanwhile. -/
  elapse : σ → Nat → σ := fun m _ => m

/-- The flag that a solve is to look at, if the monitor has one: each look finds it as it stands
    then. -/
def Monitor.sharedFlag {σ : Type} [Monitor σ] (m : σ) : Option Flag :=
  (flag? m).map fun _ => ⟨fun look => flag? (elapse m (look + 1)) == some true⟩

/-- A monitor that ignores all work and never stops a run. -/
inductive Silent where
  | silent
deriving DecidableEq, Repr

instance : Monitor Silent where
  announce m _ := (m, #[])
  worked m _ := (m, #[])
  poll m := (false, m)
  flag? _ := none

/-- A monitor that reports every tenth of the work and can be cancelled. -/
structure ProgressLog where
  cancelled : Bool
  total : Nat
  done : Nat
  nextReport : Nat
deriving DecidableEq, Repr

namespace ProgressLog

/-- The monitor at the start of a run, cancelled or not. -/
def start (cancelled : Bool) : ProgressLog := ⟨cancelled, 0, 0, 0⟩

/-- A tenth of an amount of work, but at least one unit. -/
def tenth (work : Nat) : Nat := max (work / 10) 1

/-- So much work is left from now on. -/
def announce (m : ProgressLog) (work : Nat) : ProgressLog × Journal :=
  ({ m with total := m.done + work, nextReport := m.done + tenth work }, #[.workExpected work])

/-- So much work was done. -/
def worked (m : ProgressLog) (work : Nat) : ProgressLog × Journal :=
  let done := m.done + work
  if m.nextReport ≤ done then
    ({ m with done := done, nextReport := done + tenth m.total }, #[.workDone done m.total])
  else ({ m with done := done }, #[])

/-- Asks the run to stop. -/
def cancel (m : ProgressLog) : ProgressLog := { m with cancelled := true }

instance : Monitor ProgressLog where
  announce := announce
  worked := worked
  poll m := (m.cancelled, m)
  flag? m := some m.cancelled

end ProgressLog

end ConfigSampler
