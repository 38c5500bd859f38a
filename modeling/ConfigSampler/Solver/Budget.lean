/-!
# Budgets

A budget limits one solve: a flag stops it, and the numbers of conflicts and propagations since its
start may be bounded.  Others may raise and lower the flag while a solve is at work, so a `Flag`
tells what each look at it finds.
-/

set_option autoImplicit false

namespace ConfigSampler

/-- A flag that others may raise and lower at any time: what each look at it finds, in order. -/
structure Flag where
  found : Nat → Bool

namespace Flag

/-- A flag that stays as it is. -/
def steady (raised : Bool) : Flag := ⟨fun _ => raised⟩

/-- The next look finds the flag raised. -/
def isRaised (flag : Flag) : Bool := flag.found 0

/-- The flag after so many looks. -/
def after (flag : Flag) (looks : Nat) : Flag := ⟨fun look => flag.found (looks + look)⟩

instance : Coe Bool Flag := ⟨steady⟩

instance : Coe Flag Bool := ⟨isRaised⟩

end Flag

/-- The limits of a solve. -/
structure Budget where
  conflicts : Option Nat := none
  propagations : Option Nat := none
  /-- The flag that stops the solve. -/
  interrupted : Flag := .steady false

namespace Budget

/-- The limit that a number from 64-bit arithmetic stands for: one in the upper half is none. -/
def limitOf (n : Option Nat) : Option Nat :=
  match n with
  | none => none
  | some n => if n < 9223372036854775808 then some n else none

/-- Bounds the number of conflicts. -/
def setConflicts (b : Budget) (n : Option Nat) : Budget := { b with conflicts := limitOf n }

/-- Bounds the number of propagations. -/
def setPropagations (b : Budget) (n : Option Nat) : Budget := { b with propagations := limitOf n }

/-- Takes both bounds away. -/
def off (b : Budget) : Budget := { b with conflicts := none, propagations := none }

/-- A number is below a bound. -/
def below (n : Nat) : Option Nat → Bool
  | none => true
  | some bound => decide (n < bound)

/-- Looks at the flag: the solve may go on after so many conflicts and propagations. -/
def within (b : Budget) (conflicts propagations : Nat) : Bool :=
  !b.interrupted.isRaised && below conflicts b.conflicts && below propagations b.propagations

/-- The budget after so many looks at its flag. -/
def after (b : Budget) (looks : Nat) : Budget :=
  { b with interrupted := b.interrupted.after looks }

/-- The budget with another flag in the place of its own, if there is one. -/
def sharing (b : Budget) : Option Flag → Budget
  | none => b
  | some flag => { b with interrupted := flag }

end Budget

end ConfigSampler
