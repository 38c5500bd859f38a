import ConfigSampler.Arithmetic.Floating
import ConfigSampler.Arithmetic.Word
import ConfigSampler.Solver.Settings

/-!
# Restart limits

The number of conflicts after which a search starts over.  Limits grow by a fixed factor, or follow
the Luby sequence `1 1 2 1 1 2 4 …`: it consists of ever longer initial parts of itself, and
`lubyExponent?` finds the part that ends at a given place.

The search for the part is done in 32-bit words.  It has no result if a word would leave its range,
if a remainder by zero is taken, or if a loop is not over after the turns it may take.
-/

set_option autoImplicit false

namespace ConfigSampler

/-- Doubles the size of an initial part, and counts the doublings, until the part reaches past
    `place`.  The first argument is the number of turns left. -/
def lubyCover : Nat → UInt32 → UInt32 → Int32 → Option (UInt32 × Int32)
  | 0, _, _, _ => none
  | turns + 1, place, size, doublings => do
    let reach ← Word.unsigned? (place.toNat + 1)
    if size < reach then
      let doublings ← Word.signed? (doublings.toInt + 1)
      let twice ← Word.unsigned? (2 * size.toNat)
      let size ← Word.unsigned? (twice.toNat + 1)
      lubyCover turns place size doublings
    else
      return (size, doublings)

/-- Goes from a part that holds `place` to the half of it that does, until the part ends there.
    The number of doublings left is the exponent at that place.  The first argument is the number
    of turns left. -/
def lubyNarrow : Nat → UInt32 → UInt32 → Int32 → Option Int32
  | 0, _, _, _ => none
  | turns + 1, place, size, doublings => do
    let last ← Word.unsigned? (size.toNat - 1)
    if last ≠ place then
      let half := last >>> 1
      let doublings ← Word.signed? (doublings.toInt - 1)
      if half = 0 then none else lubyNarrow turns (place % half) half doublings
    else
      return doublings

/-- The exponent at a place of the Luby sequence, counted from zero.  A loop may take as many turns
    as a word has digits. -/
def lubyExponent? (place : UInt32) : Option Int32 := do
  let (size, doublings) ← lubyCover 32 place 1 0
  lubyNarrow 32 place size doublings

namespace RestartSettings

/-- The power of the factor that scales the limit after the given number of restarts.  With the Luby
    sequence it is the exponent at that place, and zero where none is found.  Without it, it is that
    number as a signed 32-bit word, so that it is negative from `2 ^ 31` restarts on. -/
def exponent (s : RestartSettings) (restarts : Nat) : Int :=
  if s.luby then ((lubyExponent? (.ofNat restarts)).getD 0).toInt
  else (restarts : Int).bmod 4294967296

/-- The scale of the limit after the given number of restarts. -/
def scale (s : RestartSettings) (restarts : Nat) : Float :=
  Floating.integerPower s.factor (s.exponent restarts)

/-- The number of conflicts after which the search starts over, given the number of restarts. -/
def limit (s : RestartSettings) (restarts : Nat) : Nat :=
  Floating.toCount (s.scale restarts * s.first)

end RestartSettings

end ConfigSampler
