import ConfigSampler.Arithmetic.Floating

/-!
# Random numbers

A deterministic source of the multiplicative congruential kind: the state is multiplied by a fixed
factor and reduced by a fixed modulus, all in floating-point arithmetic.  Equal states yield equal
sequences.
-/

set_option autoImplicit false

namespace ConfigSampler

/-- The state of a random source, a positive number. -/
structure Random where
  seed : Float

namespace Random

/-- The modulus of every source, `2 ^ 31 - 1`. -/
def modulus : Float := 2147483647.0

/-- The factor of every source. -/
def factor : Float := 1389796.0

/-- The state used in place of one that is not positive. -/
def defaultSeed : Float := 91648253.0

/-- The source with the given state, or with the default one if that is not positive. -/
def ofFloat (seed : Float) : Random := ⟨if seed > 0 then seed else defaultSeed⟩

/-- A source for any number, which is mapped onto the valid states. -/
def ofSeed (seed : Nat) : Random := ofFloat (Float.ofNat (seed % 2147483646 + 1))

/-- The next number, from `0` up to but not including `1`. -/
def next (r : Random) : Float × Random :=
  let grown := r.seed * factor
  let quotient := Floating.toInt32 (grown / modulus)
  let seed := grown - Floating.ofInteger quotient * modulus
  (seed / modulus, ⟨seed⟩)

/-- The next number below `size`. -/
def below (r : Random) (size : Nat) : Nat × Random :=
  let (x, r) := r.next
  (Floating.toCount (x * Float.ofNat size), r)

/-- True with probability `p`. -/
def chance (r : Random) (p : Float) : Bool × Random :=
  let (x, r) := r.next
  (x < p, r)

/-- A source with a state of its own, drawn from this one. -/
def fork (r : Random) : Random × Random :=
  let (x, r) := r.next
  (ofFloat (1.0 + x * 2147483645.0), r)

/-- Swaps each place from `i` down with one drawn from the places up to it. -/
def shuffleFrom {α : Type} : Nat → Array α → Random → Array α × Random
  | 0, items, r => (items, r)
  | i + 1, items, r =>
    let (j, r) := r.below (i + 2)
    shuffleFrom i (items.swapIfInBounds (i + 1) j) r

/-- The items in a random order. -/
def shuffle {α : Type} (r : Random) (items : Array α) : Array α × Random :=
  shuffleFrom (items.size - 1) items r

end Random

end ConfigSampler
