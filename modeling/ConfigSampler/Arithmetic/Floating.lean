/-!
# Floating-point helpers

Whole powers by repeated squaring, truncation to bounded integers, and rounding to single
precision.  Each is spelled out on double-precision operations and bit patterns, so its result
is the same on every machine.
-/

set_option autoImplicit false

namespace ConfigSampler

namespace Floating

/-- Repeated squaring: `acc * x ^ k`, one squaring per binary digit of `k`.
    The first argument bounds the number of digits. -/
def powerLoop : Nat → Float → Float → Nat → Float
  | 0, acc, _, _ => acc
  | digits + 1, acc, x, k =>
    let acc := if k % 2 = 1 then acc * x else acc
    if k / 2 = 0 then acc else powerLoop digits acc (x * x) (k / 2)

/-- `x ^ k` by repeated squaring, the lowest binary digit of `k` first. -/
def power (x : Float) (k : Nat) : Float := powerLoop (k + 1) 1.0 x k

/-- `x ^ k`; a negative power is the reciprocal of the positive one. -/
def integerPower (x : Float) : Int → Float
  | .ofNat k => power x k
  | .negSucc k => 1.0 / power x (k + 1)

/-- The whole part of `x`, from `0` to `2 ^ 64 - 1`; `0` for NaN. -/
def toCount (x : Float) : Nat := x.toUInt64.toNat

/-- The whole part of `x`, kept within 32-bit signed integers; `0` for NaN. -/
def toInt32 (x : Float) : Int :=
  if x < 0 then -(min (toCount (-x)) 2147483648 : Nat) else (min (toCount x) 2147483647 : Nat)

/-- The floating-point value of an integer. -/
def ofInteger (i : Int) : Float := Float.ofInt i

/-- The greater of two numbers; a NaN gives way to the other one. -/
def maximum (x y : Float) : Float :=
  if x.isNaN then y else if y.isNaN then x else if x < y then y else x

/-- The single-precision value nearest to `x`, ties to the even one.

    A number of normal size keeps 23 fraction bits: adding just under half of the last kept place
    (or exactly half, if that place is odd) and clearing the bits below rounds the bit pattern.
    A smaller number is rounded to a multiple of `2 ^ -149` by adding and subtracting a number
    whose last place that is. -/
def toSingle (x : Float) : Float :=
  if x.isNaN || x == 0 then x
  else
    let size := x.abs
    if size < Float.ofBits 0x3810000000000000 then
      let shift := Float.ofBits 0x39e8000000000000
      if x < 0 then -((size + shift) - shift) else (x + shift) - shift
    else
      let bits : UInt64 := x.toBits
      let odd : UInt64 := (bits >>> 29) &&& (1 : UInt64)
      let kept : UInt64 := (bits + (0x0fffffff : UInt64) + odd) &&& (0xffffffffe0000000 : UInt64)
      let rounded := Float.ofBits kept
      if rounded.abs < Float.ofBits 0x47f0000000000000 then rounded
      else if x < 0 then Float.ofBits 0xfff0000000000000 else Float.ofBits 0x7ff0000000000000

end Floating

end ConfigSampler
