/-!
# Fixed-place numbers and columns

`Fixed.render` writes a floating-point number with a given number of decimal places.  The number
is taken as the exact fraction `m * 2 ^ e` that its bits stand for, so rounding happens once, on
exact integers, and a tie goes to the even last digit.  `padLeft` puts a text at the right end
of a column.
-/

set_option autoImplicit false

namespace ConfigSampler.Text

/-- The text preceded by spaces up to the given width. -/
def padLeft (width : Nat) (text : String) : String :=
  String.ofList (List.replicate (width - text.length) ' ') ++ text

/-- A count at the right end of a column. -/
def column (width count : Nat) : String := padLeft width (toString count)

namespace Fixed

/-- The quotient rounded to the nearest integer, a tie to the even one. -/
def roundDiv (num den : Nat) : Nat :=
  let q := num / den
  let twice := 2 * (num % den)
  if twice < den then q
  else if den < twice then q + 1
  else if q % 2 = 0 then q else q + 1

/-- The rounded quotient is off by at most half a unit. -/
theorem roundDiv_near (num den : Nat) (h : 0 < den) :
    2 * num ≤ 2 * den * roundDiv num den + den ∧ 2 * den * roundDiv num den ≤ 2 * num + den := by
  have hd := Nat.div_add_mod num den
  have hm := Nat.mod_lt num h
  simp only [roundDiv]
  generalize num / den = q at *
  generalize num % den = r at *
  have hq : 2 * den * q = 2 * (den * q) := by rw [Nat.mul_assoc]
  have hq1 : 2 * den * (q + 1) = 2 * (den * q) + 2 * den := by rw [Nat.mul_add, hq, Nat.mul_one]
  split
  · omega
  · split
    · omega
    · split <;> omega

/-- How many units of the last of `places` decimal places make up one. -/
def scale (places : Nat) : Nat := Nat.pow 10 places

/-- The digits of a scaled number with the point set before the last `places` of them. -/
def withPoint (scaled places : Nat) : String :=
  if places = 0 then toString scaled
  else
    let fraction := toString (scaled % scale places)
    toString (scaled / scale places) ++ "."
      ++ String.ofList (List.replicate (places - fraction.length) '0') ++ fraction

/-- The size of a finite number as a numerator and a denominator, from its bits. -/
def fraction (bits : Nat) : Nat × Nat :=
  let field := bits >>> 52 % 2048
  let low := bits % 1 <<< 52
  let m := if field = 0 then low else low + 1 <<< 52
  let e := if field = 0 then 1 else field
  if 1075 ≤ e then (m <<< (e - 1075), 1) else (m, 1 <<< (1075 - e))

/-- The number with `places` decimal places; a set sign bit is written. -/
def render (places : Nat) (x : Float) : String :=
  if x.isNaN then "NaN"
  else
    let bits := x.toBits.toNat
    let sign := if bits.testBit 63 then "-" else ""
    if x.isInf then sign ++ "inf"
    else
      let (num, den) := fraction bits
      sign ++ withPoint (roundDiv (num * scale places) den) places

end Fixed

end ConfigSampler.Text
