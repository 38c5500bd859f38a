/-!
# Bounded counting

Counts are natural numbers that stop at `maxCount`.  `satAdd` and `satMul` are the sum and the
product cut off there, so a count that reached the limit stays at it, and the order in which
counts are combined does not matter.
-/

set_option autoImplicit false

namespace ConfigSampler

/-- The largest count, `2 ^ 64 - 1`. -/
def maxCount : Nat := 18446744073709551615

/-- The sum, cut off at `maxCount`. -/
def satAdd (a b : Nat) : Nat := min (a + b) maxCount

/-- The product, cut off at `maxCount`. -/
def satMul (a b : Nat) : Nat := min (a * b) maxCount

theorem satAdd_comm (a b : Nat) : satAdd a b = satAdd b a := by
  simp [satAdd, Nat.add_comm]

theorem satMul_comm (a b : Nat) : satMul a b = satMul b a := by
  simp [satMul, Nat.mul_comm]

theorem satAdd_le (a b : Nat) : satAdd a b ≤ maxCount := Nat.min_le_right _ _

theorem satMul_le (a b : Nat) : satMul a b ≤ maxCount := Nat.min_le_right _ _

end ConfigSampler
