/-!
# Machine words

`unsigned?` and `signed?` give the 32-bit word for an exact value, and none if the value is out of
range.  A result that is computed on integers and then turned into a word is that of checked
arithmetic.
-/

set_option autoImplicit false

namespace ConfigSampler

namespace Word

variable {i : Int}

/-- The unsigned 32-bit word for a value, if it is in range. -/
def unsigned? : Int → Option UInt32
  | .ofNat n => if n < 4294967296 then some (.ofNat n) else none
  | .negSucc _ => none

/-- The signed 32-bit word for a value, if it is in range. -/
def signed? : Int → Option Int32
  | .ofNat n => if n < 2147483648 then some (.ofNat n) else none
  | .negSucc n => if n < 2147483648 then some (.ofInt (.negSucc n)) else none

theorem unsigned?_eq_some_iff {w : UInt32} : unsigned? i = some w ↔ (w.toNat : Int) = i := by
  have hword : w.toNat < 4294967296 := w.toNat_lt
  cases i with
  | ofNat n =>
    rw [unsigned?]
    split
    · rename_i hn
      rw [Option.some_inj, ← UInt32.toNat_inj, UInt32.toNat_ofNat_of_lt' hn, Int.ofNat_eq_natCast,
        Int.natCast_inj, eq_comm]
    · simp only [reduceCtorEq, Int.ofNat_eq_natCast, false_iff]
      omega
  | negSucc n => simp [unsigned?]

theorem signed?_eq_some_iff {w : Int32} : signed? i = some w ↔ w.toInt = i := by
  have hleast : -2147483648 ≤ w.toInt := w.le_toInt
  have hgreatest : w.toInt < 2147483648 := w.toInt_lt
  cases i with
  | ofNat n =>
    rw [signed?]
    split
    · rename_i hn
      rw [Option.some_inj, ← Int32.toInt_inj, Int32.toInt_ofNat_of_lt hn, Int.ofNat_eq_natCast,
        eq_comm]
    · simp only [reduceCtorEq, Int.ofNat_eq_natCast, false_iff]
      omega
  | negSucc n =>
    rw [signed?]
    split
    · rename_i hn
      rw [Option.some_inj, ← Int32.toInt_inj, Int32.toInt_ofInt_of_le (by omega) (by omega),
        eq_comm]
    · simp only [reduceCtorEq, false_iff]
      omega

/-- A value in range has its word. -/
theorem unsigned?_of_lt {n : Nat} (hn : n < 4294967296) (hi : i = n) :
    unsigned? i = some (.ofNat n) :=
  unsigned?_eq_some_iff.2 (by rw [UInt32.toNat_ofNat_of_lt' hn, hi])

theorem signed?_of_lt {n : Nat} (hn : n < 2147483648) (hi : i = n) : signed? i = some (.ofNat n) :=
  signed?_eq_some_iff.2 (by rw [Int32.toInt_ofNat_of_lt hn, hi])

end Word

end ConfigSampler
