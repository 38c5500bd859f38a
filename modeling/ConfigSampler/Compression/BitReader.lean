import ConfigSampler.Error

/-!
# Reading bits

A `BitReader` walks through bytes bit by bit, the lowest bit of a byte first.  Reading past the last
byte is the fault `truncated`.
-/

set_option autoImplicit false

namespace ConfigSampler.Compression

/-- Bytes and the number of bits read from them. -/
structure BitReader where
  bytes : Array UInt8
  position : Nat

/-- A computation that reads bits and may find them faulty. -/
abbrev Reading (α : Type) := StateT BitReader (Except GzipFault) α

namespace BitReader

/-- The number of bits not read yet. -/
def remaining (r : BitReader) : Nat := 8 * r.bytes.size - r.position

end BitReader

/-- The next bit. -/
def readBit : Reading Nat := fun r =>
  match r.bytes[r.position / 8]? with
  | none => .error .truncated
  | some byte =>
    .ok ((byte.toNat.testBit (r.position % 8)).toNat, { r with position := r.position + 1 })

/-- The number made of the next `n` bits, the lowest first. -/
def readBits : Nat → Reading Nat
  | 0 => pure 0
  | n + 1 => do
    let low ← readBit
    let high ← readBits n
    pure (low + 2 * high)

/-- Leaves out the rest of a byte that was read in part. -/
def skipToByte : Reading Unit := fun r =>
  .ok ((), { r with position := (r.position + 7) / 8 * 8 })

/-- The next byte. -/
def readByte : Reading Nat := readBits 8

end ConfigSampler.Compression
