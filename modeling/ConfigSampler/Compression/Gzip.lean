import ConfigSampler.Compression.Inflate

/-!
# Gzip files

A gzip file is a header, DEFLATE data, and a checksum and size of the expanded data.
`gunzip` expands the first member of a file and ignores what follows it.
-/

set_option autoImplicit false

namespace ConfigSampler.Compression

/-! ## Checksums -/

/-- One bit of the CRC-32 division. -/
def crcBit (crc : UInt32) : UInt32 :=
  if crc &&& (1 : UInt32) = 1 then (crc >>> (1 : UInt32)) ^^^ (0xEDB88320 : UInt32)
  else crc >>> (1 : UInt32)

/-- One byte of the CRC-32 division. -/
def crcByte (crc : UInt32) (byte : UInt8) : UInt32 :=
  crcBit (crcBit (crcBit (crcBit (crcBit (crcBit (crcBit (crcBit (crc ^^^ byte.toUInt32))))))))

/-- The CRC-32 checksum of bytes. -/
def crc32 (bytes : Array UInt8) : Nat :=
  ((bytes.foldl crcByte (0xFFFFFFFF : UInt32)) ^^^ (0xFFFFFFFF : UInt32)).toNat

/-! ## The file format -/

/-- Reads `count` bytes as they are. -/
def readBytes : Nat → Reading (List Nat)
  | 0 => pure []
  | count + 1 => do
    let byte ← readByte
    let rest ← readBytes count
    pure (byte :: rest)

/-- The longest text a header may hold. -/
def maxHeaderText : Nat := 65535

/-- Skips a header text and the zero byte that ends it.  The argument is the number of bytes that
    the text may still have. -/
def skipText : Nat → Reading Unit
  | 0 => do
    let byte ← readByte
    if byte = 0 then pure () else throw .fieldTooLong
  | room + 1 => do
    let byte ← readByte
    if byte = 0 then pure () else skipText room

/-- The flag at the given place is set. -/
def hasFlag (flags place : Nat) : Bool := flags.testBit place

/-- Reads the header: the two marks of a gzip file, the method, the flags, time, extra flags and
    system, and then what the flags announce. -/
def readHeader : Reading Unit := do
  let fixed ← readBytes 10
  match fixed with
  | mark₁ :: mark₂ :: method :: flags :: _ =>
    if mark₁ ≠ 0x1F || mark₂ ≠ 0x8B || method ≠ 8 || 32 ≤ flags then throw .badHeader
    else do
      if hasFlag flags 2 then do
        let size ← readBits 16
        let _ ← readBytes size
      if hasFlag flags 3 then skipText maxHeaderText
      if hasFlag flags 4 then skipText maxHeaderText
      if hasFlag flags 1 then do
        let header ← get
        let expected := crc32 (header.bytes.extract 0 (header.position / 8)) % 65536
        let stored ← readBits 16
        if stored ≠ expected then throw .checksumMismatch
  | _ => throw .truncated

/-- Reads a member and checks its checksum and size. -/
def readMember : Reading (Array UInt8) := do
  readHeader
  let out ← inflate
  skipToByte
  let crc ← readBits 32
  let size ← readBits 32
  if crc = crc32 out && size = out.size % 0x100000000 then pure out else throw .checksumMismatch

/-- The bytes start like a gzip file. -/
def isGzip (bytes : Array UInt8) : Bool :=
  bytes[0]? == some 0x1F && bytes[1]? == some 0x8B

/-- The expanded data of the first member of a gzip file. -/
def gunzip (bytes : Array UInt8) : Except GzipFault (Array UInt8) :=
  (readMember.run ⟨bytes, 0⟩).map (·.1)

end ConfigSampler.Compression
