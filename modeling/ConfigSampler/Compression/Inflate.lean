import ConfigSampler.Compression.Huffman

/-!
# Expanding DEFLATE data

Compressed data is a sequence of blocks.  A block is stored, or coded with fixed or with given
Huffman codes; a coded block holds literal bytes and references to earlier output.  A reference
that reaches back before the start of the output finds zero bytes.
-/

set_option autoImplicit false

namespace ConfigSampler.Compression

/-- Base length and number of extra bits of the length symbols from 257 on. -/
def lengthTable : List (Nat × Nat) :=
  [(3, 0), (4, 0), (5, 0), (6, 0), (7, 0), (8, 0), (9, 0), (10, 0), (11, 1), (13, 1), (15, 1),
    (17, 1), (19, 2), (23, 2), (27, 2), (31, 2), (35, 3), (43, 3), (51, 3), (59, 3), (67, 4),
    (83, 4), (99, 4), (115, 4), (131, 5), (163, 5), (195, 5), (227, 5), (258, 0)]

/-- Base distance and number of extra bits of the distance symbols. -/
def distanceTable : List (Nat × Nat) :=
  [(1, 0), (2, 0), (3, 0), (4, 0), (5, 1), (7, 1), (9, 2), (13, 2), (17, 3), (25, 3), (33, 4),
    (49, 4), (65, 5), (97, 5), (129, 6), (193, 6), (257, 7), (385, 7), (513, 8), (769, 8),
    (1025, 9), (1537, 9), (2049, 10), (3073, 10), (4097, 11), (6145, 11), (8193, 12), (12289, 12),
    (16385, 13), (24577, 13)]

/-- The order in which the lengths of the length code are given. -/
def lengthOrder : List Nat := [16, 17, 18, 0, 8, 7, 9, 6, 10, 5, 11, 4, 12, 3, 13, 2, 14, 1, 15]

/-- The word lengths of the fixed literal code. -/
def fixedLiteralLengths : List Nat :=
  List.replicate 144 8 ++ List.replicate 112 9 ++ List.replicate 24 7 ++ List.replicate 8 8

/-- The word lengths of the fixed distance code. -/
def fixedDistanceLengths : List Nat := List.replicate 32 5

/-- Appends `count` bytes, each a copy of the byte `distance` places before it. -/
def copyBack (distance : Nat) : Nat → Array UInt8 → Array UInt8
  | 0, out => out
  | count + 1, out =>
    let byte := if out.size < distance then 0 else out.getD (out.size - distance) 0
    copyBack distance count (out.push byte)

/-- Appends `count` bytes as they stand in the data. -/
def copyStored : Nat → Array UInt8 → Reading (Array UInt8)
  | 0, out => pure out
  | count + 1, out => do
    let byte ← readByte
    copyStored count (out.push byte.toUInt8)

/-- Reads the number that a symbol of a table stands for. -/
def readValue (table : List (Nat × Nat)) (symbol : Nat) : Reading Nat :=
  match table[symbol]? with
  | none => throw .corruptBody
  | some (base, extra) => do
    let bits ← readBits extra
    pure (base + bits)

/-- Reads the symbols of a coded block up to its end.  The first argument bounds their number. -/
def readSymbols (literals distances : Code) : Nat → Array UInt8 → Reading (Array UInt8)
  | 0, _ => throw .truncated
  | fuel + 1, out => do
    let symbol ← literals.read
    if symbol < 256 then readSymbols literals distances fuel (out.push symbol.toUInt8)
    else if symbol = 256 then pure out
    else do
      let count ← readValue lengthTable (symbol - 257)
      let distanceSymbol ← distances.read
      let distance ← readValue distanceTable distanceSymbol
      readSymbols literals distances fuel (copyBack distance count out)

/-- Reads word lengths, which are themselves coded and may be repeated, until there are `total` of
    them.  The first argument bounds the number of steps. -/
def readLengths (code : Code) (total : Nat) : Nat → Array Nat → Reading (Array Nat)
  | 0, _ => throw .truncated
  | fuel + 1, lengths => do
    if total < lengths.size then throw .corruptBody
    else if lengths.size = total then pure lengths
    else do
      let symbol ← code.read
      if symbol < 16 then readLengths code total fuel (lengths.push symbol)
      else if symbol = 16 then
        match lengths.back? with
        | none => throw .corruptBody
        | some last => do
          let count ← readBits 2
          readLengths code total fuel (lengths ++ Array.replicate (count + 3) last)
      else if symbol = 17 then do
        let count ← readBits 3
        readLengths code total fuel (lengths ++ Array.replicate (count + 3) 0)
      else do
        let count ← readBits 7
        readLengths code total fuel (lengths ++ Array.replicate (count + 11) 0)

/-- Reads `count` lengths of three bits each. -/
def readShortLengths : Nat → Reading (List Nat)
  | 0 => pure []
  | count + 1 => do
    let length ← readBits 3
    let rest ← readShortLengths count
    pure (length :: rest)

/-- The code, or the fault that there is none. -/
def codeOrFault (complete : Bool) (lengths : List Nat) : Reading Code :=
  match Code.ofLengths? complete lengths with
  | none => throw .corruptBody
  | some code => pure code

/-- Reads the codes of a block that gives its own. -/
def readCodes : Reading (Code × Code) := do
  let literalCount := 257 + (← readBits 5)
  let distanceCount := 1 + (← readBits 5)
  let shortCount := 4 + (← readBits 4)
  if 286 < literalCount || 30 < distanceCount then throw .corruptBody
  else do
    let short ← readShortLengths shortCount
    let lengths := (List.range 19).map fun symbol =>
      match lengthOrder.idxOf? symbol with
      | none => 0
      | some place => short.getD place 0
    let lengthCode ← codeOrFault true lengths
    let all ← readLengths lengthCode (literalCount + distanceCount) 320 #[]
    let distances ← codeOrFault false (all.toList.drop literalCount)
    let literals ← codeOrFault false (all.toList.take literalCount)
    pure (literals, distances)

/-- Reads a stored block. -/
def readStored (out : Array UInt8) : Reading (Array UInt8) := do
  skipToByte
  let size ← readBits 16
  let check ← readBits 16
  if size + check = 65535 then copyStored size out else throw .corruptBody

/-- Reads a coded block. -/
def readCoded (codes : Code × Code) (out : Array UInt8) : Reading (Array UInt8) := do
  let fuel := (← get).remaining
  readSymbols codes.1 codes.2 (fuel + 1) out

/-- Reads one block and says whether it was the last one. -/
def readBlock (out : Array UInt8) : Reading (Bool × Array UInt8) := do
  let last ← readBits 1
  let kind ← readBits 2
  let out ←
    if kind = 0 then readStored out
    else if kind = 1 then do
      let literals ← codeOrFault false fixedLiteralLengths
      let distances ← codeOrFault false fixedDistanceLengths
      readCoded (literals, distances) out
    else if kind = 2 then do
      let codes ← readCodes
      readCoded codes out
    else throw .corruptBody
  pure (last = 1, out)

/-- Reads blocks up to the last one.  The first argument bounds their number. -/
def readBlocks : Nat → Array UInt8 → Reading (Array UInt8)
  | 0, _ => throw .truncated
  | fuel + 1, out => do
    let (last, out) ← readBlock out
    if last then pure out else readBlocks fuel out

/-- Expands the data from the next bit on. -/
def inflate : Reading (Array UInt8) := do
  let fuel := (← get).remaining
  readBlocks (fuel + 1) #[]

end ConfigSampler.Compression
