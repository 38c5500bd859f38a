import ConfigSampler.Compression.BitReader

/-!
# Canonical Huffman codes

A code is given by the lengths of its code words alone: words of one length are consecutive
numbers in the order of their symbols, and shorter words come first.  `Code.ofLengths?` refuses
lengths that no such code has.
-/

set_option autoImplicit false

namespace ConfigSampler.Compression

/-- The longest code word. -/
def maxCodeLength : Nat := 15

/-- For each length from 1 up to the longest, the symbols whose words have that length, in order. -/
structure Code where
  symbols : List (List Nat)

namespace Code

/-- The symbols whose length is `len`, in order. -/
def symbolsOfLength (lengths : List Nat) (len : Nat) : List Nat :=
  lengths.zipIdx.filterMap fun (l, symbol) => if l = len then some symbol else none

/-- The share of all words of the greatest length that words of these lengths use up. -/
def weight (lengths : List Nat) : Nat :=
  lengths.foldr (fun l total => (if l = 0 then 0 else 1 <<< (maxCodeLength - l)) + total) 0

/-- The words use up all bit patterns. -/
def isComplete (lengths : List Nat) : Bool := weight lengths == 1 <<< maxCodeLength

/-- There is no word, or one word of a single bit. -/
def isTrivial (lengths : List Nat) : Bool :=
  match lengths.filter (· ≠ 0) with
  | [] => true
  | [len] => len == 1
  | _ => false

/-- The length of the longest word, and 1 if there is none: a bit has to be read to find that it
    starts no word. -/
def longest (lengths : List Nat) : Nat := lengths.foldl max 1

/-- The code with the given word lengths, a zero for a symbol without a word.  The words have to
    use up all bit patterns; a trivial code need not, unless `complete` asks for it. -/
def ofLengths? (complete : Bool) (lengths : List Nat) : Option Code :=
  if isComplete lengths || (!complete && isTrivial lengths) then
    some ⟨(List.range (longest lengths)).map fun i => symbolsOfLength lengths (i + 1)⟩
  else none

/-- Reads one more bit of a word for each length: `word` is the number read so far and `first` the
    first word of the current length.  Bits that start no word are a fault as soon as they are as
    many as those of the longest word. -/
def readFrom (word first : Nat) : List (List Nat) → Reading Nat
  | [] => throw .corruptBody
  | symbols :: longer => do
    let word := 2 * word + (← readBit)
    let first := 2 * first
    match symbols[word - first]? with
    | some symbol => pure symbol
    | none => readFrom word (first + symbols.length) longer

/-- Reads a word and gives its symbol. -/
def read (code : Code) : Reading Nat := readFrom 0 0 code.symbols

end Code

end ConfigSampler.Compression
