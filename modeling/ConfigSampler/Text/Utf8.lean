/-!
# Text from bytes

`Utf8.decode` reads a text from its UTF-8 bytes.  A fault names the byte where the first
character that cannot be read starts, and how many bytes of it were looked at before it went
wrong; a text that stops inside a character has no such number.
-/

set_option autoImplicit false

namespace ConfigSampler.Text

/-- Why bytes are no text. -/
inductive Utf8Fault where
  /-- The bytes from `index` on start no character; `length` of them were looked at. -/
  | invalid (index length : Nat)
  /-- The bytes end inside the character that starts at `index`. -/
  | incomplete (index : Nat)
deriving DecidableEq, Repr

/-- The wording of a fault. -/
def Utf8Fault.message : Utf8Fault → String
  | .invalid index length =>
    "invalid utf-8 sequence of " ++ toString length ++ " bytes from index " ++ toString index
  | .incomplete index => "incomplete utf-8 byte sequence from index " ++ toString index

namespace Utf8

/-- A byte that continues a character. -/
def isContinuation (b : Nat) : Bool := 0x80 ≤ b && b ≤ 0xBF

/-- The second byte of a character may follow its first one: no character is written longer than
    needed, none is a surrogate, none lies beyond the last code point. -/
def mayFollow (first second : Nat) : Bool :=
  isContinuation second && (first != 0xE0 || 0xA0 ≤ second) && (first != 0xED || second ≤ 0x9F)
    && (first != 0xF0 || 0x90 ≤ second) && (first != 0xF4 || second ≤ 0x8F)

/-- Reads the characters of `bytes`, the first of which has the given index, after the text read
    so far. -/
def decodeFrom (read : String) (index : Nat) : List UInt8 → Except Utf8Fault String
  | [] => .ok read
  | b₀ :: rest =>
    let first := b₀.toNat
    if first < 0x80 then decodeFrom (read.push (Char.ofNat first)) (index + 1) rest
    else if first < 0xC2 || 0xF4 < first then .error (.invalid index 1)
    else
      match rest with
      | [] => .error (.incomplete index)
      | b₁ :: rest =>
        let second := b₁.toNat
        if !mayFollow first second then .error (.invalid index 1)
        else if first < 0xE0 then
          let code := first % 32 * 64 + second % 64
          decodeFrom (read.push (Char.ofNat code)) (index + 2) rest
        else
          match rest with
          | [] => .error (.incomplete index)
          | b₂ :: rest =>
            let third := b₂.toNat
            if !isContinuation third then .error (.invalid index 2)
            else if first < 0xF0 then
              let code := (first % 16 * 64 + second % 64) * 64 + third % 64
              decodeFrom (read.push (Char.ofNat code)) (index + 3) rest
            else
              match rest with
              | [] => .error (.incomplete index)
              | b₃ :: rest =>
                let fourth := b₃.toNat
                if !isContinuation fourth then .error (.invalid index 3)
                else
                  let code := ((first % 8 * 64 + second % 64) * 64 + third % 64) * 64 + fourth % 64
                  decodeFrom (read.push (Char.ofNat code)) (index + 4) rest

/-- The text with the given UTF-8 bytes. -/
def decode (bytes : List UInt8) : Except Utf8Fault String := decodeFrom "" 0 bytes

end Utf8

end ConfigSampler.Text
