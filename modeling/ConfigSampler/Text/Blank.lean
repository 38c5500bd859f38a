/-!
# White space

The characters that separate words, and the words of a line.  The table lists the characters
with the Unicode property `White_Space`.
-/

set_option autoImplicit false

namespace ConfigSampler.Text

/-- The character has the Unicode property `White_Space`. -/
def isBlank (c : Char) : Bool :=
  let n := c.toNat
  (9 ≤ n && n ≤ 13) || n == 0x20 || n == 0x85 || n == 0xA0 || n == 0x1680
    || (0x2000 ≤ n && n ≤ 0x200A) || n == 0x2028 || n == 0x2029 || n == 0x202F
    || n == 0x205F || n == 0x3000

/-- Every character that core counts as white space is one. -/
theorem isBlank_of_isWhitespace {c : Char} (h : c.isWhitespace = true) : isBlank c = true := by
  simp only [Char.isWhitespace, Bool.or_eq_true, decide_eq_true_eq] at h
  rcases h with ((rfl | rfl) | rfl) | rfl <;> decide

/-- The text without the white space at its start. -/
def trimStart (cs : List Char) : List Char := cs.dropWhile isBlank

/-- The text without the white space at its end. -/
def trimEnd (cs : List Char) : List Char := (trimStart cs.reverse).reverse

/-- The text without the white space at its ends. -/
def trim (cs : List Char) : List Char := trimEnd (trimStart cs)

/-- The text up to the first white-space character, and the text after that character, if
    there is one. -/
def splitAtBlank (cs : List Char) : List Char × Option (List Char) :=
  let word := cs.takeWhile fun c => !isBlank c
  match cs.dropWhile fun c => !isBlank c with
  | [] => (word, none)
  | _ :: rest => (word, some rest)

end ConfigSampler.Text
