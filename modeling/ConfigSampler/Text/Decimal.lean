/-!
# Decimal numbers

Unsigned decimal numbers in ASCII digits.  `digitsValue` is the number a run of digits denotes;
`digitsValue?` finds it if it is within a bound, without reading on past the bound, and
`wordValue?` reads a whole word, which may carry a plus sign.
-/

set_option autoImplicit false

namespace ConfigSampler.Text

/-- The character is a decimal digit. -/
def isDigit (c : Char) : Bool := '0' ≤ c && c ≤ '9'

/-- The number whose digits are those of `value` and one more. -/
def addDigit (value : Nat) (c : Char) : Nat := value * 10 + (c.toNat - '0'.toNat)

/-- The number whose digits are those of `value` and then the given ones. -/
def digitsValueFrom (value : Nat) (digits : List Char) : Nat := digits.foldl addDigit value

/-- The number with the given decimal digits. -/
def digitsValue (digits : List Char) : Nat := digitsValueFrom 0 digits

/-- As `digitsValueFrom`, but nothing as soon as the number exceeds the bound. -/
def digitsValueFrom? (bound value : Nat) : List Char → Option Nat
  | [] => if bound < value then none else some value
  | c :: cs => if bound < value then none else digitsValueFrom? bound (addDigit value c) cs

/-- The number with the given decimal digits, if it is within the bound. -/
def digitsValue? (bound : Nat) (digits : List Char) : Option Nat :=
  digitsValueFrom? bound 0 digits

/-- More digits make no number smaller. -/
theorem le_digitsValueFrom (value : Nat) (digits : List Char) :
    value ≤ digitsValueFrom value digits := by
  induction digits generalizing value with
  | nil => exact Nat.le_refl _
  | cons c cs ih =>
    refine Nat.le_trans ?_ (ih (addDigit value c))
    simp only [addDigit]
    omega

theorem digitsValueFrom?_eq (bound value : Nat) (digits : List Char) :
    digitsValueFrom? bound value digits
      = if bound < digitsValueFrom value digits then none
        else some (digitsValueFrom value digits) := by
  induction digits generalizing value with
  | nil => rfl
  | cons c cs ih =>
    simp only [digitsValueFrom?, ih]
    split
    · rename_i h
      have := le_digitsValueFrom value (c :: cs)
      rw [if_pos (by omega)]
    · rfl

/-- Stopping at the bound loses no number within it. -/
theorem digitsValue?_eq (bound : Nat) (digits : List Char) :
    digitsValue? bound digits
      = if bound < digitsValue digits then none else some (digitsValue digits) :=
  digitsValueFrom?_eq bound 0 digits

/-- The digits of a word, after its plus sign if it has one. -/
def unsigned : List Char → List Char
  | '+' :: rest => rest
  | word => word

/-- The number a word denotes: decimal digits, which may carry a plus sign, up to the given
    bound. -/
def wordValue? (bound : Nat) (word : List Char) : Option Nat :=
  let digits := unsigned word
  if digits.isEmpty || !digits.all isDigit then none else digitsValue? bound digits

end ConfigSampler.Text
