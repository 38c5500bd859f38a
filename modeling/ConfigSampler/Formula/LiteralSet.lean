/-!
# Sets of literals

A literal is a non-zero integer: `v` selects variable `v`, `-v` deselects it.  A `LiteralSet` is a
full or partial assignment, a clause or a combination, depending on its use.  It is stored in one
of two layouts: *indexed*, where slot `v - 1` holds `v`, `-v` or `0` for "not mentioned", or
*unordered*, where the literals stand in the order of their insertion.  Both layouts answer the
same questions; `valueOf` is the one the others are built on.
-/

set_option autoImplicit false

namespace ConfigSampler

/-- How the slots of a set are laid out. -/
inductive Layout where
  /-- Slot `v - 1` belongs to variable `v`. -/
  | indexed
  /-- Literals stand in insertion order. -/
  | unordered
deriving DecidableEq, Repr

/-- A set of literals. -/
structure LiteralSet where
  layout : Layout
  slots : Array Int
deriving DecidableEq, Repr

namespace LiteralSet

instance : Inhabited LiteralSet := ⟨⟨.unordered, #[]⟩⟩

/-- Appends a literal unless it is zero or already there. -/
def insertNew (lits : Array Int) (lit : Int) : Array Int :=
  if lit = 0 || lits.contains lit then lits else lits.push lit

/-- The unordered set of the given literals; zeros and repetitions are dropped. -/
def ofList (lits : List Int) : LiteralSet := ⟨.unordered, lits.foldl insertNew #[]⟩

/-- Puts a literal into the slot of its variable, if there is such a slot. -/
def place (slots : Array Int) (lit : Int) : Array Int :=
  if lit = 0 then slots else slots.setIfInBounds (lit.natAbs - 1) lit

/-- The set of a model's literals: indexed over `n` variables, where a later literal of a
    variable replaces an earlier one, or unordered. -/
def ofModel (lits : List Int) (n : Nat) : Layout → LiteralSet
  | .indexed => ⟨.indexed, lits.foldl place (Array.replicate n 0)⟩
  | .unordered => ofList lits

/-- The literals in slot order, without the slots not in use. -/
def literals (s : LiteralSet) : List Int := s.slots.toList.filter (· ≠ 0)

/-- The number of literals. -/
def size (s : LiteralSet) : Nat := s.literals.length

/-- There is no literal. -/
def isEmpty (s : LiteralSet) : Bool := s.size == 0

/-- The set of the complements, in the same layout. -/
def negate (s : LiteralSet) : LiteralSet := ⟨s.layout, s.slots.map (- ·)⟩

/-- The value given to variable `v`: selected, deselected, or not mentioned. -/
def valueOf (s : LiteralSet) (v : Nat) : Option Bool :=
  match s.layout with
  | .indexed =>
    if v = 0 then none
    else
      match s.slots[v - 1]? with
      | none => none
      | some lit => if lit = v then some true else if lit = -(v : Int) then some false else none
  | .unordered => (s.slots.find? fun lit => lit.natAbs == v).map fun lit => decide (0 < lit)

/-- The literal's variable has the value that makes the literal true. -/
def contains (s : LiteralSet) (lit : Int) : Bool :=
  lit != 0 && s.valueOf lit.natAbs == some (decide (0 < lit))

/-- Every literal of `t` is in `s`. -/
def containsAll (s t : LiteralSet) : Bool := t.literals.all s.contains

/-- The complement of some literal of `t` is in `s`. -/
def hasConflict (s t : LiteralSet) : Bool := t.literals.any fun lit => s.contains (-lit)

/-- The unordered set of the literals of both, those of `s` first. -/
def union (s t : LiteralSet) : LiteralSet := ofList (s.literals ++ t.literals)

/-- Some literal and its complement are both in the set. -/
def isContradictory (s : LiteralSet) : Bool := s.literals.any fun lit => s.contains (-lit)

/-- The literals between braces, separated by spaces. -/
def render (s : LiteralSet) : String :=
  "\x7b" ++ String.intercalate " " (s.literals.map toString) ++ "\x7d"

end LiteralSet

end ConfigSampler
