import ConfigSampler.Arithmetic.Floating
import ConfigSampler.Solver.Literal

/-!
# The clause arena

Clauses of two or more literals live in an `Arena` and are named by their position in it.  A freed
clause stays in place, marked as deleted, until the live clauses are moved into a fresh arena;
`relocate` moves one of them and leaves its new name behind, so that every holder of the old name
finds the same new one.

The first two literals of a clause are the watched ones.
-/

set_option autoImplicit false

namespace ConfigSampler

/-- The name of a clause: its position in the arena.  Names that take 32 bits run out in the end; here
    they have no bound. -/
structure ClauseRef where
  index : Nat
deriving DecidableEq, Repr

/-- A disjunction of literals with what the solver keeps about it. -/
structure Clause where
  lits : Array Lit
  learnt : Bool
  deleted : Bool
  /-- How useful the clause was of late, a number of single precision. -/
  activity : Float
  /-- The clause's name in the arena it was moved to. -/
  movedTo : Option ClauseRef

namespace Clause

instance : Inhabited Clause := ⟨⟨#[], false, true, 0, none⟩⟩

/-- The number of literals. -/
def size (c : Clause) : Nat := c.lits.size

/-- The literal at a place. -/
def litAt (c : Clause) (i : Nat) : Lit := c.lits.getD i default

/-- The first literal. -/
def head (c : Clause) : Lit := c.litAt 0

/-- The second literal. -/
def second (c : Clause) : Lit := c.litAt 1

/-- Exchanges two literals. -/
def swap (c : Clause) (i j : Nat) : Clause := { c with lits := c.lits.swapIfInBounds i j }

/-- Sets the activity, rounded to single precision. -/
def setActivity (c : Clause) (activity : Float) : Clause :=
  { c with activity := Floating.toSingle activity }

/-- Removes the literals from place `i` on for which `keep` fails; the last literal takes the
    place of a removed one. -/
def retainFrom (keep : Lit → Bool) (lits : Array Lit) (i : Nat) : Array Lit :=
  if h : i < lits.size then
    if keep lits[i] then retainFrom keep lits (i + 1)
    else retainFrom keep ((lits.swapIfInBounds i (lits.size - 1)).pop) i
  else lits
termination_by lits.size - i
decreasing_by
  · omega
  · simp only [Array.size_pop, Array.size_swapIfInBounds]; omega

/-- Removes the literals from place `base` on for which `keep` fails. -/
def retainSuffix (c : Clause) (base : Nat) (keep : Lit → Bool) : Clause :=
  { c with lits := retainFrom keep c.lits base }

/-- The first place from `i` on whose literal `wanted` accepts. -/
@[specialize]
def findFrom (wanted : Lit → Bool) (lits : Array Lit) (i : Nat) : Option Nat :=
  if h : i < lits.size then
    if wanted lits[i] then some i else findFrom wanted lits (i + 1)
  else none
termination_by lits.size - i

/-- Exchanges the literal at `place` with the first one after it that `wanted` accepts, if there is
    one. -/
def pullLiteral (c : Clause) (place : Nat) (wanted : Lit → Bool) : Option Lit × Clause :=
  match findFrom wanted c.lits (place + 1) with
  | none => (none, c)
  | some i =>
    let c := c.swap i place
    (some (c.litAt place), c)

/-- The literals between parentheses, with a mark if the clause is deleted. -/
def render (c : Clause) : String :=
  (if c.deleted then "<deleted>" else "") ++ "("
    ++ String.intercalate " ∨ " (c.lits.toList.map Lit.render) ++ ")"

end Clause

/-- Clauses by position, with the words they take up in all and the words of the deleted ones. -/
structure Arena where
  clauses : Array Clause
  size : Nat
  wasted : Nat

namespace Arena

/-- The arena without clauses. -/
def empty : Arena := ⟨#[], 0, 0⟩

/-- The words a clause takes up: one, one for each literal, and one if it is learnt. -/
def words (length : Nat) (learnt : Bool) : Nat := 1 + length + if learnt then 1 else 0

/-- The clause of a name. -/
def view (a : Arena) (r : ClauseRef) : Clause := a.clauses.getD r.index default

/-- Changes the clause of a name. -/
@[inline]
def edit (a : Arena) (r : ClauseRef) (f : Clause → Clause) : Arena :=
  { a with clauses := a.clauses.modify r.index f }

/-- Stores a clause with the given activity and gives its name. -/
def push (a : Arena) (lits : Array Lit) (learnt : Bool) (activity : Float) : ClauseRef × Arena :=
  let name := a.clauses.size
  (⟨name⟩,
    { clauses := a.clauses.push ⟨lits, learnt, false, activity, none⟩
      size := a.size + words lits.size learnt
      wasted := a.wasted })

/-- Stores a new clause and gives its name. -/
def alloc (a : Arena) (lits : Array Lit) (learnt : Bool) : ClauseRef × Arena :=
  a.push lits learnt 0

/-- The clause is marked as deleted. -/
def isDeleted (a : Arena) (r : ClauseRef) : Bool := (a.view r).deleted

/-- Marks a clause as deleted. -/
def free (a : Arena) (r : ClauseRef) : Arena :=
  let c := a.view r
  let freed := words c.size c.learnt
  { a.edit r fun c => { c with deleted := true } with wasted := a.wasted + freed }

/-- More than the given fraction of the words belong to deleted clauses. -/
def hasGarbage (a : Arena) (fraction : Float) : Bool :=
  Float.ofNat a.wasted > Float.ofNat a.size * fraction

/-- The name of a clause in the arena `target`, into which it is moved unless that has happened
    already; a deleted clause has none. -/
def relocate (a target : Arena) (r : ClauseRef) : Option ClauseRef × Arena × Arena :=
  let c := a.view r
  if c.deleted then (none, a, target)
  else
    match c.movedTo with
    | some name => (some name, a, target)
    | none =>
      let (name, target) := target.push c.lits c.learnt c.activity
      (some name, a.edit r fun c => { c with movedTo := some name }, target)

end Arena

end ConfigSampler
