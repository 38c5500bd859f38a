import ConfigSampler.Solver.Arena

/-!
# The trail

The trail lists the literals that are currently true, in the order in which they became true, cut
into decision levels; level `0` is the ground level.  Beside it stand the values of the two
literals, the level and the reason of every variable, and the head of the queue of literals still to
be propagated.  Each literal has a value of its own: `assign` writes both of a variable, and
`unassign` clears both.  `rewindTo` undoes levels, newest literal first.
-/

set_option autoImplicit false

namespace ConfigSampler

/-- The value of a variable or a literal. -/
inductive Value where
  | unset
  | isFalse
  | isTrue
deriving DecidableEq, Repr

namespace Value

/-- The value of the complement. -/
def flip : Value → Value
  | .unset => .unset
  | .isFalse => .isTrue
  | .isTrue => .isFalse

/-- The name of a value. -/
def name : Value → String
  | .unset => "Undef"
  | .isFalse => "False"
  | .isTrue => "True"

end Value

/-- The values of the two literals of a variable. -/
structure LitValues where
  positive : Value
  negative : Value
deriving DecidableEq, Repr

namespace LitValues

/-- The variable has no value. -/
def unset : LitValues := ⟨.unset, .unset⟩

/-- The value of the literal of the given sign. -/
def get (s : LitValues) (negated : Bool) : Value := if negated then s.negative else s.positive

/-- Writes the value of the literal of the given sign. -/
def set (s : LitValues) (negated : Bool) (value : Value) : LitValues :=
  if negated then { s with negative := value } else { s with positive := value }

@[simp]
theorem get_set (s : LitValues) (negated : Bool) (value : Value) :
    (s.set negated value).get negated = value := by
  cases negated <;> rfl

@[simp]
theorem get_set_not (s : LitValues) (negated : Bool) (value : Value) :
    (s.set (!negated) value).get negated = s.get negated := by
  cases negated <;> rfl

end LitValues

/-- The true literals in order, by decision level. -/
structure Trail where
  /-- The values of the literals of each variable. -/
  values : Array LitValues
  /-- The level on which each variable got its latest value. -/
  levels : Array Nat
  /-- The clause that forced each variable's value. -/
  reasons : Array (Option ClauseRef)
  lits : Array Lit
  /-- For each level above ground, the number of literals below it. -/
  limits : Array Nat
  /-- The number of literals taken from the queue. -/
  queueHead : Nat

namespace Trail

/-- The trail without variables. -/
def empty : Trail := ⟨#[], #[], #[], #[], #[], 0⟩

/-- The number of variables. -/
def numVars (t : Trail) : Nat := t.values.size

/-- The number of literals on the trail. -/
def size (t : Trail) : Nat := t.lits.size

/-- The number of literals on the ground level. -/
def groundSize (t : Trail) : Nat := t.limits.getD 0 t.lits.size

/-- The current decision level. -/
def level (t : Trail) : Nat := t.limits.size

/-- No level above ground is open. -/
def atGround (t : Trail) : Bool := t.limits.isEmpty

/-- Adds a variable without a value. -/
def newVar (t : Trail) : Trail :=
  { t with
    values := t.values.push .unset
    levels := t.levels.push 0
    reasons := t.reasons.push none }

/-- Opens a level. -/
def newLevel (t : Trail) : Trail :=
  let bottom := t.lits.size
  { t with limits := t.limits.push bottom }

/-- The values of a variable's literals. -/
def valuesOf (t : Trail) (v : Nat) : LitValues := t.values.getD v .unset

/-- The variable has no value, as its positive literal tells. -/
def isFree (t : Trail) (v : Nat) : Bool := (t.valuesOf v).positive == .unset

/-- The value of a literal. -/
def value (t : Trail) (l : Lit) : Value := (t.valuesOf l.var).get l.negated

/-- The literal is true. -/
def isTrue (t : Trail) (l : Lit) : Bool := t.value l == .isTrue

/-- The literal is false. -/
def isFalse (t : Trail) (l : Lit) : Bool := t.value l == .isFalse

/-- The level on which the literal's variable got its latest value. -/
def levelOf (t : Trail) (l : Lit) : Nat := t.levels.getD l.var 0

/-- The clause that forced the value of the literal's variable. -/
def reasonOf (t : Trail) (l : Lit) : Option ClauseRef := t.reasons.getD l.var none

/-- The literal is true, and the clause forced it. -/
def isReasonFor (t : Trail) (r : ClauseRef) (l : Lit) : Bool :=
  t.isTrue l && t.reasonOf l == some r

/-- The literal at a place of the trail. -/
def litAt (t : Trail) (i : Nat) : Lit := t.lits.getD i default

/-- Makes a literal without a value true on the current level, and its complement false. -/
def assign (t : Trail) (l : Lit) (reason : Option ClauseRef) : Trail :=
  let v := l.var
  let level := t.limits.size
  let values := ((t.valuesOf v).set l.negated .isTrue).set (!l.negated) .isFalse
  { t with
    values := t.values.setIfInBounds v values
    levels := t.levels.setIfInBounds v level
    reasons := t.reasons.setIfInBounds v reason
    lits := t.lits.push l }

/-- Takes the next literal to propagate. -/
def dequeue (t : Trail) : Option (Lit × Trail) :=
  if t.queueHead < t.lits.size then
    let l := t.litAt t.queueHead
    some (l, { t with queueHead := t.queueHead + 1 })
  else none

/-- Empties the queue. -/
def dequeueAll (t : Trail) : Trail :=
  let size := t.lits.size
  { t with queueHead := size }

/-- Takes the values of a variable's literals away, and its reason. -/
def unassign (t : Trail) (v : Nat) : Trail :=
  { t with
    values := t.values.setIfInBounds v .unset
    reasons := t.reasons.setIfInBounds v none }

/-- Takes the last `n` literals off the trail and notes each with the level it was on. -/
def dropLits (level : Nat) : Nat → Trail → Array (Nat × Lit) → Trail × Array (Nat × Lit)
  | 0, t, removed => (t, removed)
  | n + 1, t, removed =>
    let l := t.litAt (t.lits.size - 1)
    let t := { t with lits := t.lits.pop }
    dropLits level n (t.unassign l.var) (removed.push (level, l))

/-- Undoes the last `n` levels. -/
def dropLevels : Nat → Trail → Array (Nat × Lit) → Trail × Array (Nat × Lit)
  | 0, t, removed => (t, removed)
  | n + 1, t, removed =>
    let level := t.limits.size
    let bottom := t.limits.getD (level - 1) 0
    let t := { t with limits := t.limits.pop }
    let (t, removed) := dropLits level (t.lits.size - bottom) t removed
    dropLevels n t removed

/-- Undoes every level above `target`, and gives the removed literals, newest first, each with the
    level it was on. -/
def rewindTo (t : Trail) (target : Nat) : Trail × Array (Nat × Lit) :=
  let (t, removed) := dropLevels (t.level - target) t #[]
  let size := t.lits.size
  ({ t with queueHead := min t.queueHead size }, removed)

/-- The place of a level's first literal. -/
def bottom (t : Trail) (level : Nat) : Nat :=
  if level = 0 then 0 else t.limits.getD (level - 1) 0

/-- The place after a level's last literal. -/
def top (t : Trail) (level : Nat) : Nat := t.limits.getD level t.lits.size

/-- The literals of a level, in order. -/
def segment (t : Trail) (level : Nat) : List Lit :=
  (t.lits.toList.take (t.top level)).drop (t.bottom level)

/-- How much of the search space is left behind: each literal of level `k` counts as the `k`-th
    power of one variable's share. -/
def progress (t : Trail) : Float :=
  if t.numVars = 0 then 1.0
  else
    let share := 1.0 / Float.ofNat t.numVars
    let sum := (List.range (t.level + 1)).foldl
      (fun sum level =>
        sum + Floating.power share level * Float.ofNat (t.top level - t.bottom level)) 0.0
    sum * share

/-- The literals of all variables with a value, by variable, as the positive literals tell. -/
def model (t : Trail) : List Lit :=
  t.values.toList.zipIdx.filterMap fun (values, v) =>
    match values.positive with
    | .unset => none
    | .isFalse => some (Lit.ofVar v true)
    | .isTrue => some (Lit.ofVar v false)

/-- The levels that hold literals, each with its literals. -/
def render (t : Trail) : String :=
  String.join ((List.range (t.level + 1)).map fun level =>
    match t.segment level with
    | [] => ""
    | lits =>
      "[" ++ toString level ++ ":" ++ String.join (lits.map fun l => " " ++ l.render) ++ " ]")

/-- Renames the reasons of the literals on the trail to the names in the arena `target`, into
    which the clauses are moved; a deleted clause is a reason no longer. -/
def relocateReasons : List Lit → Trail → Arena → Arena → Trail × Arena × Arena
  | [], t, source, target => (t, source, target)
  | l :: rest, t, source, target =>
    match t.reasonOf l with
    | none => relocateReasons rest t source target
    | some r =>
      let (name, source, target) := source.relocate target r
      relocateReasons rest { t with reasons := t.reasons.setIfInBounds l.var name } source target

/-- Renames all reasons to names in the arena `target`. -/
def relocate (t : Trail) (source target : Arena) : Trail × Arena × Arena :=
  let lits := t.lits.toList
  relocateReasons lits t source target

end Trail

end ConfigSampler
