import ConfigSampler.Solver.Settings
import ConfigSampler.Solver.Trail

/-!
# Learning from conflicts

`analyze` turns a clause whose literals are all false into a clause to learn: it resolves the
conflict with the reasons of the literals of the current level, newest first, until one literal of
that level is left, and then drops literals that follow from the others.  The result comes with
the level to go back to, on which the first literal of the learnt clause is the only one without
a value.

The analysis only reads the trail and the clauses.  The clauses and variables it came across are
listed in order, so that their activity can be raised afterwards.
-/

set_option autoImplicit false

namespace ConfigSampler

/-- What is known about a variable during an analysis. -/
inductive Mark where
  | unseen
  /-- The variable belongs to the clause under construction. -/
  | source
  /-- The literal follows from the others. -/
  | removable
  /-- The literal was found not to follow from the others. -/
  | failed
deriving DecidableEq, Repr

instance : Inhabited Mark := ⟨.unseen⟩

/-- The mark of every variable. -/
abbrev Marks := Array Mark

/-- The mark of a variable. -/
def markOf (marks : Marks) (v : Nat) : Mark := marks.getD v .unseen

/-! ## Resolving -/

/-- A resolution in progress. -/
structure Resolution where
  marks : Marks
  /-- The literals of lower levels found so far. -/
  lower : Array Lit
  /-- The number of marked literals of the current level not yet reached on the trail. -/
  pending : Nat
  usedClauses : Array ClauseRef
  seenVars : Array Nat

namespace Resolution

/-- Takes up a false literal of a clause, unless its variable is marked or belongs to the ground
    level. -/
def addLit (trail : Trail) (r : Resolution) (l : Lit) : Resolution :=
  let v := l.var
  if markOf r.marks v ≠ .unseen then r
  else
    let level := trail.levelOf l
    if level = 0 then r
    else
      match r with
      | ⟨marks, lower, pending, usedClauses, seenVars⟩ =>
        let marks := marks.setIfInBounds v .source
        let seenVars := seenVars.push v
        if trail.level ≤ level then ⟨marks, lower, pending + 1, usedClauses, seenVars⟩
        else ⟨marks, lower.push l, pending, usedClauses, seenVars⟩

/-- Takes up literals in order. -/
def addLits (trail : Trail) (r : Resolution) (lits : List Lit) : Resolution :=
  lits.foldl (addLit trail) r

/-- Takes up the literals of a clause, all of them or all but the first. -/
def addClause (trail : Trail) (arena : Arena) (r : Resolution) (clause : ClauseRef)
    (all : Bool) : Resolution :=
  let lits := (arena.view clause).lits.toList
  let r := { r with usedClauses := r.usedClauses.push clause }
  r.addLits trail (if all then lits else lits.drop 1)

/-- Goes down the trail from place `i` and resolves with the reason of each marked literal, until
    it reaches the last one of the current level; gives the complement of that literal. -/
def walk (trail : Trail) (arena : Arena) (conflict : ClauseRef) :
    Nat → Resolution → Lit × Resolution
  | 0, r => (default, r)
  | i + 1, r =>
    let l := trail.litAt i
    if markOf r.marks l.var = .unseen then walk trail arena conflict i r
    else
      let r := { r with marks := r.marks.setIfInBounds l.var .unseen, pending := r.pending - 1 }
      if r.pending = 0 then (l.negate, r)
      else
        match trail.reasonOf l with
        | none => (l.negate, r)
        | some reason =>
          walk trail arena conflict i (r.addClause trail arena reason (reason == conflict))

end Resolution

/-! ## Dropping literals -/

/-- Applies a test with a state to items in order, until it fails. -/
@[specialize]
def allWith {α σ : Type} (test : α → σ → Bool × σ) : List α → σ → Bool × σ
  | [], s => (true, s)
  | a :: rest, s =>
    match test a s with
    | (false, s) => (false, s)
    | (true, s) => allWith test rest s

/-- The marks and the variables that got one while literals were dropped. -/
structure Marking where
  marks : Marks
  touched : List Nat

namespace Marking

/-- Marks a variable that has no mark. -/
def record (m : Marking) (v : Nat) (mark : Mark) : Marking :=
  if markOf m.marks v = .unseen then
    { marks := m.marks.setIfInBounds v mark, touched := v :: m.touched }
  else m

end Marking

/-- The literals of a clause but the first. -/
def otherLits (arena : Arena) (r : ClauseRef) : List Lit := (arena.view r).lits.toList.drop 1

/-- The literal belongs to a variable with a mark or to the ground level. -/
def isCovered (trail : Trail) (marks : Marks) (l : Lit) : Bool :=
  markOf marks l.var ≠ .unseen || trail.levelOf l == 0

/-- Every other literal of the literal's reason is covered. -/
def isRedundantBasic (trail : Trail) (arena : Arena) (marks : Marks) (l : Lit) : Bool :=
  match trail.reasonOf l with
  | none => false
  | some r => (otherLits arena r).all (isCovered trail marks)

/-- Every other literal of the given reason of `l` belongs to the ground level or to the clause, or
    is redundant itself.  The outcome is noted in the mark of `l`.  The first argument bounds the
    length of a chain of reasons. -/
def isRedundantVia (trail : Trail) (arena : Arena) :
    Nat → Lit → ClauseRef → Marking → Bool × Marking
  | 0, l, _, m => (false, m.record l.var .failed)
  | depth + 1, l, reason, m =>
    let test := fun (q : Lit) (m : Marking) =>
      let mark := markOf m.marks q.var
      if trail.levelOf q = 0 || mark = .source || mark = .removable then (true, m)
      else
        match trail.reasonOf q with
        | none => (false, m)
        | some r =>
          if mark = .unseen then isRedundantVia trail arena depth q r m else (false, m)
    let (redundant, m) := allWith test (otherLits arena reason) m
    (redundant, m.record l.var (if redundant then .removable else .failed))

/-- The literal follows from the other literals of the clause by a chain of reasons. -/
def isRedundant (trail : Trail) (arena : Arena) (l : Lit) (m : Marking) : Bool × Marking :=
  match trail.reasonOf l with
  | none => (false, m)
  | some r => isRedundantVia trail arena trail.numVars l r m

/-- The literals that are not redundant, in order. -/
def dropRedundant (trail : Trail) (arena : Arena) :
    List Lit → Array Lit → Marking → Array Lit × Marking
  | [], kept, m => (kept, m)
  | l :: rest, kept, m =>
    match isRedundant trail arena l m with
    | (true, m) => dropRedundant trail arena rest kept m
    | (false, m) => dropRedundant trail arena rest (kept.push l) m

/-- Shortens a clause with the first literal `head` and the other literals `lower`. -/
def minimise (mode : Minimisation) (trail : Trail) (arena : Arena) (head : Lit)
    (lower : Array Lit) (m : Marking) : Array Lit × Marking :=
  match mode with
  | .none => (#[head] ++ lower, m)
  | .basic => (#[head] ++ lower.filter fun l => !isRedundantBasic trail arena m.marks l, m)
  | .deep => dropRedundant trail arena lower.toList #[head] m

/-! ## The analysis -/

/-- The place of the literal of the highest level among those at the places `place, …` and the one
    at `best`; the first of equals. -/
def highestFrom (trail : Trail) : List Lit → Nat → Nat → Nat → Nat
  | [], _, best, _ => best
  | l :: rest, place, best, level =>
    if level < trail.levelOf l then highestFrom trail rest (place + 1) place (trail.levelOf l)
    else highestFrom trail rest (place + 1) best level

/-- A learnt clause and the level to go back to. -/
inductive Lesson where
  /-- The conflict involves no decision. -/
  | contradiction
  /-- A single literal, which holds at ground level. -/
  | unit (l : Lit)
  /-- A clause whose first literal is the only one without a value on the level. -/
  | clause (level : Nat) (lits : Array Lit)

/-- The outcome of an analysis. -/
structure Analysis where
  lesson : Lesson
  marks : Marks
  usedClauses : List ClauseRef
  seenVars : List Nat
  /-- The number of literals before and after shortening. -/
  before : Nat
  after : Nat

/-- Takes the marks of variables away. -/
def clearMarks (marks : Marks) (vars : List Nat) : Marks :=
  vars.foldl (fun marks v => marks.setIfInBounds v .unseen) marks

/-- The lesson of the literals of a learnt clause: the literal of the highest level among the
    others comes second, and its level is the one to go back to. -/
def lessonOf (trail : Trail) (lits : Array Lit) : Lesson :=
  if lits.size ≤ 1 then .unit (lits.getD 0 default)
  else
    let level := trail.levelOf (lits.getD 1 default)
    let place := highestFrom trail (lits.toList.drop 2) 2 1 level
    let lits := lits.swapIfInBounds 1 place
    .clause (trail.levelOf (lits.getD 1 default)) lits

/-- Finds the clause to learn from a conflict.  All marks are clear before and after. -/
def analyze (mode : Minimisation) (trail : Trail) (arena : Arena) (marks : Marks)
    (conflict : ClauseRef) : Analysis :=
  if trail.atGround then ⟨.contradiction, marks, [], [], 0, 0⟩
  else
    let start : Resolution := ⟨marks, #[], 0, #[], #[]⟩
    let start := start.addClause trail arena conflict true
    let (head, r) := Resolution.walk trail arena conflict trail.size start
    match r with
    | ⟨marks, lower, _, usedClauses, seenVars⟩ =>
      let (lits, m) := minimise mode trail arena head lower ⟨marks, []⟩
      let touched := m.touched
      let marks := clearMarks (clearMarks m.marks touched) (lower.toList.map Lit.var)
      let marks := clearMarks marks [head.var]
      ⟨lessonOf trail lits, marks, usedClauses.toList, seenVars.toList, lower.size + 1, lits.size⟩

end ConfigSampler
