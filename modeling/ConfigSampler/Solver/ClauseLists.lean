import ConfigSampler.Solver.Propagation
import ConfigSampler.Solver.Settings

/-!
# Problem clauses and learnt clauses

`ClauseLists` names the problem clauses and the learnt clauses of an arena and counts both and
their literals.  Learnt clauses carry an activity that grows when they take part in a conflict;
`reduce` deletes the less active half of them, and `removeSatisfied` deletes the clauses that the
ground level satisfies and shortens the others.
-/

set_option autoImplicit false

namespace ConfigSampler

/-- The problem clauses and the learnt clauses with their counts. -/
structure ClauseLists where
  settings : ClauseSettings
  /-- What a clause's activity grows by. -/
  increment : Float
  clauses : Array ClauseRef
  learnts : Array ClauseRef
  numClauses : Nat
  numLearnts : Nat
  clauseLiterals : Nat
  learntLiterals : Nat

namespace ClauseLists

/-- No clauses. -/
def empty (settings : ClauseSettings) : ClauseLists := ⟨settings, 1.0, #[], #[], 0, 0, 0, 0⟩

/-- Counts a clause. -/
def count (d : ClauseLists) (learnt : Bool) (size : Nat) : ClauseLists :=
  if learnt then
    { d with numLearnts := d.numLearnts + 1, learntLiterals := d.learntLiterals + size }
  else { d with numClauses := d.numClauses + 1, clauseLiterals := d.clauseLiterals + size }

/-- Counts a clause no longer. -/
def discount (d : ClauseLists) (learnt : Bool) (size : Nat) : ClauseLists :=
  if learnt then
    { d with numLearnts := d.numLearnts - 1, learntLiterals := d.learntLiterals - size }
  else { d with numClauses := d.numClauses - 1, clauseLiterals := d.clauseLiterals - size }

/-- Makes all activities smaller by a common factor. -/
def rescale (learnts : List ClauseRef) (arena : Arena) : Arena :=
  learnts.foldl (fun arena r => arena.edit r fun c => c.setActivity (c.activity * 1e-20)) arena

/-- Makes a learnt clause more active. -/
def bump (d : ClauseLists) (arena : Arena) (r : ClauseRef) : ClauseLists × Arena :=
  let c := arena.view r
  if !c.learnt then (d, arena)
  else
    let activity := c.activity + d.increment
    let arena := arena.edit r fun c => c.setActivity activity
    if activity > 1e20 then
      let arena := rescale d.learnts.toList arena
      ({ d with increment := d.increment * 1e-20 }, arena)
    else (d, arena)

/-- Makes learnt clauses more active, in order. -/
def bumpAll (d : ClauseLists) (arena : Arena) : List ClauseRef → ClauseLists × Arena
  | [] => (d, arena)
  | r :: rest =>
    let (d, arena) := d.bump arena r
    d.bumpAll arena rest

/-- Lets the activity gathered so far weigh less. -/
def decay (d : ClauseLists) : ClauseLists :=
  { d with increment := d.increment * (1.0 / d.settings.decay) }

/-- Stores a problem clause. -/
def addClause (d : ClauseLists) (arena : Arena) (lits : Array Lit) :
    ClauseRef × ClauseLists × Arena :=
  let size := lits.size
  let (r, arena) := arena.alloc lits false
  let d := d.count false size
  (r, { d with clauses := d.clauses.push r }, arena)

/-- Stores a learnt clause. -/
def learnClause (d : ClauseLists) (arena : Arena) (lits : Array Lit) :
    ClauseRef × ClauseLists × Arena :=
  let size := lits.size
  let (r, arena) := arena.alloc lits true
  let d := d.count true size
  let d := { d with learnts := d.learnts.push r }
  let (d, arena) := d.bump arena r
  (r, d, arena)

/-! ## Deleting learnt clauses -/

/-- A clause may come before another in the order of deletion: clauses of two literals come last,
    and otherwise the less active comes first. -/
def deletedBefore (arena : Arena) (r s : ClauseRef) : Bool :=
  let c := arena.view r
  let d := arena.view s
  if c.size = 2 then d.size == 2
  else d.size == 2 || !(c.activity > d.activity)

/-- A learnt clause is to be deleted: it has more than two literals, is no reason of its first
    literal, and stands in the first half or is hardly active. -/
def isDispensable (p : Propagator) (r : ClauseRef) (firstHalf : Bool) (least : Float) : Bool :=
  let c := p.arena.view r
  !c.deleted && 2 < c.size && !p.trail.isReasonFor r c.head
    && (firstHalf || c.activity < least)

/-- Deletes a clause. -/
def delete (d : ClauseLists) (p : Propagator) (r : ClauseRef) : ClauseLists × Propagator :=
  let c := p.arena.view r
  let (first, second, learnt, size) := (c.head, c.second, c.learnt, c.size)
  (d.discount learnt size,
    { p with arena := p.arena.free r, watches := WatchTable.detach p.watches first second })

/-- Deletes the dispensable ones of the learnt clauses, of which the first `half` belong to the
    first half. -/
def reduceLoop (least : Float) : List ClauseRef → Nat → Array ClauseRef → ClauseLists →
    Propagator → Array ClauseRef × ClauseLists × Propagator
  | [], _, kept, d, p => (kept, d, p)
  | r :: rest, half, kept, d, p =>
    if isDispensable p r (decide (0 < half)) least then
      let (d, p) := d.delete p r
      reduceLoop least rest (half - 1) kept d p
    else if p.arena.isDeleted r then reduceLoop least rest (half - 1) kept d p
    else reduceLoop least rest (half - 1) (kept.push r) d p

/-- Deletes about half of the learnt clauses, the less active ones. -/
def reduce (d : ClauseLists) (p : Propagator) : ClauseLists × Propagator :=
  let order := d.learnts.toList.mergeSort (deletedBefore p.arena)
  let half := order.length / 2
  let least := d.increment / Float.ofNat order.length
  let (kept, d, p) := reduceLoop least order half #[] d p
  ({ d with learnts := kept }, p)

/-! ## Simplifying at ground level -/

/-- The ground level makes some literal of the clause true. -/
def isSatisfied (trail : Trail) (c : Clause) : Bool := c.lits.any trail.isTrue

/-- Removes the false literals of a clause after the watched ones. -/
def shorten (d : ClauseLists) (p : Propagator) (r : ClauseRef) : ClauseLists × Propagator :=
  let c := p.arena.view r
  let (learnt, size) := (c.learnt, c.size)
  let trail := p.trail
  let arena := p.arena.edit r fun c => c.retainSuffix 2 fun l => !trail.isFalse l
  let shorter := (arena.view r).size
  ((d.discount learnt size).count learnt shorter, { p with arena := arena })

/-- Deletes the satisfied clauses of a list and shortens the others. -/
def simplifyLoop : List ClauseRef → Array ClauseRef → ClauseLists → Propagator →
    Array ClauseRef × ClauseLists × Propagator
  | [], kept, d, p => (kept, d, p)
  | r :: rest, kept, d, p =>
    if p.arena.isDeleted r then simplifyLoop rest kept d p
    else if isSatisfied p.trail (p.arena.view r) then
      let (d, p) := d.delete p r
      simplifyLoop rest kept d p
    else
      let (d, p) := d.shorten p r
      simplifyLoop rest (kept.push r) d p

/-- Deletes the satisfied clauses and shortens the others, at ground level with an empty queue. -/
def removeSatisfied (d : ClauseLists) (p : Propagator) : ClauseLists × Propagator :=
  let (kept, d, p) := simplifyLoop d.learnts.toList #[] d p
  let d := { d with learnts := kept }
  if d.settings.removeSatisfied then
    let (kept, d, p) := simplifyLoop d.clauses.toList #[] d p
    ({ d with clauses := kept }, p)
  else (d, p)

/-! ## Moving to a fresh arena -/

/-- Renames the clauses of a list. -/
def relocateRefs :
    List ClauseRef → Array ClauseRef → Arena → Arena → Array ClauseRef × Arena × Arena
  | [], kept, source, target => (kept, source, target)
  | r :: rest, kept, source, target =>
    match source.relocate target r with
    | (none, source, target) => relocateRefs rest kept source target
    | (some name, source, target) => relocateRefs rest (kept.push name) source target

/-- Renames the clauses of both lists. -/
def relocate (d : ClauseLists) (source target : Arena) : ClauseLists × Arena × Arena :=
  let (learnts, source, target) := relocateRefs d.learnts.toList #[] source target
  let (clauses, source, target) := relocateRefs d.clauses.toList #[] source target
  ({ d with learnts := learnts, clauses := clauses }, source, target)

end ClauseLists

/-- Moves the live clauses to a fresh arena and renames them wherever they are named. -/
def compact (d : ClauseLists) (p : Propagator) : ClauseLists × Propagator :=
  let (lists, source, target) :=
    Propagator.relocateLists p.watches.slots.toList #[] p.arena Arena.empty
  let (trail, source, target) := p.trail.relocate source target
  let (d, _, target) := d.relocate source target
  (d, { p with watches := ⟨lists⟩, trail := trail, arena := target })

end ConfigSampler
