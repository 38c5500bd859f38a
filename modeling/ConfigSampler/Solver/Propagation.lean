import ConfigSampler.Solver.Table
import ConfigSampler.Solver.Trail

/-!
# Unit propagation

Every clause is watched through its first two literals: the list of a literal names the clauses in
which the complement of that literal is watched, so these are the clauses to look at when the
literal becomes true.  A watcher also carries a *blocker*, another literal of the clause; while it
is true the clause need not be looked at.

`propagate` empties the queue of the trail.  For each literal it goes through the list of the
literal: a clause that is neither satisfied nor can be watched elsewhere forces its first literal
or is the conflict.
-/

set_option autoImplicit false

namespace ConfigSampler

/-- A clause that watches a literal, with another literal of it. -/
structure Watcher where
  clause : ClauseRef
  blocker : Lit
deriving DecidableEq, Repr

/-- The watchers of a literal. -/
structure WatchList where
  watchers : Array Watcher
  /-- Some of the watchers may belong to deleted clauses. -/
  stale : Bool

namespace WatchList

/-- The list without watchers. -/
def empty : WatchList := ⟨#[], false⟩

instance : Inhabited WatchList := ⟨empty⟩

end WatchList

/-- The watchers of every literal, by its code. -/
abbrev WatchTable := DenseTable WatchList

namespace WatchTable

/-- Makes room for the two literals of a variable. -/
def newVar (w : WatchTable) (v : Nat) : WatchTable :=
  DenseTable.grow (DenseTable.grow w WatchList.empty (2 * v)) WatchList.empty (2 * v + 1)

/-- Adds a watcher to the list of a literal. -/
def push (w : WatchTable) (l : Lit) (watcher : Watcher) : WatchTable :=
  ⟨w.slots.modify l.code fun list => { list with watchers := list.watchers.push watcher }⟩

/-- Watches a clause through its first two literals. -/
def attach (w : WatchTable) (r : ClauseRef) (first second : Lit) : WatchTable :=
  (push w first.negate ⟨r, second⟩).push second.negate ⟨r, first⟩

/-- Notes that a clause with the given first two literals was deleted. -/
def detach (w : WatchTable) (first second : Lit) : WatchTable :=
  let mark := fun (list : WatchList) => { list with stale := true }
  ⟨(w.slots.modify first.negate.code mark).modify second.negate.code mark⟩

end WatchTable

/-- What propagation works on: the trail, the clauses and their watchers. -/
structure Propagator where
  trail : Trail
  arena : Arena
  watches : WatchTable
  /-- The number of literals propagated so far. -/
  propagations : Nat

namespace Propagator

/-- Nothing to propagate on. -/
def empty : Propagator := ⟨Trail.empty, Arena.empty, DenseTable.empty, 0⟩

/-- Adds a variable. -/
def newVar (p : Propagator) : Propagator :=
  let v := p.trail.numVars
  { p with trail := p.trail.newVar, watches := WatchTable.newVar p.watches v }

/-- Makes a literal true. -/
def assign (p : Propagator) (l : Lit) (reason : Option ClauseRef) : Propagator :=
  { p with trail := p.trail.assign l reason }

/-- Exchanges the first two literals of a clause if the first one is the given literal. -/
def faceAway (p : Propagator) (r : ClauseRef) (l : Lit) : Propagator :=
  if (p.arena.view r).head = l then { p with arena := p.arena.edit r fun c => c.swap 0 1 } else p

/-- Pulls the first literal after the watched ones that is not false to the second place of a clause,
    if there is one. -/
def pullOpen (p : Propagator) (r : ClauseRef) : Option Lit × Propagator :=
  match (p.arena.view r).pullLiteral 1 fun l => !p.trail.isFalse l with
  | (none, _) => (none, p)
  | (some l, c) => (some l, { p with arena := p.arena.edit r fun _ => c })

/-- Watches a clause through a literal of it. -/
def watch (p : Propagator) (watcher : Watcher) (l : Lit) : Propagator :=
  { p with watches := WatchTable.push p.watches l.negate watcher }

/-- Goes through watchers of a literal that became true, whose complement is `falseLit`.  Gives the
    watchers that stay in the list, and the clause that is in conflict, if there is one. -/
def sweep (falseLit : Lit) :
    List Watcher → Array Watcher → Propagator → Array Watcher × Option ClauseRef × Propagator
  | [], kept, p => (kept, none, p)
  | watcher :: rest, kept, p =>
    if p.trail.isTrue watcher.blocker then sweep falseLit rest (kept.push watcher) p
    else
      let p := p.faceAway watcher.clause falseLit
      let head := (p.arena.view watcher.clause).head
      let renewed : Watcher := ⟨watcher.clause, head⟩
      if head ≠ watcher.blocker && p.trail.isTrue head then
        sweep falseLit rest (kept.push renewed) p
      else
        match p.pullOpen watcher.clause with
        | (some l, p) => sweep falseLit rest kept (p.watch renewed l)
        | (none, p) =>
          let kept := kept.push renewed
          if p.trail.isFalse head then
            (kept ++ rest, some watcher.clause, { p with trail := p.trail.dequeueAll })
          else sweep falseLit rest kept (p.assign head (some watcher.clause))

/-- The watchers of a literal, without those of deleted clauses. -/
def liveWatchers (p : Propagator) (list : WatchList) : Array Watcher :=
  if list.stale then list.watchers.filter fun w => !p.arena.isDeleted w.clause
  else list.watchers

/-- Goes through the watchers of a literal that was taken from the queue. -/
def visit (p : Propagator) (l : Lit) : Option ClauseRef × Propagator :=
  let watchers := p.liveWatchers (p.watches.slots.getD l.code default)
  let p := { p with
    propagations := p.propagations + 1
    watches := DenseTable.set p.watches l.code WatchList.empty }
  let (kept, conflict, p) := sweep l.negate watchers.toList #[] p
  (conflict, { p with watches := DenseTable.set p.watches l.code ⟨kept, false⟩ })

/-- Propagates up to `n` literals; a conflict empties the queue. -/
def propagateUpTo : Nat → Option ClauseRef → Propagator → Option ClauseRef × Propagator
  | 0, conflict, p => (conflict, p)
  | n + 1, conflict, p =>
    match p.trail.dequeue with
    | none => (conflict, p)
    | some (l, trail) =>
      let (found, p) := visit { p with trail := trail } l
      propagateUpTo n (found.or conflict) p

/-- Empties the queue and gives the clause that is in conflict, if there is one.  Every literal in
    the queue belongs to a variable of its own, so the number of variables bounds the rounds. -/
def propagate (p : Propagator) : Option ClauseRef × Propagator :=
  let rounds := p.trail.numVars + 1
  propagateUpTo rounds none p

/-- Renames the watched clauses of a list. -/
def relocateWatchers :
    List Watcher → Array Watcher → Arena → Arena → Array Watcher × Arena × Arena
  | [], kept, source, target => (kept, source, target)
  | w :: rest, kept, source, target =>
    match source.relocate target w.clause with
    | (none, source, target) => relocateWatchers rest kept source target
    | (some name, source, target) =>
      relocateWatchers rest (kept.push { w with clause := name }) source target

/-- Renames the watched clauses of all lists. -/
def relocateLists :
    List WatchList → Array WatchList → Arena → Arena → Array WatchList × Arena × Arena
  | [], done, source, target => (done, source, target)
  | list :: rest, done, source, target =>
    let (kept, source, target) := relocateWatchers list.watchers.toList #[] source target
    relocateLists rest (done.push ⟨kept, false⟩) source target

end Propagator

end ConfigSampler
