import ConfigSampler.Formula.Cnf
import ConfigSampler.Sampling.Combination
import ConfigSampler.Sampling.Strategy

/-!
# Covering samples

The `Covering` strategy takes the candidate combinations one by one and sees to it that each ends
up in some *working* configuration: a set of literals that has to be kept, with one full model
that contains it.  A candidate is covered if it is kept somewhere already, or can be kept in
addition somewhere, with the model at hand or another one; otherwise it gets a working
configuration of its own, or is infeasible.  Then the working configurations are handed out.
-/

set_option autoImplicit false

namespace ConfigSampler

/-- The order in which working configurations are tried. -/
inductive ExtensionPolicy where
  /-- The oldest first. -/
  | firstFit
  /-- The newest first. -/
  | lastFit
  /-- A fresh random order for each combination. -/
  | shuffled
deriving DecidableEq, Repr

/-- The name of a policy. -/
def ExtensionPolicy.name : ExtensionPolicy → String
  | .firstFit => "FirstFit"
  | .lastFit => "LastFit"
  | .shuffled => "Shuffled"

instance : Inhabited ExtensionPolicy := ⟨.shuffled⟩

/-- A configuration under construction: the literals to keep and a full model that contains them. -/
structure Working where
  kept : LiteralSet
  witness : LiteralSet
deriving DecidableEq, Repr, Inhabited

/-- What a covering run is at. -/
inductive CoveringPhase where
  | covering
  /-- Hands out what is left of the working configurations. -/
  | emitting (queue : List Working)
deriving DecidableEq, Repr

/-- The state of a covering run. -/
structure Covering where
  strength : Nat
  policy : ExtensionPolicy
  groups : List ExpressionGroup
  maxConfigs : Nat
  cursor : Cursor
  /-- The candidate that was taken and is not decided yet. -/
  pending : Option LiteralSet
  working : Array Working
  coverage : Coverage
  phase : CoveringPhase
  /-- The size limit stopped the covering. -/
  truncated : Bool

namespace Covering

/-- The group of all literals over `n` variables, each variable's two side by side. -/
def literalGroup (n : Nat) : ExpressionGroup :=
  ((List.range n).flatMap fun (i : Nat) =>
    [LiteralSet.ofList [(i : Int) + 1], LiteralSet.ofList [-((i : Int) + 1)]]).toArray

/-- The groups to combine: the given ones, if all their literals belong to the formula, or the
    group of all literals. -/
def resolveGroups (cnf : Cnf) :
    Option (List ExpressionGroup) → Except SampleError (List ExpressionGroup)
  | none => .ok [literalGroup cnf.size]
  | some groups =>
    let lits := groups.flatMap fun group => group.toList.flatMap (·.literals)
    match Cnf.checkLiteralsWithin cnf.size lits with
    | .ok () => .ok groups
    | .error e => .error e

/-- The candidate counts of a run that may not yield any configuration. -/
def startCoverage (groups : List ExpressionGroup) (strength maxConfigs : Nat) : Coverage :=
  if maxConfigs = 0 then { candidates := candidateTotal groups strength } else {}

/-- The strategy at its start.  The strength has to be at least one. -/
def start (cnf : Cnf) (strength : Nat) (policy : ExtensionPolicy)
    (groups : Option (List ExpressionGroup)) (maxConfigs : Nat) : Except SampleError Covering :=
  if strength = 0 then .error (.invalidStrength strength)
  else
    match resolveGroups cnf groups with
    | .error e => .error e
    | .ok groups =>
      let coverage := startCoverage groups strength maxConfigs
      .ok {
        strength := strength
        policy := policy
        groups := groups
        maxConfigs := maxConfigs
        cursor := Cursor.start groups strength
        pending := none
        working := #[]
        coverage := coverage
        phase := .covering
        truncated := decide (0 < coverage.candidates) }

/-- The candidate in progress, or the next one of the list. -/
def takeCandidate (g : Covering) : Option LiteralSet × Covering :=
  match g.pending with
  | some combination => (some combination, g)
  | none =>
    match g.cursor.next? with
    | none => (none, g)
    | some (combination, cursor) =>
      let coverage := { g.coverage with candidates := g.coverage.candidates + 1 }
      (some combination,
        { g with cursor := cursor, pending := some combination, coverage := coverage })

/-- Counts a covered candidate. -/
def countCovered (g : Covering) : Covering :=
  { g with coverage := { g.coverage with covered := g.coverage.covered + 1 } }

/-- Counts an infeasible candidate. -/
def countInfeasible (g : Covering) : Covering :=
  { g with coverage := { g.coverage with infeasible := g.coverage.infeasible + 1 } }

/-- The working configuration at a place. -/
def workingAt (g : Covering) (i : Nat) : Working := g.working.getD i default

/-- Replaces the working configuration at a place. -/
def setWorking (g : Covering) (i : Nat) (w : Working) : Covering :=
  { g with working := g.working.setIfInBounds i w }

/-- Some working configuration keeps the combination already. -/
def isKept (g : Covering) (combination : LiteralSet) : Bool :=
  g.working.any fun w => w.kept.containsAll combination

/-- The first of the places whose model contains the combination while its literals to keep do not
    contradict it. -/
def findWitness (g : Covering) (combination : LiteralSet) (order : List Nat) : Option Nat :=
  order.find? fun i =>
    let w := g.workingAt i
    !w.kept.hasConflict combination && w.witness.containsAll combination

/-- What became of a candidate. -/
inductive Outcome where
  /-- It was counted, or the size limit stopped the covering. -/
  | settled
  /-- The run was cancelled before it was decided. -/
  | interrupted
deriving DecidableEq, Repr

/-- How an attempt to extend working configurations ended. -/
inductive Extension where
  | extended
  | impossible
  | interrupted
deriving DecidableEq, Repr

variable {S σ : Type} [SatSolver S] [Monitor σ]

/-- The order in which the working configurations are tried. -/
def extensionOrder (g : Covering) (cx : Context S σ) : List Nat × Context S σ :=
  let order := List.range g.working.size
  match g.policy with
  | .firstFit => (order, cx)
  | .lastFit => (order.reverse, cx)
  | .shuffled =>
    match cx with
    | ⟨solver, rand, monitor, journal⟩ =>
      let (order, rand) := rand.shuffle order.toArray
      (order.toList, ⟨solver, rand, monitor, journal⟩)

/-- Looks for a model that keeps the combination in addition, for one working configuration after
    the other. -/
def extendAny (combination : LiteralSet) :
    List Nat → Covering → Context S σ → Except SampleError Extension × Covering × Context S σ
  | [], g, cx => (.ok .impossible, g, cx)
  | i :: rest, g, cx =>
    let w := g.workingAt i
    if w.kept.hasConflict combination then extendAny combination rest g cx
    else
      let kept := w.kept.union combination
      match cx.solve kept.literals with
      | (.error e, cx) => (.error e, g, cx)
      | (.ok (.model witness), cx) =>
        (.ok .extended, (g.setWorking i ⟨kept, witness⟩).countCovered, cx)
      | (.ok .noModel, cx) => extendAny combination rest g cx
      | (.ok .cancelled, cx) => (.ok .interrupted, g, cx)

/-- Opens a working configuration for the combination, unless there is no room for one. -/
def openWorking (g : Covering) (cx : Context S σ) (combination : LiteralSet) :
    Except SampleError Outcome × Covering × Context S σ :=
  if g.maxConfigs ≤ g.working.size then (.ok .settled, { g with truncated := true }, cx)
  else
    match cx.solve combination.literals with
    | (.error e, cx) => (.error e, g, cx)
    | (.ok (.model witness), cx) =>
      let opened := { g with working := g.working.push ⟨combination, witness⟩ }
      (.ok .settled, opened.countCovered, cx.report (.configurationOpened combination))
    | (.ok .noModel, cx) =>
      (.ok .settled, g.countInfeasible, cx.report (.combinationInfeasible combination))
    | (.ok .cancelled, cx) => (.ok .interrupted, g, cx)

/-- Covers a combination that is not kept yet. -/
def coverNew (g : Covering) (cx : Context S σ) (combination : LiteralSet) :
    Except SampleError Outcome × Covering × Context S σ :=
  let (order, cx) := g.extensionOrder cx
  match g.findWitness combination order with
  | some i =>
    let w := g.workingAt i
    (.ok .settled, (g.setWorking i ⟨w.kept.union combination, w.witness⟩).countCovered, cx)
  | none =>
    match extendAny combination order g cx with
    | (.error e, g, cx) => (.error e, g, cx)
    | (.ok .extended, g, cx) => (.ok .settled, g, cx)
    | (.ok .interrupted, g, cx) => (.ok .interrupted, g, cx)
    | (.ok .impossible, g, cx) => g.openWorking cx combination

/-- Covers a combination, or finds it infeasible. -/
def cover (g : Covering) (cx : Context S σ) (combination : LiteralSet) :
    Except SampleError Outcome × Covering × Context S σ :=
  if g.isKept combination then (.ok .settled, g.countCovered, cx)
  else g.coverNew cx combination

/-- Reports the counts and turns to handing out.  After a truncation the candidates that were not
    reached are counted too. -/
def finishCovering (g : Covering) (cx : Context S σ) : Covering × Context S σ :=
  let counted := g.coverage.candidates
  let candidates :=
    if g.truncated then max counted (candidateTotal g.groups g.strength) else counted
  let coverage := { g.coverage with candidates := candidates }
  let size := g.working.size
  let cx := cx.report
    (.coveringFinished g.strength size coverage.covered candidates coverage.infeasible)
  ({ g with coverage := coverage, phase := .emitting g.working.toList }, cx.announce size)

/-- A step of covering. -/
def coverStep (g : Covering) (cx : Context S σ) :
    Except SampleError Step × Covering × Context S σ :=
  match if g.truncated then (none, g) else g.takeCandidate with
  | (none, g) =>
    let (g, cx) := g.finishCovering cx
    (.ok .pending, g, cx)
  | (some combination, g) =>
    match g.cover cx combination with
    | (.error e, g, cx) => (.error e, g, cx)
    | (.ok .interrupted, g, cx) => (.ok .pending, g, cx)
    | (.ok .settled, g, cx) =>
      let cx := if g.truncated then cx else cx.worked 1
      (.ok .pending, { g with pending := none }, cx)

/-- A step of handing out.  A model that is in the sample already is replaced by another one that
    keeps the same literals, if there is one. -/
def emitStep (g : Covering) (settings : SampleSettings) (accepted : Array LiteralSet)
    (cx : Context S σ) (w : Working) (rest : List Working) :
    Except SampleError Step × Covering × Context S σ :=
  let emitted := { g with phase := .emitting rest }
  if settings.allowDuplicates || !accepted.contains w.witness then
    (.ok (.batch [w.witness]), emitted, cx)
  else
    match cx.solve w.kept.literals with
    | (.error e, cx) => (.error e, g, cx)
    | (.ok (.model model), cx) => (.ok (.batch [model]), emitted, cx)
    | (.ok .noModel, cx) => (.ok .pending, emitted, cx)
    | (.ok .cancelled, cx) => (.ok .pending, g, cx)

/-- One step. -/
def step (g : Covering) (settings : SampleSettings) (accepted : Array LiteralSet)
    (cx : Context S σ) : Except SampleError Step × Covering × Context S σ :=
  match g.phase with
  | .emitting [] => (.ok .done, g, cx)
  | phase =>
    if SatSolver.isContradicted cx.solver then (.ok .exhausted, g, cx)
    else
      match phase with
      | .covering => g.coverStep cx
      | .emitting [] => (.ok .done, g, cx)
      | .emitting (w :: rest) => g.emitStep settings accepted cx w rest

/-- One unit of work for each candidate, then one for each configuration handed out.  A run asks for
    it first, so there are runs only where the tables of `candidateTotal?` can be had. -/
def workEstimate (g : Covering) (max : Nat) : Nat :=
  let candidates := candidateTotal g.groups g.strength
  satAdd candidates (min candidates max)

/-- The counts, with what is left of the candidates. -/
def counts (g : Covering) : Coverage :=
  { g.coverage with
    uncovered := g.coverage.candidates - g.coverage.covered - g.coverage.infeasible }

/-- The status of a run that is done. -/
def finished (g : Covering) : Completion := if g.truncated then .truncated else .complete

instance : Strategy Covering where
  workEstimate := workEstimate
  step := step
  finished := finished
  coverage g := some g.counts

end Covering

end ConfigSampler
