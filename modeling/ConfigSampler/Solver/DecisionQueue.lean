import ConfigSampler.Random
import ConfigSampler.Solver.KeyHeap
import ConfigSampler.Solver.Settings
import ConfigSampler.Solver.Trail

/-!
# Choosing the next decision

Variables wait in a priority queue: the more active one leaves first, and of two equally active
ones the one with the lower rank.  Ranks start out as the variables' numbers and are redrawn by
`shuffle`.  A variable leaves the queue when it is decided and comes back when it loses its value.
-/

set_option autoImplicit false

namespace ConfigSampler

/-- The undecided variables in the order in which they are to be decided. -/
structure DecisionQueue where
  settings : DecisionSettings
  /-- What a variable's activity grows by. -/
  increment : Float
  rand : Random
  ranks : Array Nat
  activities : Array Float
  heap : KeyHeap
  /-- The number of decisions that took a random variable. -/
  randomDecisions : Nat

namespace DecisionQueue

/-- The queue without variables. -/
def empty (settings : DecisionSettings) : DecisionQueue :=
  ⟨settings, 1.0, Random.ofFloat settings.randomSeed, #[], #[], KeyHeap.empty, 0⟩

/-- The number of variables. -/
def numVars (q : DecisionQueue) : Nat := q.ranks.size

/-- Variable `a` is decided before variable `b`. -/
@[inline]
def before (activities : Array Float) (ranks : Array Nat) (a b : Nat) : Bool :=
  let x := activities.getD a 0
  let y := activities.getD b 0
  x > y || (x == y && ranks.getD a 0 < ranks.getD b 0)

/-- Puts a variable into the queue, unless it is there. -/
def insert (q : DecisionQueue) (v : Nat) : DecisionQueue :=
  match q with
  | ⟨settings, increment, rand, ranks, activities, heap, randomDecisions⟩ =>
    let heap := heap.insert (before activities ranks) v
    ⟨settings, increment, rand, ranks, activities, heap, randomDecisions⟩

/-- Puts variables into the queue, in order. -/
def insertAll (q : DecisionQueue) (vars : List Nat) : DecisionQueue := vars.foldl insert q

/-- Adds a variable. -/
def newVar (q : DecisionQueue) : DecisionQueue :=
  let v := q.ranks.size
  let (activity, rand) :=
    if q.settings.randomInitial then
      let (x, rand) := q.rand.next
      (x * 0.00001, rand)
    else (0.0, q.rand)
  insert { q with
    rand := rand
    ranks := q.ranks.push v
    activities := q.activities.push activity } v

/-- Fills the queue with the variables that have no value. -/
def rebuild (q : DecisionQueue) (trail : Trail) : DecisionQueue :=
  let vars := (List.range q.numVars).filter trail.isFree
  { q with heap := KeyHeap.ofKeys (before q.activities q.ranks) vars }

/-- The ranks of variables that stand in the given order. -/
def ranksOf (order : Array Nat) : Array Nat :=
  (order.toList.zipIdx).foldl (fun ranks (v, rank) => ranks.setIfInBounds v rank)
    (Array.replicate order.size 0)

/-- Draws new ranks and a new random source, and forgets all activity. -/
def shuffle (q : DecisionQueue) (rand : Random) (trail : Trail) : DecisionQueue × Random :=
  let (order, rand) := rand.shuffle (Array.range q.numVars)
  let (own, rand) := rand.fork
  let q := { q with
    increment := 1.0
    rand := own
    ranks := ranksOf order
    activities := q.activities.map fun _ => 0 }
  (q.rebuild trail, rand)

/-- Makes a variable more active. -/
def bump (q : DecisionQueue) (v : Nat) : DecisionQueue :=
  match q with
  | ⟨settings, increment, rand, ranks, activities, heap, randomDecisions⟩ =>
    let activity := activities.getD v 0 + increment
    if activity > 1e100 then
      let activities := (activities.map (· * 1e-100)).setIfInBounds v (activity * 1e-100)
      let heap := heap.update (before activities ranks) v
      ⟨settings, increment * 1e-100, rand, ranks, activities, heap, randomDecisions⟩
    else
      let activities := activities.setIfInBounds v activity
      let heap := heap.update (before activities ranks) v
      ⟨settings, increment, rand, ranks, activities, heap, randomDecisions⟩

/-- Makes variables more active, in order. -/
def bumpAll (q : DecisionQueue) (vars : List Nat) : DecisionQueue := vars.foldl bump q

/-- Lets the activity gathered so far weigh less. -/
def decay (q : DecisionQueue) : DecisionQueue :=
  { q with increment := q.increment * (1.0 / q.settings.decay) }

/-- Takes out variables until one has no value.  The first argument bounds their number. -/
def popFree (trail : Trail) : Nat → DecisionQueue → Option Nat × DecisionQueue
  | 0, q => (none, q)
  | n + 1, q =>
    match q with
    | ⟨settings, increment, rand, ranks, activities, heap, randomDecisions⟩ =>
      match heap.pop? (before activities ranks) with
      | none =>
        (none, ⟨settings, increment, rand, ranks, activities, KeyHeap.empty, randomDecisions⟩)
      | some (v, heap) =>
        let q : DecisionQueue :=
          ⟨settings, increment, rand, ranks, activities, heap, randomDecisions⟩
        if trail.isFree v then (some v, q) else popFree trail n q

/-- The variable at a random place of the queue, if it is time for a random decision. -/
def pickRandom (q : DecisionQueue) : Option Nat × DecisionQueue :=
  let (random, rand) := q.rand.chance q.settings.randomFrequency
  if random && !q.heap.isEmpty then
    let (i, rand) := rand.below q.heap.size
    (some (q.heap.keyAt i), { q with rand := rand })
  else (none, { q with rand := rand })

/-- The next variable to decide; none if every variable has a value. -/
def pickVar (q : DecisionQueue) (trail : Trail) : Option Nat × DecisionQueue :=
  let (candidate, q) := q.pickRandom
  match candidate with
  | some v =>
    if trail.isFree v then
      (some v, { q with randomDecisions := q.randomDecisions + 1 })
    else popFree trail (q.heap.size + 1) q
  | none => popFree trail (q.heap.size + 1) q

/-- The next literal to decide; none if every variable has a value. -/
def pickLit (q : DecisionQueue) (trail : Trail) : Option Lit × DecisionQueue :=
  match q.pickVar trail with
  | (none, q) => (none, q)
  | (some v, q) =>
    match q.settings.polarity with
    | .positive => (some (Lit.ofVar v false), q)
    | .negative => (some (Lit.ofVar v true), q)
    | .random =>
      let (negated, rand) := q.rand.chance 0.5
      (some (Lit.ofVar v negated), { q with rand := rand })

end DecisionQueue

end ConfigSampler
