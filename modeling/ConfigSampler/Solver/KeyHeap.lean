import ConfigSampler.Solver.Table

/-!
# A priority queue of keys

A `KeyHeap` is a binary heap of natural numbers that knows the position of each of its keys, so
that a key whose priority changed can be moved to its new place.  Priorities are not stored: every
operation is given the order, `before a b` meaning that `a` leaves ahead of `b`.
-/

set_option autoImplicit false

namespace ConfigSampler

/-- The keys in heap order and the position of each. -/
structure KeyHeap where
  keys : Array Nat
  places : SparseTable Nat

namespace KeyHeap

/-- The heap without keys. -/
def empty : KeyHeap := ⟨#[], SparseTable.empty⟩

/-- The number of keys. -/
def size (h : KeyHeap) : Nat := h.keys.size

/-- There are no keys. -/
def isEmpty (h : KeyHeap) : Bool := h.keys.isEmpty

/-- The key is in the heap. -/
def contains (h : KeyHeap) (key : Nat) : Bool := h.places.contains key

/-- The key at a position. -/
def keyAt (h : KeyHeap) (i : Nat) : Nat := h.keys.getD i 0

/-- Notes the position of the key that stands at `i`. -/
def note (h : KeyHeap) (i : Nat) : KeyHeap :=
  { h with places := h.places.insert (h.keys.getD i 0) i }

/-- Exchanges the keys at positions `i` and `j`, and notes the new position `i` of one of them. -/
def exchange (h : KeyHeap) (i j : Nat) : KeyHeap :=
  let moved := h.keys.getD j 0
  { keys := h.keys.swapIfInBounds i j, places := h.places.insert moved i }

/-- Moves the key at `i` towards the root until its parent leaves ahead of it. -/
@[specialize]
def siftUp (before : Nat → Nat → Bool) (h : KeyHeap) (i : Nat) : KeyHeap :=
  if hi : i = 0 then h.note i
  else
    let parent := (i - 1) / 2
    if before (h.keyAt i) (h.keyAt parent) then siftUp before (h.exchange i parent) parent
    else h.note i
termination_by i
decreasing_by omega

/-- The child of `i` that leaves first, given that `left` is the position of the first child. -/
@[specialize]
def firstChild (before : Nat → Nat → Bool) (h : KeyHeap) (left : Nat) : Nat :=
  if left + 1 < h.size && before (h.keyAt (left + 1)) (h.keyAt left) then left + 1 else left

theorem size_exchange (h : KeyHeap) (i j : Nat) : (h.exchange i j).size = h.size := by
  simp [exchange, size]

/-- Moves the key at `i` away from the root until it leaves ahead of its children. -/
@[specialize]
def siftDown (before : Nat → Nat → Bool) (h : KeyHeap) (i : Nat) : KeyHeap :=
  if hi : h.size ≤ 2 * i + 1 then h.note i
  else
    let child := firstChild before h (2 * i + 1)
    if before (h.keyAt child) (h.keyAt i) then siftDown before (h.exchange i child) child
    else h.note i
termination_by h.size - i
decreasing_by
  rw [size_exchange]
  have : i < firstChild before h (2 * i + 1) := by
    simp only [firstChild]; split <;> omega
  omega

/-- Adds a key, unless it is there already. -/
@[specialize]
def insert (before : Nat → Nat → Bool) (h : KeyHeap) (key : Nat) : KeyHeap :=
  if h.contains key then h
  else
    let place := h.size
    siftUp before { h with keys := h.keys.push key } place

/-- Takes out the key that leaves first. -/
@[specialize]
def pop? (before : Nat → Nat → Bool) (h : KeyHeap) : Option (Nat × KeyHeap) :=
  if h.isEmpty then none
  else
    let first := h.keyAt 0
    let keys := (h.keys.swapIfInBounds 0 (h.size - 1)).pop
    let rest : KeyHeap := { keys := keys, places := h.places.erase first }
    some (first, if rest.isEmpty then rest else siftDown before rest 0)

/-- Moves a key to its place after its priority changed. -/
@[specialize]
def update (before : Nat → Nat → Bool) (h : KeyHeap) (key : Nat) : KeyHeap :=
  match h.places.get? key with
  | none => h
  | some place =>
    let h := siftDown before h place
    match h.places.get? key with
    | none => h
    | some place => siftUp before h place

/-- Sifts down the keys at positions `n - 1, …, 0`. -/
@[specialize]
def heapify (before : Nat → Nat → Bool) : Nat → KeyHeap → KeyHeap
  | 0, h => h
  | n + 1, h => heapify before n (siftDown before h n)

/-- The positions of keys that stand in the given order. -/
def placesOf (keys : List Nat) : SparseTable Nat :=
  (keys.zipIdx).foldl (fun t (key, i) => t.insert key i) SparseTable.empty

/-- The heap of the given keys, which are pairwise different. -/
@[specialize]
def ofKeys (before : Nat → Nat → Bool) (keys : List Nat) : KeyHeap :=
  heapify before keys.length ⟨keys.toArray, placesOf keys⟩

end KeyHeap

end ConfigSampler
