/-!
# Tables keyed by numbers

A `SparseTable` holds a value for some of its keys; a `DenseTable` holds one for every key below its
size and grows with a default value.
-/

set_option autoImplicit false

namespace ConfigSampler

/-- A value for some keys. -/
structure SparseTable (α : Type) where
  slots : Array (Option α)
deriving Repr

namespace SparseTable

variable {α : Type}

/-- The table without keys. -/
def empty : SparseTable α := ⟨#[]⟩

/-- The value of a key. -/
def get? (t : SparseTable α) (key : Nat) : Option α := (t.slots[key]?).join

/-- The key has a value. -/
def contains (t : SparseTable α) (key : Nat) : Bool := (t.get? key).isSome

/-- Adds slots without value until there are at least `size`. -/
def reserve (slots : Array (Option α)) (size : Nat) : Array (Option α) :=
  slots ++ Array.replicate (size - slots.size) none

/-- Gives a key a value. -/
def insert (t : SparseTable α) (key : Nat) (value : α) : SparseTable α :=
  if key < t.slots.size then ⟨t.slots.setIfInBounds key (some value)⟩
  else ⟨(reserve t.slots key).push (some value)⟩

/-- Takes the value of a key away. -/
def erase (t : SparseTable α) (key : Nat) : SparseTable α := ⟨t.slots.setIfInBounds key none⟩

/-- Changes every value. -/
def map (t : SparseTable α) (f : α → α) : SparseTable α := ⟨t.slots.map (·.map f)⟩

/-- The keys with their values, by key. -/
def entries (t : SparseTable α) : List (Nat × α) :=
  t.slots.toList.zipIdx.filterMap fun (slot, key) => slot.map (key, ·)

/-- The number of keys with a value. -/
def size (t : SparseTable α) : Nat := t.entries.length

end SparseTable

/-- A value for every key below the size. -/
structure DenseTable (α : Type) where
  slots : Array α
deriving Repr

namespace DenseTable

variable {α : Type}

/-- The table without keys. -/
def empty : DenseTable α := ⟨#[]⟩

/-- Adds default values until the key has one. -/
def grow (t : DenseTable α) (default : α) (key : Nat) : DenseTable α :=
  ⟨t.slots ++ Array.replicate (key + 1 - t.slots.size) default⟩

/-- The value of a key. -/
def get? (t : DenseTable α) (key : Nat) : Option α := t.slots[key]?

/-- Gives a key below the size another value. -/
def set (t : DenseTable α) (key : Nat) (value : α) : DenseTable α :=
  ⟨t.slots.setIfInBounds key value⟩

end DenseTable

end ConfigSampler
