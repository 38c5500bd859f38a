import ConfigSampler.Sampling.Candidates

/-!
# Listing candidate combinations

A `Cursor` walks through the choices of `t` places of each group, group after group.  Within a
group the order is colexicographic: every choice that ends at place `k` comes before any that
reaches past it.  `nextPlaces` is the step, a carry from the lowest place up; `Cursor.next?` takes
steps until the union of the chosen expressions is free of contradiction.
-/

set_option autoImplicit false

namespace ConfigSampler

/-- The choice after a given one of increasing places below `size`, where `base` places stand below
    the given ones.  The lowest place with room under its successor moves up by one, and those
    under it go back to the bottom. -/
def nextPlaces (size : Nat) : Nat → List Nat → Option (List Nat)
  | _, [] => none
  | base, place :: rest =>
    if place + 1 < rest.headD size then some ((place + 1) :: rest)
    else (nextPlaces size (base + 1) rest).map (base :: ·)

/-- The union of the expressions at the given places. -/
def unionAt (group : ExpressionGroup) (places : List Nat) : LiteralSet :=
  LiteralSet.ofList (places.flatMap fun i => (group.getD i default).literals)

/-- A place in the list of choices.  Holds the groups that are not finished, the current one
    first; without any, the list has ended. -/
structure Cursor where
  strength : Nat
  places : List Nat
  groups : List ExpressionGroup
  /-- The number of choices from this one on. -/
  left : Nat

namespace Cursor

/-- The group has a choice of `t` places; an empty choice does not count. -/
def offers (t : Nat) (group : ExpressionGroup) : Bool := decide (0 < t) && decide (t ≤ group.size)

/-- The first choice of the first group that has one. -/
def enter (t : Nat) (groups : List ExpressionGroup) : List Nat × List ExpressionGroup :=
  match groups.dropWhile fun group => !offers t group with
  | [] => ([], [])
  | group :: rest => (List.range t, group :: rest)

/-- The number of choices of all groups. -/
def choices (t : Nat) : List ExpressionGroup → Nat
  | [] => 0
  | group :: groups => subsets group.size t + choices t groups

/-- The start of the list. -/
def start (groups : List ExpressionGroup) (t : Nat) : Cursor :=
  let (places, unfinished) := enter t groups
  ⟨t, places, unfinished, choices t unfinished⟩

/-- The choice after the given one of the first group. -/
def advance (t : Nat) (places : List Nat) (group : ExpressionGroup) (rest : List ExpressionGroup) :
    List Nat × List ExpressionGroup :=
  match nextPlaces group.size 0 places with
  | some places => (places, group :: rest)
  | none => enter t rest

/-- Looks for a choice without contradiction from the given one on.  The second argument bounds the
    number of choices. -/
def scan (t : Nat) : Nat → List Nat → List ExpressionGroup → Option (LiteralSet × Cursor)
  | 0, _, _ => none
  | _, _, [] => none
  | left + 1, places, group :: rest =>
    let union := unionAt group places
    let (places, groups) := advance t places group rest
    if union.isContradictory then scan t left places groups
    else some (union, ⟨t, places, groups, left⟩)

/-- The next candidate and the place after it. -/
def next? (c : Cursor) : Option (LiteralSet × Cursor) := scan c.strength c.left c.places c.groups

/-- The candidates from a place on, at most `limit` of them, and whether the list ended within as
    many requests. -/
def take (c : Cursor) : Nat → List LiteralSet × Bool
  | 0 => ([], false)
  | limit + 1 =>
    match c.next? with
    | none => ([], true)
    | some (union, c) =>
      let (unions, ended) := c.take limit
      (union :: unions, ended)

end Cursor

end ConfigSampler
