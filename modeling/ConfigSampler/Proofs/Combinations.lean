import ConfigSampler.Proofs.Choices
import ConfigSampler.Proofs.LiteralSets
import Mathlib.Data.Finset.Card

/-!
# Candidates of the cursor

The cursor stands at a choice of a group and has the later ones ahead of it (`Cursor.Ahead`).  A step
takes one choice away, those whose union holds a contradiction are left out, and the cursor ends when
no other is ahead (`Cursor.next?_spec`).  At its start all choices of all groups are ahead
(`Cursor.ahead_start`).
-/

set_option autoImplicit false

namespace ConfigSampler

/-- A choice of `t` places of a group. -/
def IsChoice (t : Nat) (group : ExpressionGroup) (places : List Nat) : Prop :=
  Rising group.size 0 places ∧ places.length = t

/-- The expressions at some places of a group. -/
def ExpressionGroup.pick (group : ExpressionGroup) (places : List Nat) : List LiteralSet :=
  places.map fun i => group.getD i default

open Classical in
/-- The choices of `t` places below `size`, from a given one on. -/
noncomputable def choicesFrom (size t : Nat) (places : List Nat) : Finset (List Nat) :=
  ((List.range size).sublistsLen t).toFinset.filter fun qs => qs = places ∨ Before places qs

variable {t size : Nat} {group g : ExpressionGroup} {groups rest : List ExpressionGroup}
  {places next qs : List Nat}

/-- A group has its expressions at all places. -/
theorem toList_eq_map_range (group : ExpressionGroup) :
    group.toList = (List.range group.size).map fun i => group.getD i default := by
  refine List.ext_getElem (by simp) fun i hi hi' => ?_
  rw [Array.length_toList] at hi
  simp [hi]

/-- Choices of `t` places are those of `t` expressions, in the order of the group. -/
theorem exists_isChoice_iff {exprs : List LiteralSet} :
    (∃ qs, IsChoice t group qs ∧ exprs = group.pick qs) ↔
      exprs.Sublist group.toList ∧ exprs.length = t := by
  have hgroup := toList_eq_map_range group
  constructor
  · rintro ⟨qs, ⟨hr, rfl⟩, rfl⟩
    rw [hgroup]
    exact ⟨(rising_zero_iff.1 hr).map _, List.length_map _⟩
  · rintro ⟨hs, rfl⟩
    rw [hgroup] at hs
    obtain ⟨qs, hqs, rfl⟩ := List.sublist_map_iff.1 hs
    exact ⟨qs, ⟨rising_zero_iff.2 hqs, (List.length_map _).symm⟩, rfl⟩

/-- The union at some places holds the literals of the expressions there. -/
theorem mem_literals_unionAt {x : Int} :
    x ∈ (unionAt group places).literals ↔ ∃ e ∈ group.pick places, x ∈ e.literals := by
  unfold unionAt ExpressionGroup.pick
  rw [LiteralSet.mem_literals_ofList]
  simp only [List.mem_flatMap, List.mem_map, exists_exists_and_eq_and]
  constructor
  · exact And.left
  · rintro ⟨i, hi, hx⟩
    exact ⟨⟨i, hi, hx⟩, LiteralSet.ne_zero_of_mem_literals hx⟩

theorem mem_choicesFrom : qs ∈ choicesFrom size t places ↔
    (Rising size 0 qs ∧ qs.length = t) ∧ (qs = places ∨ Before places qs) := by
  simp [choicesFrom, List.mem_sublistsLen, rising_zero_iff]

theorem card_choicesFrom_le : (choicesFrom size t places).card ≤ size.choose t := by
  classical
  calc (choicesFrom size t places).card
      ≤ ((List.range size).sublistsLen t).toFinset.card := Finset.card_filter_le _ _
    _ ≤ ((List.range size).sublistsLen t).length := List.toFinset_card_le _
    _ = size.choose t := by rw [List.length_sublistsLen, List.length_range]

/-- Fewer choices are left from a later one on. -/
theorem card_choicesFrom_lt (hr : Rising size 0 places) (hlen : places.length = t)
    (hb : Before places next) :
    (choicesFrom size t next).card < (choicesFrom size t places).card := by
  apply Finset.card_lt_card
  rw [Finset.ssubset_iff_of_subset]
  · refine ⟨places, mem_choicesFrom.2 ⟨⟨hr, hlen⟩, .inl rfl⟩, fun hmem => ?_⟩
    rcases (mem_choicesFrom.1 hmem).2 with rfl | hback
    · exact hb.irrefl _
    · exact (hb.trans hback).irrefl _
  · intro qs hqs
    obtain ⟨hchoice, rfl | hafter⟩ := mem_choicesFrom.1 hqs
    · exact mem_choicesFrom.2 ⟨hchoice, .inr hb⟩
    · exact mem_choicesFrom.2 ⟨hchoice, .inr (hb.trans hafter)⟩

namespace Cursor

/-- The places are a choice of the group in progress, if there is one. -/
def AtChoice (t : Nat) (places : List Nat) : List ExpressionGroup → Prop
  | [] => True
  | g :: _ => IsChoice t g places

/-- A choice that was not passed yet. -/
def Ahead (t : Nat) (places : List Nat) : List ExpressionGroup → ExpressionGroup → List Nat → Prop
  | [], _, _ => False
  | g :: rest, group, qs =>
    IsChoice t group qs ∧ ((group = g ∧ (qs = places ∨ Before places qs)) ∨ group ∈ rest)

/-- The number of choices that were not passed yet. -/
noncomputable def ahead (t : Nat) (places : List Nat) : List ExpressionGroup → Nat
  | [] => 0
  | g :: rest => (choicesFrom g.size t places).card + choices t rest

theorem ahead_le_choices : ahead t places groups ≤ choices t groups := by
  cases groups with
  | nil => exact Nat.le_refl 0
  | cons g rest =>
    rw [ahead, choices, subsets_eq_choose]
    exact Nat.add_le_add_right card_choicesFrom_le _

/-! ## Entering a group -/

theorem enter_cons : enter t (g :: rest) =
    if offers t g then (List.range t, g :: rest) else enter t rest := by
  unfold enter
  rw [List.dropWhile_cons]
  cases offers t g <;> rfl

theorem not_isChoice_of_not_offers (ht : 0 < t) (ho : offers t g = false) :
    ¬ IsChoice t g qs := by
  rintro ⟨hr, rfl⟩
  have hle := (rising_zero_iff.1 hr).length_le
  rw [List.length_range] at hle
  simp [offers, ht] at ho
  omega

/-- The cursor enters the first group that has a choice, at its first choice. -/
theorem enter_spec (ht : 0 < t) (groups : List ExpressionGroup) :
    AtChoice t (enter t groups).1 (enter t groups).2 ∧
    choices t (enter t groups).2 ≤ choices t groups ∧
    (∀ group qs, Ahead t (enter t groups).1 (enter t groups).2 group qs ↔
      group ∈ groups ∧ IsChoice t group qs) := by
  induction groups with
  | nil => exact ⟨trivial, Nat.le_refl 0, fun group qs => by simp [enter, Ahead]⟩
  | cons g rest ih =>
    rw [enter_cons]
    cases ho : offers t g with
    | true =>
      rw [if_pos rfl]
      refine ⟨⟨?_, List.length_range⟩, Nat.le_refl _, fun group qs => ?_⟩
      · have hle : t ≤ g.size := by
          simp only [offers, Bool.and_eq_true, decide_eq_true_eq] at ho
          exact ho.2
        exact rising_zero_iff.2 (List.range_sublist.2 hle)
      · rw [List.mem_cons]
        constructor
        · rintro ⟨hchoice, ⟨rfl, -⟩ | hmem⟩
          · exact ⟨.inl rfl, hchoice⟩
          · exact ⟨.inr hmem, hchoice⟩
        · rintro ⟨rfl | hmem, hchoice⟩
          · refine ⟨hchoice, .inl ⟨rfl, ?_⟩⟩
            obtain ⟨hr, rfl⟩ := hchoice
            exact range_first hr
          · exact ⟨hchoice, .inr hmem⟩
    | false =>
      rw [if_neg (by simp)]
      obtain ⟨hat, hle, hahead⟩ := ih
      refine ⟨hat, Nat.le_trans hle (Nat.le_add_left _ _), fun group qs => ?_⟩
      rw [hahead, List.mem_cons]
      constructor
      · rintro ⟨hmem, hchoice⟩
        exact ⟨.inr hmem, hchoice⟩
      · rintro ⟨rfl | hmem, hchoice⟩
        · exact absurd hchoice (not_isChoice_of_not_offers ht ho)
        · exact ⟨hmem, hchoice⟩

/-! ## Steps -/

/-- A step takes the choice at hand away and no other. -/
theorem advance_spec (ht : 0 < t) (hat : AtChoice t places (g :: rest)) :
    AtChoice t (advance t places g rest).1 (advance t places g rest).2 ∧
    ahead t (advance t places g rest).1 (advance t places g rest).2 < ahead t places (g :: rest) ∧
    (∀ group qs, Ahead t places (g :: rest) group qs → (group = g ∧ qs = places) ∨
      Ahead t (advance t places g rest).1 (advance t places g rest).2 group qs) ∧
    (∀ group qs, Ahead t (advance t places g rest).1 (advance t places g rest).2 group qs →
      Ahead t places (g :: rest) group qs) := by
  obtain ⟨hr, hlen⟩ := hat
  unfold advance
  split
  · rename_i next hnext
    have hb := nextPlaces_before hnext
    refine ⟨⟨nextPlaces_rising hnext hr, (nextPlaces_length hnext).trans hlen⟩,
      Nat.add_lt_add_right (card_choicesFrom_lt hr hlen hb) _, ?_, ?_⟩
    · rintro group qs ⟨hchoice, ⟨rfl, rfl | hafter⟩ | hmem⟩
      · exact .inl ⟨rfl, rfl⟩
      · obtain ⟨next', hnext', hle⟩ := nextPlaces_spec hafter hchoice.1
        obtain rfl : next' = next := Option.some.inj (hnext'.symm.trans hnext)
        exact .inr ⟨hchoice, .inl ⟨rfl, hle⟩⟩
      · exact .inr ⟨hchoice, .inr hmem⟩
    · rintro group qs ⟨hchoice, ⟨rfl, rfl | hafter⟩ | hmem⟩
      · exact ⟨hchoice, .inl ⟨rfl, .inr hb⟩⟩
      · exact ⟨hchoice, .inl ⟨rfl, .inr (hb.trans hafter)⟩⟩
      · exact ⟨hchoice, .inr hmem⟩
  · rename_i hnone
    obtain ⟨hat', hle, hahead⟩ := enter_spec ht rest
    refine ⟨hat', ?_, ?_, ?_⟩
    · have hpos : 0 < (choicesFrom g.size t places).card :=
        Finset.card_pos.2 ⟨places, mem_choicesFrom.2 ⟨⟨hr, hlen⟩, .inl rfl⟩⟩
      calc ahead t (enter t rest).1 (enter t rest).2
          ≤ choices t (enter t rest).2 := ahead_le_choices
        _ ≤ choices t rest := hle
        _ < ahead t places (g :: rest) := Nat.lt_add_of_pos_left hpos
    · rintro group qs ⟨hchoice, ⟨rfl, rfl | hafter⟩ | hmem⟩
      · exact .inl ⟨rfl, rfl⟩
      · -- a later choice of the group would be found by the step
        obtain ⟨next, hnext, -⟩ := nextPlaces_spec hafter hchoice.1
        rw [hnone] at hnext
        cases hnext
      · exact .inr ((hahead _ _).2 ⟨hmem, hchoice⟩)
    · intro group qs hafter
      obtain ⟨hmem, hchoice⟩ := (hahead _ _).1 hafter
      exact ⟨hchoice, .inr hmem⟩

/-- A cursor of strength `t` that stands at a choice and has requests for all that are ahead. -/
structure Ready (c : Cursor) (t : Nat) : Prop where
  strength : c.strength = t
  atChoice : AtChoice t c.places c.groups
  enough : ahead t c.places c.groups ≤ c.left

/-- What a search from a choice on finds. -/
def Finds (t : Nat) (places : List Nat) (groups : List ExpressionGroup) :
    Option (LiteralSet × Cursor) → Prop
  | none => ∀ group qs, Ahead t places groups group qs → (unionAt group qs).isContradictory = true
  | some (union, c) => c.Ready t ∧
      (∃ group qs, Ahead t places groups group qs ∧ union = unionAt group qs) ∧
      union.isContradictory = false ∧
      (∀ group qs, Ahead t places groups group qs → (unionAt group qs).isContradictory = true ∨
        unionAt group qs = union ∨ Ahead t c.places c.groups group qs) ∧
      (∀ group qs, Ahead t c.places c.groups group qs → Ahead t places groups group qs)

theorem scan_spec (ht : 0 < t) {left : Nat} (hat : AtChoice t places groups)
    (hleft : ahead t places groups ≤ left) : Finds t places groups (scan t left places groups) := by
  induction left generalizing places groups with
  | zero =>
    intro group qs hahead
    cases groups with
    | nil => exact hahead.elim
    | cons g rest =>
      have hpos : 0 < (choicesFrom g.size t places).card :=
        Finset.card_pos.2 ⟨places, mem_choicesFrom.2 ⟨hat, .inl rfl⟩⟩
      rw [ahead] at hleft
      omega
  | succ left ih =>
    cases groups with
    | nil => exact fun group qs hahead => hahead.elim
    | cons g rest =>
      obtain ⟨hat', hless, hkeeps, honly⟩ := advance_spec ht hat
      unfold scan
      dsimp only
      split
      · rename_i hcontra
        have hfinds := ih hat' (by omega)
        generalize scan t left _ _ = out at hfinds
        cases out with
        | none =>
          intro group qs hahead
          rcases hkeeps group qs hahead with ⟨rfl, rfl⟩ | hafter
          · exact hcontra
          · exact hfinds group qs hafter
        | some found =>
          obtain ⟨hready, ⟨group, qs, hahead, hunion⟩, hcon, hall, hback⟩ := hfinds
          refine ⟨hready, ⟨group, qs, honly _ _ hahead, hunion⟩, hcon, fun group qs hahead => ?_,
            fun group qs hahead => honly _ _ (hback _ _ hahead)⟩
          rcases hkeeps group qs hahead with ⟨rfl, rfl⟩ | hafter
          · exact .inl hcontra
          · exact hall group qs hafter
      · rename_i hcon
        refine ⟨⟨rfl, hat', by dsimp only; omega⟩, ⟨g, places, ⟨hat, .inl ⟨rfl, .inl rfl⟩⟩, rfl⟩,
          by simpa using hcon, fun group qs hahead => ?_, honly⟩
        rcases hkeeps group qs hahead with ⟨rfl, rfl⟩ | hafter
        · exact .inr (.inl rfl)
        · exact .inr (.inr hafter)

/-- **The next candidate** is a choice ahead without contradiction, and none without contradiction
    is passed over. -/
theorem next?_spec {c : Cursor} (ht : 0 < t) (hready : c.Ready t) :
    Finds t c.places c.groups c.next? := by
  unfold next?
  rw [hready.strength]
  exact scan_spec ht hready.atChoice hready.enough

theorem ready_start (ht : 0 < t) (groups : List ExpressionGroup) : (start groups t).Ready t := by
  obtain ⟨hat, -, -⟩ := enter_spec ht groups
  exact ⟨rfl, hat, ahead_le_choices⟩

/-- At the start all choices of all groups are ahead. -/
theorem ahead_start (ht : 0 < t) (groups : List ExpressionGroup) {group : ExpressionGroup}
    {qs : List Nat} : Ahead t (start groups t).places (start groups t).groups group qs ↔
      group ∈ groups ∧ IsChoice t group qs :=
  (enter_spec ht groups).2.2 group qs

end Cursor

end ConfigSampler
