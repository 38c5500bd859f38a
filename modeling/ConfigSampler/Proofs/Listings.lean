import ConfigSampler.Proofs.Combinations

/-!
# The list of candidates

`choiceList` lists the choices of `t` places below `size` in colexicographic order, each once
(`mem_choiceList`, `pairwise_choiceList`), and `nextPlaces` leads from each one to the one after it
(`nextPlaces_eq_head?`).  A cursor has a part of the list of all groups ahead of it
(`Cursor.Stands`): a fresh cursor the whole list, and a request for the next candidate goes on to
the first choice without contradiction (`Cursor.next?_of_stands`), so that any number of requests
yields the candidates from the front (`Cursor.take_of_stands`).
-/

set_option autoImplicit false

namespace ConfigSampler

/-- All choices of `t` places below `size`: those that end lower come first. -/
def choiceList : Nat → Nat → List (List Nat)
  | _, 0 => [[]]
  | 0, _ + 1 => []
  | size + 1, t + 1 => choiceList size (t + 1) ++ (choiceList size t).map (· ++ [size])

example : choiceList 4 2 = [[0, 1], [0, 2], [1, 2], [0, 3], [1, 3], [2, 3]] := rfl

variable {size t : Nat} {ps qs : List Nat}

theorem length_choiceList (size t : Nat) : (choiceList size t).length = size.choose t := by
  induction size, t using choiceList.induct with
  | case1 size => simp [choiceList]
  | case2 t => simp [choiceList]
  | case3 size t ih ih' =>
    rw [choiceList, List.length_append, List.length_map, ih, ih', Nat.choose_succ_succ, Nat.add_comm]

theorem rising_succ_iff : Rising (size + 1) 0 qs ↔
    Rising size 0 qs ∨ ∃ rs, Rising size 0 rs ∧ qs = rs ++ [size] := by
  simp only [rising_zero_iff, List.range_succ, List.sublist_append_iff, List.sublist_singleton]
  constructor
  · rintro ⟨low, high, rfl, hlow, rfl | rfl⟩
    · exact .inl (by simpa using hlow)
    · exact .inr ⟨low, hlow, rfl⟩
  · rintro (h | ⟨rs, h, rfl⟩)
    · exact ⟨qs, [], by simp, h, .inl rfl⟩
    · exact ⟨rs, [size], rfl, h, .inr rfl⟩

/-- The list has all choices. -/
theorem mem_choiceList : qs ∈ choiceList size t ↔ Rising size 0 qs ∧ qs.length = t := by
  induction size, t using choiceList.induct generalizing qs with
  | case1 size =>
    rw [choiceList, List.mem_singleton, List.length_eq_zero_iff, iff_and_self]
    rintro rfl
    trivial
  | case2 t =>
    rw [choiceList, rising_zero_iff, List.range_zero, List.sublist_nil]
    simp only [List.not_mem_nil, false_iff, not_and]
    rintro rfl
    simp
  | case3 size t ih ih' =>
    rw [choiceList, List.mem_append, List.mem_map, ih, rising_succ_iff, or_and_right]
    refine or_congr_right ⟨?_, ?_⟩
    · rintro ⟨rs, hrs, rfl⟩
      obtain ⟨hr, rfl⟩ := ih'.1 hrs
      exact ⟨⟨rs, hr, rfl⟩, by simp⟩
    · rintro ⟨⟨rs, hr, rfl⟩, hlen⟩
      exact ⟨rs, ih'.2 ⟨hr, by simpa using hlen⟩, rfl⟩

theorem Before.append (h : Before ps qs) (rs : List Nat) : Before (ps ++ rs) (qs ++ rs) := by
  induction h with
  | later p q _ ih => exact .later p q ih
  | here rest hlt => exact .here (rest ++ rs) hlt

/-- The last places decide if they differ. -/
theorem before_concat {p q : Nat} (hlen : ps.length = qs.length) (hlt : p < q) :
    Before (ps ++ [p]) (qs ++ [q]) := by
  induction ps generalizing qs with
  | nil =>
    obtain rfl : qs = [] := List.length_eq_zero_iff.1 hlen.symm
    exact .here [] hlt
  | cons x ps ih =>
    cases qs with
    | nil => simp at hlen
    | cons y qs => exact .later x y (ih (by simpa using hlen))

/-- The list is in order, so it has no choice twice. -/
theorem pairwise_choiceList (size t : Nat) : (choiceList size t).Pairwise Before := by
  induction size, t using choiceList.induct with
  | case1 size =>
    rw [choiceList]
    exact List.pairwise_singleton _ _
  | case2 t => exact .nil
  | case3 size t ih ih' =>
    rw [choiceList, List.pairwise_append]
    refine ⟨ih, ?_, ?_⟩
    · rw [List.pairwise_map]
      exact ih'.imp fun hb => hb.append [size]
    · intro low hlow high hhigh
      obtain ⟨rs, hrs, rfl⟩ := List.mem_map.1 hhigh
      obtain ⟨hr, hlen⟩ := mem_choiceList.1 hlow
      obtain ⟨-, hlen'⟩ := mem_choiceList.1 hrs
      -- the lower choice ends at a place below `size`
      have hne : low ≠ [] := by
        rintro rfl
        simp at hlen
      rw [← List.dropLast_append_getLast hne]
      refine before_concat (by rw [List.length_dropLast]; omega) ?_
      exact List.mem_range.1 ((rising_zero_iff.1 hr).subset (List.getLast_mem hne))

theorem nodup_choiceList (size t : Nat) : (choiceList size t).Nodup :=
  (pairwise_choiceList size t).imp fun hb he => (he ▸ hb).irrefl

/-- The list begins with the lowest places. -/
theorem choiceList_eq_cons (h : t ≤ size) :
    ∃ later, choiceList size t = List.range t :: later := by
  have hmem : List.range t ∈ choiceList size t :=
    mem_choiceList.2 ⟨rising_zero_iff.2 (List.range_sublist.2 h), List.length_range⟩
  have hpairwise := pairwise_choiceList size t
  cases hlist : choiceList size t with
  | nil =>
    rw [hlist] at hmem
    cases hmem
  | cons first later =>
    rw [hlist] at hmem hpairwise
    refine ⟨later, ?_⟩
    rcases List.mem_cons.1 hmem with he | hlater
    · rw [he]
    · obtain ⟨hr, rfl⟩ := mem_choiceList.1 (hlist ▸ List.mem_cons_self)
      rcases range_first hr with he | hb
      · rw [← he]
      · exact absurd (((List.pairwise_cons.1 hpairwise).1 _ hlater).trans hb) (Before.irrefl _)

/-- **A step goes to the next choice of the list**, and there is none after the last one. -/
theorem nextPlaces_eq_head? {passed later : List (List Nat)}
    (h : choiceList size t = passed ++ ps :: later) : nextPlaces size 0 ps = later.head? := by
  have hpairwise := pairwise_choiceList size t
  have hmem : ∀ {rs}, rs ∈ passed ++ ps :: later → Rising size 0 rs ∧ rs.length = t :=
    fun hrs => mem_choiceList.1 (h ▸ hrs)
  obtain ⟨hr, hlen⟩ := hmem (List.mem_append_right _ List.mem_cons_self)
  rw [h, List.pairwise_append, List.pairwise_cons] at hpairwise
  obtain ⟨-, ⟨hlater, hsorted⟩, hpassed⟩ := hpairwise
  -- the choice that a step finds is one of the later ones
  have hfound : ∀ {next}, nextPlaces size 0 ps = some next → next ∈ later := by
    intro next hnext
    have hb := nextPlaces_before hnext
    have hin : next ∈ passed ++ ps :: later := by
      rw [← h]
      exact mem_choiceList.2 ⟨nextPlaces_rising hnext hr, (nextPlaces_length hnext).trans hlen⟩
    rcases List.mem_append.1 hin with hp | hp
    · exact absurd (hb.trans (hpassed next hp ps List.mem_cons_self)) (Before.irrefl _)
    · rcases List.mem_cons.1 hp with rfl | hp
      · exact absurd hb (Before.irrefl _)
      · exact hp
  cases later with
  | nil =>
    cases hnext : nextPlaces size 0 ps with
    | none => rfl
    | some next => cases hfound hnext
  | cons q later =>
    have hq := (hmem (List.mem_append_right _ (List.mem_cons_of_mem _ List.mem_cons_self))).1
    obtain ⟨next, hnext, rfl | hb⟩ := nextPlaces_spec (hlater q List.mem_cons_self) hq
    · exact hnext
    · rcases List.mem_cons.1 (hfound hnext) with rfl | hmore
      · exact absurd hb (Before.irrefl _)
      · exact absurd (hb.trans ((List.pairwise_cons.1 hsorted).1 next hmore)) (Before.irrefl _)

/-- The choices of `t` places of each group, group after group. -/
def choicesOf (t : Nat) (groups : List ExpressionGroup) : List (ExpressionGroup × List Nat) :=
  groups.flatMap fun group => (choiceList group.size t).map (group, ·)

/-- The unions of those choices that are free of contradiction. -/
def consistentUnions (choices : List (ExpressionGroup × List Nat)) : List LiteralSet :=
  (choices.map fun choice => unionAt choice.1 choice.2).filter fun union => !union.isContradictory

/-- The candidates of the groups, in the order of the list. -/
def candidateList (t : Nat) (groups : List ExpressionGroup) : List LiteralSet :=
  consistentUnions (choicesOf t groups)

variable {group : ExpressionGroup} {groups rest : List ExpressionGroup}
  {choices : List (ExpressionGroup × List Nat)}

theorem choicesOf_cons : choicesOf t (group :: rest) =
    (choiceList group.size t).map (group, ·) ++ choicesOf t rest := rfl

theorem length_choicesOf : (choicesOf t groups).length = Cursor.choices t groups := by
  induction groups with
  | nil => rfl
  | cons group rest ih =>
    rw [choicesOf_cons, List.length_append, List.length_map, length_choiceList, ih, Cursor.choices,
      subsets_eq_choose]

namespace Cursor

/-- The choices from a given one of the first group on are the given list. -/
def Lists (t : Nat) (places : List Nat) :
    List ExpressionGroup → List (ExpressionGroup × List Nat) → Prop
  | [], choices => choices = []
  | group :: rest, choices => ∃ passed later, choiceList group.size t = passed ++ places :: later ∧
      choices = (places :: later).map (group, ·) ++ choicesOf t rest

/-- Entering the groups leaves all their choices ahead. -/
theorem lists_enter (ht : 0 < t) (groups : List ExpressionGroup) :
    Lists t (enter t groups).1 (enter t groups).2 (choicesOf t groups) := by
  induction groups with
  | nil => rfl
  | cons group rest ih =>
    rw [enter_cons, choicesOf_cons]
    cases ho : offers t group with
    | true =>
      have hle : t ≤ group.size := by
        simp only [offers, Bool.and_eq_true, decide_eq_true_eq] at ho
        exact ho.2
      obtain ⟨later, hlater⟩ := choiceList_eq_cons hle
      rw [if_pos rfl]
      exact ⟨[], later, hlater, by rw [hlater]⟩
    | false =>
      have hnone : choiceList group.size t = [] := by
        refine List.eq_nil_iff_forall_not_mem.2 fun qs hqs => ?_
        exact not_isChoice_of_not_offers ht ho (mem_choiceList.1 hqs)
      rw [hnone]
      exact ih

/-- A step takes the first choice off the list. -/
theorem lists_advance (ht : 0 < t) (h : Lists t ps (group :: rest) choices) :
    ∃ others, choices = (group, ps) :: others ∧
      Lists t (advance t ps group rest).1 (advance t ps group rest).2 others := by
  obtain ⟨passed, later, hlist, rfl⟩ := h
  refine ⟨_, rfl, ?_⟩
  have hnext := nextPlaces_eq_head? hlist
  unfold advance
  cases later with
  | nil =>
    rw [hnext]
    exact lists_enter ht rest
  | cons q later =>
    rw [hnext]
    exact ⟨passed ++ [ps], later, by rw [hlist, List.append_assoc]; rfl, rfl⟩

/-- The cursor has the given choices ahead, and requests for all of them. -/
structure Stands (c : Cursor) (t : Nat) (choices : List (ExpressionGroup × List Nat)) : Prop where
  strength : c.strength = t
  lists : Lists t c.places c.groups choices
  enough : choices.length ≤ c.left

/-- A fresh cursor has all choices of all groups ahead. -/
theorem stands_start (ht : 0 < t) (groups : List ExpressionGroup) :
    (start groups t).Stands t (choicesOf t groups) := by
  have hlists := lists_enter ht groups
  refine ⟨rfl, hlists, ?_⟩
  show (choicesOf t groups).length ≤ Cursor.choices t (enter t groups).2
  generalize enter t groups = entered at hlists
  obtain ⟨places, groups'⟩ := entered
  cases groups' with
  | nil =>
    rw [show choicesOf t groups = [] from hlists]
    exact Nat.le_refl 0
  | cons group rest =>
    obtain ⟨passed, later, hlist, hchoices⟩ := hlists
    rw [hchoices, ← length_choicesOf, choicesOf_cons, hlist]
    simp only [List.length_append, List.length_map, List.length_cons]
    omega

theorem consistentUnions_cons {places : List Nat} : consistentUnions ((group, places) :: choices) =
    if (unionAt group places).isContradictory then consistentUnions choices
    else unionAt group places :: consistentUnions choices := by
  unfold consistentUnions
  rw [List.map_cons, List.filter_cons]
  cases (unionAt group places).isContradictory <;> rfl

/-- What a request comes to: the first candidate of the list, or none if there is none. -/
def Yields (t : Nat) (choices : List (ExpressionGroup × List Nat)) :
    Option (LiteralSet × Cursor) → Prop
  | none => consistentUnions choices = []
  | some (union, c) => ∃ others, consistentUnions choices = union :: consistentUnions others ∧
      c.Stands t others

theorem scan_yields (ht : 0 < t) {left : Nat} (hlists : Lists t ps groups choices)
    (hleft : choices.length ≤ left) : Yields t choices (scan t left ps groups) := by
  induction left generalizing ps groups choices with
  | zero =>
    obtain rfl : choices = [] := List.length_eq_zero_iff.1 (Nat.le_zero.1 hleft)
    rfl
  | succ left ih =>
    cases groups with
    | nil =>
      obtain rfl : choices = [] := hlists
      rfl
    | cons group rest =>
      obtain ⟨others, rfl, hothers⟩ := lists_advance ht hlists
      have hleft' : others.length ≤ left := Nat.le_of_succ_le_succ hleft
      unfold scan
      dsimp only
      split
      · rename_i hcontra
        have hyields := ih hothers hleft'
        have hskip : consistentUnions ((group, ps) :: others) = consistentUnions others := by
          rw [consistentUnions_cons, if_pos hcontra]
        generalize scan t left _ _ = out at hyields ⊢
        cases out with
        | none => exact hskip.trans hyields
        | some found =>
          obtain ⟨later, hlater, hstands⟩ := hyields
          exact ⟨later, hskip.trans hlater, hstands⟩
      · rename_i hcon
        exact ⟨others, by rw [consistentUnions_cons, if_neg hcon], rfl, hothers, hleft'⟩

/-- **A request yields the next candidate of the list.** -/
theorem next?_of_stands {c : Cursor} (ht : 0 < t) (h : c.Stands t choices) :
    Yields t choices c.next? := by
  unfold next?
  rw [h.strength]
  exact scan_yields ht h.lists h.enough

/-- The candidates up to the end of the list, and whether it ends within the requests. -/
theorem take_of_stands {c : Cursor} (ht : 0 < t) (h : c.Stands t choices) (limit : Nat) :
    c.take limit = ((consistentUnions choices).take limit,
      decide ((consistentUnions choices).length < limit)) := by
  induction limit generalizing c choices with
  | zero => rw [take, List.take_zero, decide_eq_false (Nat.not_lt_zero _)]
  | succ limit ih =>
    have hyields := next?_of_stands ht h
    unfold take
    generalize c.next? = out at hyields ⊢
    cases out with
    | none =>
      rw [show consistentUnions choices = [] from hyields]
      simp
    | some found =>
      obtain ⟨others, hcons, hstands⟩ := hyields
      rw [hcons]
      simp [ih hstands]

end Cursor

end ConfigSampler
