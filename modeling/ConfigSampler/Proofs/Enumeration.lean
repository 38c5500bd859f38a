import ConfigSampler.Proofs.CandidateTotals
import Mathlib.Combinatorics.Colex
import Mathlib.Data.Finset.Sort

/-!
# The enumeration of candidates

The places that a candidate comes from are a set of `t` places of a group, and all these sets in
colexicographic order are `placeSets`: they are the choices of `choiceList`
(`map_toFinset_choiceList`).  A cursor answers one request after another, and a cursor that came to
the end stays there (`Cursor.request`).

`Cursor.answers_of_start` is the main statement: **a fresh cursor answers with one union for each
set of `t` places whose expressions do not contradict each other, group after group and in
colexicographic order, and then with nothing for ever**.
-/

set_option autoImplicit false

namespace ConfigSampler

/-! ## Sets of places -/

/-- All sets of `t` places below `size`, in colexicographic order. -/
def placeSets (size t : Nat) : List (Finset Nat) :=
  (((Finset.range size).powersetCard t).map toColex.toEmbedding).sort.map ofColex

variable {size t base : Nat} {ps qs : List Nat}

theorem rising_iff : Rising size base qs ↔ qs.SortedLT ∧ ∀ q ∈ qs, base ≤ q ∧ q < size := by
  rw [List.sortedLT_iff_pairwise]
  induction qs generalizing base with
  | nil => simp [Rising]
  | cons q qs ih =>
    rw [Rising, ih, List.pairwise_cons, List.forall_mem_cons]
    constructor
    · rintro ⟨hle, hlt, hsorted, hall⟩
      exact ⟨⟨fun r hr => (hall r hr).1, hsorted⟩, ⟨hle, hlt⟩,
        fun r hr => ⟨Nat.le_trans (Nat.le_succ_of_le hle) (hall r hr).1, (hall r hr).2⟩⟩
    · rintro ⟨⟨habove, hsorted⟩, ⟨hle, hlt⟩, hall⟩
      exact ⟨hle, hlt, hsorted, fun r hr => ⟨habove r hr, (hall r hr).2⟩⟩

theorem Rising.le_of_mem (h : Rising size base qs) : ∀ q ∈ qs, base ≤ q :=
  fun q hq => ((rising_iff.1 h).2 q hq).1

/-- The place that decides is in the later choice only, and what is in the earlier choice only is
    below it. -/
theorem Before.exists_deciding (h : Before ps qs) (hp : Rising size base ps)
    (hq : Rising size base qs) : ∃ top ∈ qs, top ∉ ps ∧ (∃ p ∈ ps, p < top) ∧
      ∀ p ∈ ps, p ∉ qs → p < top := by
  induction h generalizing base with
  | later p q h ih =>
    obtain ⟨hle, -, hps⟩ := hp
    obtain ⟨hle', -, hqs⟩ := hq
    obtain ⟨top, hmem, hnot, ⟨x, hx, hlt⟩, hbelow⟩ :=
      ih (hps.mono (Nat.succ_le_succ hle)) (hqs.mono (Nat.succ_le_succ hle'))
    have hptop : p < top := Nat.lt_trans (hps.le_of_mem x hx) hlt
    refine ⟨top, List.mem_cons_of_mem _ hmem, ?_, ⟨x, List.mem_cons_of_mem _ hx, hlt⟩, ?_⟩
    · rintro (- | ⟨-, hin⟩)
      · exact Nat.lt_irrefl _ hptop
      · exact hnot hin
    · rintro y (- | ⟨-, hy⟩) hnotq
      · exact hptop
      · exact hbelow y hy fun hin => hnotq (List.mem_cons_of_mem _ hin)
  | here rest hlt =>
    rename_i p q
    refine ⟨q, List.mem_cons_self, ?_, ⟨p, List.mem_cons_self, hlt⟩, ?_⟩
    · rintro (- | ⟨-, hin⟩)
      · exact Nat.lt_irrefl _ hlt
      · exact Nat.lt_irrefl _ (hq.2.2.le_of_mem q hin)
    · rintro y (- | ⟨-, hy⟩) hnotq
      · exact hlt
      · exact absurd (List.mem_cons_of_mem _ hy) hnotq

/-- Choices of places are ordered like their sets. -/
theorem Before.toColex_lt (h : Before ps qs) (hp : Rising size 0 ps) (hq : Rising size 0 qs) :
    toColex ps.toFinset < toColex qs.toFinset := by
  obtain ⟨top, hmem, hnot, -, hbelow⟩ := h.exists_deciding hp hq
  refine Finset.Colex.toColex_lt_toColex_iff_exists_forall_lt.2
    ⟨top, List.mem_toFinset.2 hmem, fun hin => hnot (List.mem_toFinset.1 hin), ?_⟩
  exact fun b hb hnotb => hbelow b (List.mem_toFinset.1 hb) fun hin => hnotb (List.mem_toFinset.2 hin)

/-- The places of a choice in order. -/
theorem Rising.sort_toFinset (h : Rising size 0 qs) : qs.toFinset.sort = qs := by
  obtain ⟨hsorted, -⟩ := rising_iff.1 h
  exact (List.toFinset_sort _ hsorted.nodup).2 hsorted.sortedLE.pairwise

/-- The choices of `t` places are the sets of `t` places. -/
theorem exists_toFinset_choiceList_iff {s : Finset Nat} :
    (∃ qs, qs ∈ choiceList size t ∧ qs.toFinset = s) ↔ s ∈ (Finset.range size).powersetCard t := by
  rw [Finset.mem_powersetCard]
  constructor
  · rintro ⟨qs, hqs, rfl⟩
    obtain ⟨hr, rfl⟩ := mem_choiceList.1 hqs
    obtain ⟨hsorted, hbounds⟩ := rising_iff.1 hr
    refine ⟨fun q hq => ?_, List.toFinset_card_of_nodup hsorted.nodup⟩
    exact Finset.mem_range.2 (hbounds q (List.mem_toFinset.1 hq)).2
  · rintro ⟨hsub, rfl⟩
    refine ⟨s.sort, mem_choiceList.2 ⟨?_, s.length_sort _⟩, s.sort_toFinset _⟩
    exact rising_iff.2 ⟨s.sortedLT_sort, fun q hq =>
      ⟨Nat.zero_le q, Finset.mem_range.1 (hsub ((Finset.mem_sort _).1 hq))⟩⟩

/-- **The choices are the sets of places**, in the same order. -/
theorem map_toFinset_choiceList (size t : Nat) :
    (choiceList size t).map List.toFinset = placeSets size t := by
  have hsets : ((choiceList size t).map fun qs => toColex qs.toFinset).toFinset =
      ((Finset.range size).powersetCard t).map toColex.toEmbedding := by
    ext s
    rw [List.mem_toFinset, List.mem_map, Finset.mem_map_equiv, ← exists_toFinset_choiceList_iff]
    rfl
  have hsorted : ((choiceList size t).map fun qs => toColex qs.toFinset).SortedLT := by
    refine List.Pairwise.sortedLT (List.pairwise_map.2 ?_)
    refine (pairwise_choiceList size t).imp_of_mem fun hps hqs hb => ?_
    exact hb.toColex_lt (mem_choiceList.1 hps).1 (mem_choiceList.1 hqs).1
  have hlist := (List.toFinset_sort (· ≤ ·) hsorted.nodup).2 hsorted.sortedLE.pairwise
  rw [placeSets, ← hsets, hlist, List.map_map]
  rfl

/-! ## Candidates -/

/-- The union of the expressions at a set of places. -/
def ExpressionGroup.unionOver (group : ExpressionGroup) (s : Finset Nat) : LiteralSet :=
  unionAt group s.sort

/-- No literal of the set is there together with its complement. -/
def LiteralSet.IsConsistent (s : LiteralSet) : Prop := ∀ x ∈ s.literals, -x ∉ s.literals

instance : DecidablePred LiteralSet.IsConsistent := fun s =>
  inferInstanceAs (Decidable (∀ x ∈ s.literals, -x ∉ s.literals))

/-- The candidates of a group: the consistent unions over its sets of `t` places, in the order of
    those. -/
def ExpressionGroup.candidates (group : ExpressionGroup) (t : Nat) : List LiteralSet :=
  ((placeSets group.size t).map group.unionOver).filter fun union => union.IsConsistent

variable {group : ExpressionGroup}

theorem mem_literals_unionOver {s : Finset Nat} {x : Int} :
    x ∈ (group.unionOver s).literals ↔ ∃ i ∈ s, x ∈ (group.getD i default).literals := by
  rw [ExpressionGroup.unionOver, mem_literals_unionAt]
  simp [ExpressionGroup.pick]

theorem isConsistent_unionAt {places : List Nat} :
    (unionAt group places).IsConsistent ↔ (unionAt group places).isContradictory = false := by
  rw [← Bool.not_eq_true, unionAt, LiteralSet.isContradictory_ofList_iff]
  simp [LiteralSet.IsConsistent]

/-- **The list has the candidates of one group after the other.** -/
theorem candidateList_eq_flatMap (t : Nat) (groups : List ExpressionGroup) :
    candidateList t groups = groups.flatMap fun group => group.candidates t := by
  have hgroup : ∀ group : ExpressionGroup,
      consistentUnions ((choiceList group.size t).map (group, ·)) = group.candidates t := by
    intro group
    rw [ExpressionGroup.candidates, ← map_toFinset_choiceList, consistentUnions, List.map_map,
      List.map_map]
    have hunions : (choiceList group.size t).map (group.unionOver ∘ List.toFinset) =
        (choiceList group.size t).map (unionAt group) := by
      refine List.map_congr_left fun qs hqs => ?_
      rw [Function.comp_apply, ExpressionGroup.unionOver, (mem_choiceList.1 hqs).1.sort_toFinset]
    rw [hunions]
    refine List.filter_congr fun union hunion => ?_
    obtain ⟨qs, -, rfl⟩ := List.mem_map.1 hunion
    rw [Bool.eq_iff_iff, decide_eq_true_eq, Function.comp_apply, isConsistent_unionAt]
    simp
  induction groups with
  | nil => rfl
  | cons group groups ih =>
    rw [List.flatMap_cons, ← ih, ← hgroup, candidateList, choicesOf_cons, consistentUnions,
      List.map_append, List.filter_append]
    rfl

/-! ## Requests -/

namespace Cursor

/-- A request: the answer and the cursor after it.  After the last candidate the cursor is at the
    end. -/
def request (c : Cursor) : Option LiteralSet × Cursor :=
  match c.next? with
  | none => (none, { c with places := [], groups := [], left := 0 })
  | some (union, later) => (some union, later)

/-- The answer to the request after so many others. -/
def answer (c : Cursor) : Nat → Option LiteralSet
  | 0 => c.request.1
  | earlier + 1 => c.request.2.answer earlier

variable {c : Cursor} {choices : List (ExpressionGroup × List Nat)}

/-- **A request takes the first candidate off the list.** -/
theorem request_of_stands (ht : 0 < t) (h : c.Stands t choices) :
    c.request.1 = (consistentUnions choices).head? ∧ ∃ others,
      consistentUnions others = (consistentUnions choices).tail ∧ c.request.2.Stands t others := by
  have hyields := next?_of_stands ht h
  unfold request
  generalize c.next? = out at hyields ⊢
  cases out with
  | none =>
    have hnone : consistentUnions choices = [] := hyields
    rw [hnone]
    exact ⟨rfl, [], rfl, h.strength, rfl, Nat.le_refl 0⟩
  | some found =>
    obtain ⟨others, hcons, hstands⟩ := hyields
    rw [hcons]
    exact ⟨rfl, others, rfl, hstands⟩

theorem answer_of_stands (ht : 0 < t) (h : c.Stands t choices) (i : Nat) :
    c.answer i = (consistentUnions choices)[i]? := by
  induction i generalizing c choices with
  | zero =>
    rw [answer, (request_of_stands ht h).1, List.head?_eq_getElem?]
  | succ i ih =>
    obtain ⟨-, others, htail, hstands⟩ := request_of_stands ht h
    rw [answer, ih hstands, htail, List.getElem?_tail]

/-- The bound on the choices that are looked at changes no answer: there may be any more of them. -/
theorem answer_left (ht : 0 < t) (h : c.Stands t choices) {left : Nat} (hle : c.left ≤ left)
    (i : Nat) : { c with left := left }.answer i = c.answer i := by
  have hmore : { c with left := left }.Stands t choices :=
    ⟨h.strength, h.lists, Nat.le_trans h.enough hle⟩
  rw [answer_of_stands ht h, answer_of_stands ht hmore]

/-- The list ends where `advance` finds no group to enter. -/
theorem groups_eq_nil_iff (h : c.Stands t choices) : c.groups = [] ↔ choices = [] := by
  have hlists := h.lists
  generalize c.groups = groups at hlists ⊢
  cases groups with
  | nil =>
    obtain rfl : choices = [] := hlists
    simp
  | cons group rest =>
    obtain ⟨passed, later, -, rfl⟩ := hlists
    simp

/-- All candidates from a place on, which are no more than the choices. -/
def yielded (c : Cursor) : List LiteralSet := (c.take (c.left + 1)).1

theorem yielded_start (ht : 0 < t) (groups : List ExpressionGroup) :
    (start groups t).yielded = candidateList t groups := by
  have hstands := stands_start ht groups
  have hlen : (candidateList t groups).length ≤ (start groups t).left := by
    refine Nat.le_trans (Nat.le_trans (List.length_filter_le _ _) ?_) hstands.enough
    rw [List.length_map]
  rw [yielded, take_of_stands ht hstands]
  exact List.take_of_length_le (Nat.le_succ_of_le hlen)

/-- **A fresh cursor enumerates the candidates.**  The answers are the unions over the sets of `t`
    places that hold no literal together with its complement, group after group and within a group
    in colexicographic order of the sets; from then on there is no answer.  It is not the bound on the
    choices that ends the list (`answer_left`): at its end no group is left (`groups_eq_nil_iff`). -/
theorem answers_of_start (ht : 0 < t) (groups : List ExpressionGroup) :
    (∀ i, (start groups t).answer i = (groups.flatMap fun group => group.candidates t)[i]?) ∧
    (∀ limit, (start groups t).take limit =
      ((groups.flatMap fun group => group.candidates t).take limit,
        decide ((groups.flatMap fun group => group.candidates t).length < limit))) ∧
    (∀ (group : ExpressionGroup) (s : Finset Nat) (x : Int),
      x ∈ (group.unionOver s).literals ↔ ∃ i ∈ s, x ∈ (group.getD i default).literals) := by
  have hstands := stands_start ht groups
  rw [← candidateList_eq_flatMap]
  exact ⟨answer_of_stands ht hstands, take_of_stands ht hstands,
    fun group s x => mem_literals_unionOver⟩

/-- Of the six pairs of four literals two are complements, and the other groups have no candidate. -/
theorem answers_over_two_variables :
    let groups : List ExpressionGroup := [#[.ofList [1]],
      #[.ofList [1], .ofList [-1], .ofList [2], .ofList [-2]], #[.ofList [3], .ofList [-3]]]
    0 < 2 ∧ (start groups 2).answer 0 = some (.ofList [1, 2]) ∧
      (start groups 2).answer 1 = some (.ofList [-1, 2]) ∧
      (start groups 2).answer 2 = some (.ofList [1, -2]) ∧
      (start groups 2).answer 3 = some (.ofList [-1, -2]) ∧
      (start groups 2).answer 4 = none ∧ (start groups 2).answer 9 = none := by
  intro groups
  obtain ⟨hanswers, -⟩ := answers_of_start (t := 2) (by decide) groups
  simp only [hanswers]
  rw [← candidateList_eq_flatMap]
  decide +kernel

end Cursor

end ConfigSampler
