import ConfigSampler.Proofs.Enumeration
import Mathlib.Data.Nat.Choose.Bounds

/-!
# Exact totals

With numbers of choices that come out, the totals of single literals are those of all candidates, cut
off at `maxCount` (`candidateTotalIn_cutOff`): a sum or a product that is cut off on the way does no
harm.  Where nothing is cut off at all, the number of candidates itself is in range
(`length_candidateList_le`).

`candidateTotal_spec` is the main statement: **in whatever order the variables are visited, the total
comes out unless it takes a table that there is not; then that of groups of single literals is the
number of candidates that a fresh cursor yields, and that of other groups is no less**.  A strength
from `maxTable` on asks for such a table even if there is a single literal only
(`candidateTotal_without_table`).
-/

set_option autoImplicit false

namespace ConfigSampler

/-- The first number is the second one, cut off at the limit of counts. -/
def CutOff (a b : Nat) : Prop := a = min b maxCount

theorem cutOff_iff {a b : Nat} : CutOff a b ↔ AtLeast a b ∧ a ≤ b ∧ a ≤ maxCount := by
  unfold CutOff AtLeast
  omega

theorem CutOff.saturating : Saturating CutOff where
  zero := by simp [CutOff]
  one := by simp [CutOff, maxCount]
  eq_zero h := by
    unfold CutOff maxCount at h
    omega
  add h h' := by
    obtain ⟨hge, hle, -⟩ := cutOff_iff.1 h
    obtain ⟨hge', hle', -⟩ := cutOff_iff.1 h'
    exact cutOff_iff.2 ⟨hge.satAdd hge',
      Nat.le_trans (Nat.min_le_left _ _) (Nat.add_le_add hle hle'), satAdd_le _ _⟩
  mul h h' := by
    obtain ⟨hge, hle, -⟩ := cutOff_iff.1 h
    obtain ⟨hge', hle', -⟩ := cutOff_iff.1 h'
    exact cutOff_iff.2 ⟨hge.satMul hge',
      Nat.le_trans (Nat.min_le_left _ _) (Nat.mul_le_mul hle hle'), satMul_le _ _⟩

theorem CutOff.eq {a b : Nat} (h : CutOff a b) (hle : b ≤ maxCount) : a = b :=
  h.trans (Nat.min_eq_left hle)

variable {t : Nat} {lits : List Int} {order : List Nat}

theorem signWays_cutOff {positive negative k : Nat} (hpositive : ProductsFit positive k)
    (hnegative : ProductsFit negative k) :
    CutOff (signWays positive negative k) (signChoices positive negative k) := by
  unfold signWays signChoices
  split
  · exact CutOff.saturating.one
  · rw [binomial_of_productsFit hpositive, binomial_of_productsFit hnegative]
    rfl

/-- The numbers of choices for the variables come out. -/
def NumbersFit (lits : List Int) (t : Nat) (order : List Nat) : Prop := ∀ v ∈ order, ∀ k ≤ t,
  ProductsFit (lits.count (v : Int)) k ∧ ProductsFit (lits.count (-(v : Int))) k

theorem NumbersFit.signWays_cutOff (h : NumbersFit lits t order) : ∀ v ∈ order, ∀ k ≤ t,
    CutOff (signWays (lits.count (v : Int)) (lits.count (-(v : Int))) k)
      (signChoices (lits.count (v : Int)) (lits.count (-(v : Int))) k) :=
  fun v hv k hk => ConfigSampler.signWays_cutOff (h v hv k hk).1 (h v hv k hk).2

/-- None of the sums and products of counts for one variable after the other is cut off: neither the
    sum for both signs nor any part of the sum over the ways to divide a size. -/
def SumsFit (lits : List Int) (t : Nat) : List Nat → Prop
  | [] => True
  | v :: rest => SumsFit lits t rest ∧ ∀ k ≤ t,
    binomial (lits.count (v : Int)) k + binomial (lits.count (-(v : Int))) k ≤ maxCount ∧
    convolve (signWays (lits.count (v : Int)) (lits.count (-(v : Int))))
      (choicesAmong lits t rest).ofSize k ≤ maxCount

instance decidableSumsFit (lits : List Int) (t : Nat) :
    (order : List Nat) → Decidable (SumsFit lits t order)
  | [] => .isTrue trivial
  | _ :: rest =>
    have := decidableSumsFit lits t rest
    inferInstanceAs (Decidable (SumsFit lits t rest ∧ ∀ k ≤ t, _ ∧ _))

theorem choicesAmong_cutOff (hvars : order.Nodup) (hpos : ∀ v ∈ order, 0 < v)
    (hnumbers : NumbersFit lits t order) : (choicesAmong lits t order).Relates CutOff
      (choicesWith unopposed (lits.filter fun x => order.contains x.natAbs)) t :=
  choicesAmong_relates CutOff.saturating hvars hpos hnumbers.signWays_cutOff

/-- **With sums in range the numbers of choices are in range.** -/
theorem choicesWith_le_of_sumsFit (hvars : order.Nodup) (hpos : ∀ v ∈ order, 0 < v)
    (hnumbers : NumbersFit lits t order) (hsums : SumsFit lits t order) : ∀ k ≤ t,
    choicesWith unopposed (lits.filter fun x => order.contains x.natAbs) k ≤ maxCount := by
  induction order with
  | nil =>
    intro k _
    rw [choicesWith_no_variable]
    cases k with
    | zero => decide
    | succ k => exact Nat.zero_le _
  | cons v rest ih =>
    obtain ⟨hnew, hnodup⟩ := List.nodup_cons.1 hvars
    obtain ⟨hv, hpos⟩ := List.forall_mem_cons.1 hpos
    obtain ⟨hown, hnumbers⟩ := List.forall_mem_cons.1 hnumbers
    obtain ⟨hrest, hsums⟩ := hsums
    -- the values at hand are the numbers of choices
    have hsigns : ∀ k ≤ t, signWays (lits.count (v : Int)) (lits.count (-(v : Int))) k =
        signChoices (lits.count (v : Int)) (lits.count (-(v : Int))) k := by
      intro k hk
      obtain ⟨hpositive, hnegative⟩ := hown k hk
      refine (signWays_cutOff hpositive hnegative).eq ?_
      unfold signChoices
      split
      · decide
      · have hsum := (hsums k hk).1
        rwa [binomial_of_productsFit hpositive, binomial_of_productsFit hnegative] at hsum
    have hamong : ∀ k ≤ t, (choicesAmong lits t rest).ofSize k =
        choicesWith unopposed (lits.filter fun x => rest.contains x.natAbs) k := fun k hk =>
      (choicesAmong_cutOff hnodup hpos hnumbers k hk).eq (ih hnodup hpos hnumbers hrest k hk)
    intro k hk
    rw [choicesWith_variable lits hv hnew]
    refine Nat.le_trans (Nat.le_of_eq ?_) (hsums k hk).2
    refine Finset.sum_congr rfl fun sizes hsizes => ?_
    rw [Finset.HasAntidiagonal.mem_antidiagonal] at hsizes
    rw [hsigns sizes.1 (by omega), hamong sizes.2 (by omega)]

/-! ## The total of all groups -/

namespace Visit

variable {visit : Visit}

/-- The group has single literals only. -/
def IsSingle (visit : Visit) : Prop := ∀ e ∈ visit.1, e.size = 1

theorem IsSingle.isSingle (h : visit.IsSingle) : visit.1.isSingle = true :=
  Array.all_eq_true_iff_forall_mem.2 fun e he => beq_iff_eq.2 (h e he)

theorem IsSingle.choicesWith (h : visit.IsSingle) (t : Nat) :
    choicesWith areConsistent visit.1.toList t = choicesWith unopposed visit.1.literals t :=
  choicesWith_singletons (ExpressionGroup.size_eq_one h.isSingle) t

/-- Numbers of choices that come out make the number of candidates come out. -/
theorem candidates_cutOff (hsingle : visit.IsSingle) (hvisit : VisitsAll visit.1.literals visit.2)
    (hnumbers : NumbersFit visit.1.literals t visit.2) :
    CutOff (visit.candidates t) (ConfigSampler.choicesWith areConsistent visit.1.toList t) := by
  rw [candidates, if_pos hsingle.isSingle, hsingle.choicesWith]
  exact literalChoicesIn_relates CutOff.saturating
    (fun x hx => ExpressionGroup.ne_zero_of_mem_literals hx) hvisit hnumbers.signWays_cutOff

/-- If the sums are in range too, the number of candidates is exact. -/
theorem candidates_eq (hsingle : visit.IsSingle) (hvisit : VisitsAll visit.1.literals visit.2)
    (hnumbers : NumbersFit visit.1.literals t visit.2)
    (hsums : SumsFit visit.1.literals t visit.2) :
    visit.candidates t = ConfigSampler.choicesWith areConsistent visit.1.toList t := by
  refine (candidates_cutOff hsingle hvisit hnumbers).eq ?_
  have hpos := hvisit.pos fun x hx => ExpressionGroup.ne_zero_of_mem_literals hx
  have hle := choicesWith_le_of_sumsFit hvisit.nodup hpos hnumbers hsums t (Nat.le_refl t)
  rwa [hvisit.filter_eq_self, ← hsingle.choicesWith] at hle

end Visit

variable {visits : List Visit}

/-- The candidates of the list are those of each group. -/
theorem length_candidateList (t : Nat) (visits : List Visit) :
    (candidateList t (visits.map Prod.fst)).length =
      (visits.map fun visit => choicesWith areConsistent visit.1.toList t).sum := by
  induction visits with
  | nil => rfl
  | cons visit visits ih =>
    rw [List.map_cons, length_candidateList_cons, ih, List.map_cons, List.sum_cons]

theorem candidateTotalIn_cutOff (hsingle : ∀ visit ∈ visits, visit.IsSingle)
    (hvisits : ∀ visit ∈ visits, VisitsAll visit.1.literals visit.2)
    (hnumbers : ∀ visit ∈ visits, NumbersFit visit.1.literals t visit.2) :
    CutOff (candidateTotalIn visits t) (candidateList t (visits.map Prod.fst)).length :=
  candidateTotalIn_relates CutOff.saturating fun visit hvisit =>
    Visit.candidates_cutOff (hsingle visit hvisit) (hvisits visit hvisit) (hnumbers visit hvisit)

/-- No sum of counts is cut off, neither within a group nor over the groups. -/
def NothingCutOff (visits : List Visit) (t : Nat) : Prop :=
  (∀ visit ∈ visits, SumsFit visit.1.literals t visit.2) ∧
    (visits.map (Visit.candidates t)).sum ≤ maxCount

theorem candidateTotalIn_eq (hsingle : ∀ visit ∈ visits, visit.IsSingle)
    (hvisits : ∀ visit ∈ visits, VisitsAll visit.1.literals visit.2)
    (hnumbers : ∀ visit ∈ visits, NumbersFit visit.1.literals t visit.2)
    (hsums : NothingCutOff visits t) :
    candidateTotalIn visits t = (candidateList t (visits.map Prod.fst)).length := by
  refine (candidateTotalIn_cutOff hsingle hvisits hnumbers).eq ?_
  have hexact : visits.map (Visit.candidates t) =
      visits.map fun visit => choicesWith areConsistent visit.1.toList t :=
    List.map_congr_left fun visit hvisit => Visit.candidates_eq (hsingle visit hvisit)
      (hvisits visit hvisit) (hnumbers visit hvisit) (hsums.1 visit hvisit)
  rw [length_candidateList, ← hexact]
  exact hsums.2

/-- **The total of candidates.**  Whatever the order is in which the variables of each group are
    visited, it comes out if and only if there is a table of counts for each group of single literals.
    It is no less than the number of candidates that a fresh cursor yields, or it is the greatest
    count.  It is that number, cut off at `maxCount`, if all groups have single literals only and no
    product on the way to a number of choices exceeds `maxCount`; and the number itself if no sum is
    cut off either. -/
theorem candidateTotal_spec (ht : 0 < t) (groups : List ExpressionGroup) :
    (∀ visits : List Visit, visits.map Prod.fst = groups →
      (∀ visit ∈ visits, VisitsAll visit.1.literals visit.2) →
      let yielded := (Cursor.start groups t).yielded.length
      ((∃ total, candidateTotalIn? visits t = some total) ↔ TablesFit t groups) ∧
      ∀ total, candidateTotalIn? visits t = some total →
        min yielded maxCount ≤ total ∧
        ((∀ visit ∈ visits, visit.IsSingle) →
          (∀ visit ∈ visits, NumbersFit visit.1.literals t visit.2) →
          total = min yielded maxCount ∧ (NothingCutOff visits t → total = yielded))) ∧
    candidateTotal? groups t = candidateTotalIn? (groups.map ExpressionGroup.visit) t ∧
    (∀ visit ∈ groups.map ExpressionGroup.visit, VisitsAll visit.1.literals visit.2) ∧
    ∀ total, candidateTotal? groups t = some total → total = candidateTotal groups t := by
  refine ⟨?_, candidateTotal?_eq groups t, visitsAll_visit groups, fun total htotal => ?_⟩
  · rintro visits rfl hvisits
    dsimp only
    rw [Cursor.yielded_start ht]
    refine ⟨⟨fun ⟨total, htotal⟩ => (candidateTotalIn?_eq_some_iff.1 htotal).1,
      fun hfit => ⟨_, candidateTotalIn?_eq_some hfit⟩⟩, fun total htotal => ?_⟩
    obtain ⟨-, rfl⟩ := candidateTotalIn?_eq_some_iff.1 htotal
    refine ⟨candidateTotalIn_atLeast t hvisits, fun hsingle hnumbers => ⟨?_, ?_⟩⟩
    · exact candidateTotalIn_cutOff hsingle hvisits hnumbers
    · exact candidateTotalIn_eq hsingle hvisits hnumbers
  · rw [candidateTotal_eq]
    exact (candidateTotalIn?_eq_some_iff.1 (candidateTotal?_eq groups t ▸ htotal)).2

/-- Two of the six pairs are complements of each other, and the second group has no candidate. -/
theorem candidateTotal_of_repeated_literals :
    let visits : List Visit := [(#[.ofList [1], .ofList [-1], .ofList [1], .ofList [2]], [2, 1]),
      (#[.ofList [3], .ofList [-3]], [3])]
    0 < 2 ∧ candidateTotalIn? visits 2 =
        some (Cursor.start (visits.map Prod.fst) 2).yielded.length ∧
      candidateTotalIn? visits 2 = some 4 := by
  intro visits
  have hvisits : ∀ visit ∈ visits, VisitsAll visit.1.literals visit.2 := by decide +kernel
  have hsingle : ∀ visit ∈ visits, visit.IsSingle := by
    unfold Visit.IsSingle
    decide +kernel
  have hnumbers : ∀ visit ∈ visits, NumbersFit visit.1.literals 2 visit.2 := by
    unfold NumbersFit ProductsFit
    decide +kernel
  have hsums : NothingCutOff visits 2 := by
    unfold NothingCutOff
    decide +kernel
  have hfit : TablesFit 2 (visits.map Prod.fst) := fun _ _ _ => by decide
  obtain ⟨hcomes, hcounts⟩ :=
    (candidateTotal_spec (t := 2) (by decide) (visits.map Prod.fst)).1 visits rfl hvisits
  obtain ⟨total, htotal⟩ := hcomes.2 hfit
  obtain rfl := ((hcounts total htotal).2 hsingle hnumbers).2 hsums
  exact ⟨by decide, htotal, by decide +kernel⟩

theorem convolve_unit (f : Nat → Nat) (k : Nat) :
    convolve f (ChoiceCounts.ofSize [1]) k = f k := by
  cases k with
  | zero => simp [convolve_zero, ChoiceCounts.ofSize]
  | succ k =>
    rw [convolve_succ']
    simp [convolve, ChoiceCounts.ofSize]

/-- A literal cannot be chosen so often that its choices take a table that there is not.  The number of
    candidates is zero, no product exceeds `maxCount` and no sum is cut off, but the total does not come
    out. -/
theorem candidateTotal_without_table :
    let visits : List Visit := [(#[.ofList [1]], [1])]
    0 < maxCount ∧ (∀ visit ∈ visits, VisitsAll visit.1.literals visit.2) ∧
      (∀ visit ∈ visits, visit.IsSingle) ∧
      (∀ visit ∈ visits, NumbersFit visit.1.literals maxCount visit.2) ∧
      NothingCutOff visits maxCount ∧
      (Cursor.start (visits.map Prod.fst) maxCount).yielded = [] ∧
      candidateTotalIn? visits maxCount = none ∧
      candidateTotal? (visits.map Prod.fst) maxCount = none := by
  intro visits
  have hfits : ∀ n ≤ 1, ∀ k, ProductsFit n k := fun n hn k i hi => by omega
  have hbinomial : ∀ n ≤ 1, ∀ k, binomial n k ≤ 2 := by
    intro n hn k
    rw [binomial_of_productsFit (hfits n hn k)]
    calc n.choose k ≤ 2 ^ n := Nat.choose_le_two_pow n k
      _ ≤ 2 ^ 1 := Nat.pow_le_pow_right Nat.two_pos hn
  have hliterals : ExpressionGroup.literals #[.ofList [1]] = [1] := by decide +kernel
  have hnone : ¬ TablesFit maxCount [#[.ofList [1]]] := fun h => by
    have hlt := h _ List.mem_cons_self (by decide +kernel)
    exact absurd hlt (by decide)
  have hsigns : ∀ k, signWays 1 0 k ≤ maxCount := fun k => by
    unfold signWays
    split
    · decide
    · exact satAdd_le _ _
  refine ⟨by decide, by decide +kernel, ?_, ?_, ⟨?_, by decide +kernel⟩, by decide +kernel, ?_, ?_⟩
  · unfold Visit.IsSingle
    decide +kernel
  · rintro visit hvisit v hv k -
    obtain rfl := List.mem_singleton.1 hvisit
    obtain rfl := List.mem_singleton.1 hv
    rw [hliterals]
    exact ⟨hfits 1 (Nat.le_refl 1) k, hfits 0 (Nat.zero_le 1) k⟩
  · intro visit hvisit
    obtain rfl := List.mem_singleton.1 hvisit
    rw [hliterals]
    refine ⟨trivial, fun k _ => ⟨?_, ?_⟩⟩
    · have hpositive : binomial 1 k ≤ 2 := hbinomial 1 (Nat.le_refl 1) k
      have hnegative : binomial 0 k ≤ 2 := hbinomial 0 (Nat.zero_le 1) k
      show binomial 1 k + binomial 0 k ≤ maxCount
      unfold maxCount
      omega
    · show convolve (signWays 1 0) (ChoiceCounts.ofSize [1]) k ≤ maxCount
      rw [convolve_unit]
      exact hsigns k
  · exact candidateTotalIn?_eq_none hnone
  · rw [candidateTotal?_eq]
    exact candidateTotalIn?_eq_none hnone

end ConfigSampler
