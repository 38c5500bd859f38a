import ConfigSampler.Proofs.Polarity
import ConfigSampler.Solver.Search

/-!
# Looks at the flag

A search looks at the flag of its budget once in every turn of an attempt and nowhere else.  If it is
interrupted, the last look found the budget spent (`Search.run_isSpent`): the flag was raised by then,
or a bound was reached.
-/

set_option autoImplicit false

namespace ConfigSampler

namespace Search

variable {s s' : Search} {limit limit' : LearntLimit} {query : Query}

/-! ## What looks at nothing -/

theorem looks_settle (s : Search) (limit : LearntLimit) : (s.settle limit).2.looks = s.looks := by
  unfold settle
  simp only
  split <;> rfl

theorem looks_follow (s : Search) (lesson : Lesson) : (s.follow lesson).looks = s.looks := by
  cases lesson <;> rfl

theorem looks_learn {conflict : ClauseRef} {more : Bool}
    (he : s.learn limit conflict = (more, limit', s')) : s'.looks = s.looks := by
  unfold learn at he
  dsimp only at he
  generalize analyze _ _ _ _ _ = a at *
  split at he
  · cases he
    rfl
  · cases he
    rw [looks_settle, looks_follow]
    rfl

theorem looks_stabilise : ∀ (rounds : Nat) {limit : LearntLimit} {s : Search} {round : Round},
    stabilise rounds limit s = (round, limit', s') → s'.looks = s.looks
  | 0, _, _, _, he => by
    cases he
    rfl
  | rounds + 1, limit, s, round, he => by
    unfold stabilise at he
    split at he
    · cases he
      rfl
    · split at he
      · rename_i hlearn
        cases he
        exact (looks_learn hlearn).trans rfl
      · rename_i hlearn
        exact (looks_stabilise rounds he).trans ((looks_learn hlearn).trans rfl)

theorem looks_collectGarbage (s : Search) : s.collectGarbage.looks = s.looks := by
  unfold collectGarbage
  split <;> rfl

theorem looks_reduceLearnts (s : Search) : s.reduceLearnts.looks = s.looks :=
  looks_collectGarbage _

theorem looks_simplify (s : Search) : s.simplify.looks = s.looks := by
  unfold simplify
  split
  · rfl
  · exact looks_collectGarbage _

theorem looks_nextDecision (s : Search) (assumptions : Array Lit) :
    (s.nextDecision assumptions).2.looks = s.looks := by
  unfold nextDecision
  dsimp only
  split
  · rfl
  · split <;> rfl

/-! ## Spent budgets -/

/-- The latest look at the flag found the budget spent. -/
def IsSpent (s : Search) (query : Query) : Prop :=
  ∃ look, s.looks = query.startLooks + look + 1 ∧
    (query.budget.after look).within (s.conflicts - query.startConflicts)
      (s.propagator.propagations - query.startPropagations) = false

theorem isSpent_looked (hstart : query.startLooks ≤ s.looks) (h : s.affords query = false) :
    s.looked.IsSpent query := by
  refine ⟨s.looks - query.startLooks, ?_, h⟩
  show s.looks + 1 = _
  omega

/-- An attempt that is interrupted has found the budget spent. -/
theorem attempt_looks (query : Query) (conflictLimit : Nat) :
    ∀ (steps : Nat) (limit : LearntLimit) (s : Search), query.startLooks ≤ s.looks →
      query.startLooks ≤ (attempt query conflictLimit steps limit s).2.2.looks ∧
      ∀ progress, (attempt query conflictLimit steps limit s).1 = .interrupted progress →
        (attempt query conflictLimit steps limit s).2.2.IsSpent query := by
  intro steps
  induction steps with
  | zero => exact fun _ _ hstart => ⟨hstart, fun _ hout => nomatch hout⟩
  | succ steps ih =>
    intro limit s hstart
    unfold attempt
    rcases hround : stabilise (s.propagator.trail.level + 2) limit s with ⟨round, limit₁, s₁⟩
    have hlooks : s₁.looks = s.looks := looks_stabilise _ hround
    have hstart₁ : query.startLooks ≤ s₁.looks := by omega
    cases round with
    | outOfSteps => exact ⟨hstart₁, fun _ hout => nomatch hout⟩
    | contradiction => exact ⟨hstart₁, fun _ hout => nomatch hout⟩
    | stable =>
      have hnext : query.startLooks ≤ s₁.looked.looks := Nat.le_succ_of_le hstart₁
      dsimp only
      split
      · rename_i hspent
        rw [Bool.not_eq_true'] at hspent
        exact ⟨hnext, fun _ _ => isSpent_looked hstart₁ hspent⟩
      split
      · exact ⟨hnext, fun _ hout => nomatch hout⟩
      have htidied : (if s₁.looked.simplify.isOverfull limit₁ then
          s₁.looked.simplify.reduceLearnts else s₁.looked.simplify).looks = s₁.looked.looks := by
        split
        · rw [looks_reduceLearnts, looks_simplify]
        · exact looks_simplify _
      generalize (if s₁.looked.simplify.isOverfull limit₁ then
          s₁.looked.simplify.reduceLearnts else s₁.looked.simplify) = s₂ at htidied ⊢
      have hstart₃ : query.startLooks ≤ (s₂.nextDecision query.assumptions).2.looks := by
        rw [looks_nextDecision, htidied]
        exact hnext
      generalize s₂.nextDecision query.assumptions = next at hstart₃ ⊢
      obtain ⟨decision, s₃⟩ := next
      cases decision with
      | assumptionFails => exact ⟨hstart₃, fun _ hout => nomatch hout⟩
      | allAssigned => exact ⟨hstart₃, fun _ hout => nomatch hout⟩
      | decide l => exact ih limit₁ _ hstart₃

theorem attempts_isSpent (query : Query) :
    ∀ (steps : Nat) (restarts : UInt32) (limit : LearntLimit) (s : Search),
      query.startLooks ≤ s.looks →
      ∀ progress, (attempts query steps restarts limit s).1 = .interrupted progress →
        (attempts query steps restarts limit s).2.IsSpent query := by
  intro steps
  induction steps with
  | zero => exact fun _ _ _ _ _ hout => nomatch hout
  | succ steps ih =>
    intro restarts limit s hstart
    have hattempt := attempt_looks query (s.conflictLimit restarts) s.settings.stepLimit limit
      { s with starts := s.starts + 1 } hstart
    unfold attempts
    dsimp only
    generalize attempt query _ _ limit _ = out at hattempt ⊢
    obtain ⟨outcome, limit', s'⟩ := out
    obtain ⟨hstart', hspent⟩ := hattempt
    cases outcome with
    | restart => exact ih _ _ _ hstart'
    | interrupted progress => exact fun _ _ => hspent progress rfl
    | _ => exact fun _ hout => nomatch hout

/-- The question a search is asked when it starts. -/
def question (s : Search) (budget : Budget) (assumptions : Array Lit) : Query :=
  ⟨assumptions, budget, s.conflicts, s.propagator.propagations, s.looks⟩

/-- **A search is interrupted only if its last look at the flag found the budget spent.** -/
theorem run_isSpent (s : Search) (budget : Budget) (assumptions : Array Lit) (progress : Float)
    (h : (s.run budget assumptions).1 = .interrupted progress) :
    (s.run budget assumptions).2.IsSpent (s.question budget assumptions) := by
  have hspent := attempts_isSpent (s.question budget assumptions) s.settings.stepLimit 0
    (LearntLimit.start s.settings.learnt s.lists.numClauses)
    { s.report (.searchStarted assumptions.size s.lists.learnts.size) with solves := s.solves + 1 }
    (Nat.le_refl _) progress
  unfold run at h ⊢
  exact hspent h

end Search

end ConfigSampler
