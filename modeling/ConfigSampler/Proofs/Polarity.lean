import ConfigSampler.Proofs.Truth
import ConfigSampler.Solver.DecisionQueue

/-!
# The polarity of free decisions

A search never changes the polarity rule it works under: whatever is done to the queue keeps its
settings, and a literal that the queue picks obeys them (`DecisionQueue.allows_of_pickLit`).
-/

set_option autoImplicit false

namespace ConfigSampler

/-- A free decision may take the literal under the polarity rule. -/
def Polarity.Allows : Polarity → Lit → Prop
  | .random, _ => True
  | .positive, l => l.negated = false
  | .negative, l => l.negated = true

/-- An accepted assignment of `n` variables that keeps all allowed literals of this one keeps the
    other literals too. -/
def Assignment.IsExtreme (α : Assignment) (polarity : Polarity) (n : Nat)
    (F : Assignment → Prop) : Prop :=
  ∀ β, F β → (∀ l : Lit, l.var < n → polarity.Allows l → l.Holds α → l.Holds β) →
    ∀ l : Lit, l.var < n → l.Holds α → l.Holds β

namespace DecisionQueue

variable {q : DecisionQueue} {t : Trail} {l : Lit}

theorem settings_insertAll (q : DecisionQueue) (vars : List Nat) :
    (q.insertAll vars).settings = q.settings := by
  induction vars generalizing q with
  | nil => rfl
  | cons v vars ih => exact ih (q.insert v)

theorem settings_bump (q : DecisionQueue) (v : Nat) : (q.bump v).settings = q.settings := by
  unfold bump
  dsimp only
  split <;> rfl

theorem settings_bumpAll (q : DecisionQueue) (vars : List Nat) :
    (q.bumpAll vars).settings = q.settings := by
  induction vars generalizing q with
  | nil => rfl
  | cons v vars ih =>
    have hrest : (q.bumpAll (v :: vars)).settings = ((q.bump v).bumpAll vars).settings := by
      simp only [bumpAll, List.foldl_cons]
    rw [hrest, ih, settings_bump]

theorem settings_popFree (t : Trail) : ∀ (fuel : Nat) (q : DecisionQueue),
    (popFree t fuel q).2.settings = q.settings
  | 0, _ => rfl
  | fuel + 1, q => by
    unfold popFree
    dsimp only
    split
    · rfl
    · split
      · rfl
      · exact settings_popFree t fuel _

theorem settings_pickRandom (q : DecisionQueue) : q.pickRandom.2.settings = q.settings := by
  unfold pickRandom
  dsimp only
  split <;> rfl

theorem settings_pickVar (q : DecisionQueue) (t : Trail) :
    (q.pickVar t).2.settings = q.settings := by
  have hrandom := settings_pickRandom q
  unfold pickVar
  generalize q.pickRandom = out at *
  obtain ⟨candidate, queue⟩ := out
  dsimp only at hrandom ⊢
  split
  · split
    · exact hrandom
    · rw [settings_popFree, hrandom]
  · rw [settings_popFree, hrandom]

theorem settings_pickLit (q : DecisionQueue) (t : Trail) :
    (q.pickLit t).2.settings = q.settings := by
  have hvar := settings_pickVar q t
  unfold pickLit
  split <;> rename_i he <;> rw [he] at hvar
  · exact hvar
  · split <;> exact hvar

/-- **A free decision obeys the polarity rule.** -/
theorem allows_of_pickLit (h : (q.pickLit t).1 = some l) : q.settings.polarity.Allows l := by
  have hvar := settings_pickVar q t
  unfold pickLit at h
  split at h <;> rename_i he <;> rw [he] at hvar
  · cases h
  · dsimp only at hvar
    rw [hvar] at h
    cases hpolarity : q.settings.polarity <;> rw [hpolarity] at h
    · trivial
    · cases h
      exact Lit.negated_ofVar _ _
    · cases h
      exact Lit.negated_ofVar _ _

end DecisionQueue

end ConfigSampler
