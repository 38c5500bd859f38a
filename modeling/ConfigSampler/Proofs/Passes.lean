import ConfigSampler.Sampling.Run

/-!
# Passes of the sampling loop

The loop of a run repeats one pass until the run ends (`Sampler.loop_succ`), so what every pass keeps
holds at the end of the run (`Sampler.loop_rule`).
-/

set_option autoImplicit false

namespace ConfigSampler

namespace Sampler

variable {S G σ : Type} [SatSolver S] [Strategy G] {settings : SampleSettings}

/-- Excluding a configuration changes neither the strategy nor the sample. -/
theorem exclude_same (settings : SampleSettings) (r : Progress S G σ) (config : LiteralSet) :
    (exclude settings r config).2.strategy = r.strategy ∧
      (exclude settings r config).2.accepted = r.accepted := by
  unfold exclude
  split
  · exact ⟨rfl, rfl⟩
  · dsimp only
    split <;> exact ⟨rfl, rfl⟩

variable [Monitor σ]

/-- A configuration is accepted, unless the run is cancelled before. -/
theorem acceptAll_same {r : Progress S G σ} (hroom : isFull settings r = false)
    (config : LiteralSet) :
    (acceptAll settings [config] r).2.strategy = r.strategy ∧
      ((acceptAll settings [config] r).1 = some (.ok .cancelled) ∧
        (acceptAll settings [config] r).2.accepted = r.accepted ∨
      (acceptAll settings [config] r).2.accepted = r.accepted.push config) := by
  obtain ⟨strategy, context, accepted⟩ := r
  unfold acceptAll
  dsimp only
  split
  · exact ⟨rfl, .inl ⟨rfl, rfl⟩⟩
  · rename_i cx _
    rw [if_neg (by simpa [isFull] using hroom)]
    obtain ⟨hstrategy, haccepted⟩ := exclude_same settings
      (take (⟨strategy, cx, accepted⟩ : Progress S G σ) config) config
    split <;> rename_i he <;> rw [he] at hstrategy haccepted
    · exact ⟨hstrategy, .inr haccepted⟩
    · exact ⟨hstrategy, .inr haccepted⟩

/-- One pass of the loop: the run goes on, or it has ended. -/
def pass (settings : SampleSettings) (r : Progress S G σ) :
    Option (Except SampleError Completion) × Progress S G σ :=
  match r with
  | ⟨strategy, context, accepted⟩ =>
    match context.poll with
    | (true, context) => (some (.ok .cancelled), ⟨strategy, context, accepted⟩)
    | (false, context) =>
      if settings.maxSize ≤ accepted.size then
        (some (.ok (Strategy.finished strategy)), ⟨strategy, context, accepted⟩)
      else
        match Strategy.step strategy settings accepted context with
        | (.error e, strategy, context) => (some (.error e), ⟨strategy, context, accepted⟩)
        | (.ok .pending, strategy, context) => (none, ⟨strategy, context, accepted⟩)
        | (.ok .done, strategy, context) =>
          (some (.ok (Strategy.finished strategy)), ⟨strategy, context, accepted⟩)
        | (.ok .exhausted, strategy, context) =>
          (some (.ok .exhausted), ⟨strategy, context, accepted⟩)
        | (.ok (.batch configs), strategy, context) =>
          acceptAll settings configs ⟨strategy, context, accepted⟩

/-- What is left of a run after a pass. -/
def proceed (settings : SampleSettings) (steps : Nat) :
    Option (Except SampleError Completion) × Progress S G σ →
      Except SampleError Completion × Progress S G σ
  | (some result, r) => (result, r)
  | (none, r) => loop settings steps r

/-- The loop makes passes until one of them ends the run. -/
theorem loop_succ (settings : SampleSettings) (steps : Nat) (r : Progress S G σ) :
    loop settings (steps + 1) r = proceed settings steps (pass settings r) := by
  obtain ⟨strategy, context, accepted⟩ := r
  rw [loop, pass]
  rcases context.poll with ⟨stop, cx⟩
  cases stop with
  | true => rfl
  | false =>
    dsimp only
    split
    · rfl
    · rcases Strategy.step strategy settings accepted cx with ⟨result, strategy', cx'⟩
      cases result with
      | error e => rfl
      | ok step => cases step <;> rfl

/-- The run goes on with one property, or it has ended with another. -/
def Turns (I : Progress S G σ → Prop) (E : Except SampleError Completion → Progress S G σ → Prop) :
    Option (Except SampleError Completion) × Progress S G σ → Prop
  | (none, r) => I r
  | (some result, r) => E result r

/-- **What every pass keeps holds at the end of a run.**  It may depend on the number of passes that
    are left. -/
theorem loop_rule {I : Nat → Progress S G σ → Prop}
    {E : Except SampleError Completion → Progress S G σ → Prop}
    (hlimit : ∀ r, I 0 r → E (.error .stepLimitReached) r)
    (hpass : ∀ steps r, I (steps + 1) r → Turns (I steps) E (pass settings r)) (steps : Nat) :
    ∀ r, I steps r → E (loop settings steps r).1 (loop settings steps r).2 := by
  induction steps with
  | zero => exact hlimit
  | succ steps ih =>
    intro r hr
    have hturns := hpass steps r hr
    rw [loop_succ]
    generalize pass settings r = out at hturns ⊢
    obtain ⟨result, r'⟩ := out
    cases result with
    | none => exact ih r' hturns
    | some result => exact hturns

end Sampler

end ConfigSampler
