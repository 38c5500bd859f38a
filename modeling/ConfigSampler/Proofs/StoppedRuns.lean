import ConfigSampler.Proofs.Passes
import ConfigSampler.Proofs.Samples
import ConfigSampler.Proofs.SideBySide

/-!
# Runs that are stopped

A run whose monitor stops it has the first configurations of the run that nothing stops, and accepts
none after it was told to stop (`stopped_run_begins`).  The monitor may raise its flag at any time, also
while a search is at work.  The two runs are compared pass by pass: as long as no poll stops the second
one they are abreast (`Sampler.Progress.Abreast`), and once it is stopped it ends with its next pass at
the latest.
-/

set_option autoImplicit false

namespace ConfigSampler

namespace Sampler

variable {S G σ τ : Type} [SatSolver S]

section One

variable [Strategy G] [Monitor σ]

/-- A sample only grows. -/
theorem acceptAll_extends (settings : SampleSettings) :
    ∀ (configs : List LiteralSet) (r : Progress S G σ),
      r.accepted.toList <+: (acceptAll settings configs r).2.accepted.toList := by
  intro configs
  induction configs with
  | nil => exact fun _ => List.prefix_rfl
  | cons config rest ih =>
    intro r
    obtain ⟨strategy, context, accepted⟩ := r
    unfold acceptAll
    dsimp only
    split
    · exact List.prefix_rfl
    rename_i cx _
    split
    · exact List.prefix_rfl
    have hpush : accepted.toList <+: (exclude settings
        (take (⟨strategy, cx, accepted⟩ : Progress S G σ) config) config).2.accepted.toList := by
      rw [(exclude_same settings _ config).2]
      show accepted.toList <+: (accepted.push config).toList
      rw [Array.toList_push]
      exact List.prefix_append _ _
    split <;> rename_i he <;> rw [he] at hpush
    · exact hpush
    · exact hpush.trans (ih _)

theorem pass_extends (settings : SampleSettings) (r : Progress S G σ) :
    r.accepted.toList <+: (pass settings r).2.accepted.toList := by
  obtain ⟨strategy, context, accepted⟩ := r
  unfold pass
  dsimp only
  split
  · exact List.prefix_rfl
  split
  · exact List.prefix_rfl
  split
  · exact List.prefix_rfl
  · exact List.prefix_rfl
  · exact List.prefix_rfl
  · exact List.prefix_rfl
  · rename_i configs strategy' cx' _
    exact acceptAll_extends settings configs ⟨strategy', cx', accepted⟩

theorem loop_extends (settings : SampleSettings) (steps : Nat) : ∀ r : Progress S G σ,
    r.accepted.toList <+: (loop settings steps r).2.accepted.toList := by
  induction steps with
  | zero => exact fun _ => List.prefix_rfl
  | succ steps ih =>
    intro r
    have hpass := pass_extends settings r
    rw [loop_succ]
    generalize pass settings r = out at hpass ⊢
    obtain ⟨result, r'⟩ := out
    cases result with
    | none => exact hpass.trans (ih r')
    | some result => exact hpass

theorem acceptAll_stepLimit (settings : SampleSettings) (steps : Nat) :
    ∀ (configs : List LiteralSet) (r : Progress S G σ),
      acceptAll { settings with stepLimit := steps } configs r = acceptAll settings configs r := by
  intro configs
  induction configs with
  | nil => exact fun _ => rfl
  | cons config rest ih =>
    intro r
    obtain ⟨strategy, context, accepted⟩ := r
    unfold acceptAll
    simp only [ih]
    rfl

/-- The number of steps that may be made matters at the end only. -/
theorem loop_stepLimit (hG : Strategy.Steady G) (settings : SampleSettings) (limit steps : Nat) :
    ∀ r : Progress S G σ,
      loop { settings with stepLimit := limit } steps r = loop settings steps r := by
  have hpass : ∀ r : Progress S G σ, pass { settings with stepLimit := limit } r = pass settings r := by
    intro r
    obtain ⟨strategy, context, accepted⟩ := r
    unfold pass
    simp only [hG.stepLimit, acceptAll_stepLimit]
  induction steps with
  | zero => exact fun _ => rfl
  | succ steps ih =>
    intro r
    rw [loop_succ, loop_succ, hpass]
    rcases pass settings r with ⟨result, r'⟩
    cases result with
    | none => exact ih r'
    | some result => rfl

/-- A run that was stopped ends with its next pass. -/
theorem pass_of_stopped {m : σ} (hm : Monitor.Orderly m) (settings : SampleSettings) {k : Nat}
    {r : Progress S G σ} (h : Monitor.Stopped m k r.context.monitor) :
    (pass settings r).1 = some (.ok .cancelled) ∧ (pass settings r).2.accepted = r.accepted ∧
      Monitor.Stopped m k (pass settings r).2.context.monitor := by
  obtain ⟨strategy, cx, accepted⟩ := r
  have hstop : cx.poll.1 = true := h.poll hm
  have hagain : Monitor.Stopped m k cx.poll.2.monitor := h.again
  unfold pass
  dsimp only
  generalize cx.poll = out at hstop hagain ⊢
  obtain ⟨stop, cx₁⟩ := out
  obtain rfl : stop = true := hstop
  exact ⟨rfl, rfl, hagain⟩

/-- What is left of a run after the pass in which it was stopped. -/
theorem ends_of_stopped {m : σ} (hm : Monitor.Orderly m) (settings : SampleSettings) {k steps : Nat}
    (hsteps : 0 < steps) {result : Option (Except SampleError Completion)} {r : Progress S G σ}
    (hresult : result = none ∨ result = some (.ok .cancelled))
    (h : Monitor.Stopped m k r.context.monitor) :
    (proceed settings steps (result, r)).1 = .ok .cancelled ∧
      (proceed settings steps (result, r)).2.accepted = r.accepted ∧
      Monitor.Stopped m k (proceed settings steps (result, r)).2.context.monitor := by
  rcases hresult with rfl | rfl
  · obtain ⟨steps, rfl⟩ : ∃ n, steps = n + 1 := ⟨steps - 1, by omega⟩
    have hpass := pass_of_stopped hm settings h
    rw [show proceed settings (steps + 1) (none, r) = loop settings (steps + 1) r from rfl, loop_succ]
    generalize pass settings r = out at hpass ⊢
    obtain ⟨result, r'⟩ := out
    obtain ⟨rfl, haccepted, hstopped⟩ := hpass
    exact ⟨rfl, haccepted, hstopped⟩
  · exact ⟨rfl, rfl, h⟩

end One

section Two

variable [LawfulSatSolver S] [ComparableSolver S] [Monitor σ] [Monitor τ] {m : τ}

/-- Two runs at the same place, of which the second was not stopped so far. -/
structure Progress.Abreast (m : τ) (r : Progress S G σ) (r' : Progress S G τ) : Prop where
  strategy : r'.strategy = r.strategy
  accepted : r'.accepted = r.accepted
  beside : r.context.Beside m r.accepted.size r'.context

/-- What a part of the loop comes to in either run. -/
inductive Paired (m : τ) : Option (Except SampleError Completion) × Progress S G σ →
    Option (Except SampleError Completion) × Progress S G τ → Prop
  | inStep {result : Option (Except SampleError Completion)} {r : Progress S G σ}
    {r' : Progress S G τ} (h : r.Abreast m r') : Paired m (result, r) (result, r')
  /-- The first run failed. -/
  | failed {e : SampleError} {r : Progress S G σ}
    {out' : Option (Except SampleError Completion) × Progress S G τ} :
    Paired m (some (.error e), r) out'
  /-- The second run was stopped. -/
  | stopped {out : Option (Except SampleError Completion) × Progress S G σ}
    {result' : Option (Except SampleError Completion)} {r' : Progress S G τ}
    (hresult : result' = none ∨ result' = some (.ok .cancelled))
    (hstop : Monitor.Stopped m r'.accepted.size r'.context.monitor)
    (hextends : r'.accepted.toList <+: out.2.accepted.toList) : Paired m out (result', r')

variable {r : Progress S G σ} {r' : Progress S G τ}

theorem Progress.Abreast.take (h : r.Abreast m r') (config : LiteralSet) :
    (take r config).Abreast m (take r' config) := by
  obtain ⟨strategy, cx, accepted⟩ := r
  obtain ⟨strategy', cx', accepted'⟩ := r'
  obtain ⟨rfl, rfl, hbeside⟩ := h
  refine ⟨rfl, rfl, ?_⟩
  show Context.Beside m (accepted'.push config).size _ _
  rw [Array.size_push]
  exact (hbeside.report _ _).accepted

variable [Strategy G]

theorem Progress.Abreast.exclude (h : r.Abreast m r') (settings : SampleSettings)
    (config : LiteralSet) :
    (exclude settings r' config).1 = (exclude settings r config).1 ∧
      (exclude settings r config).2.Abreast m (exclude settings r' config).2 := by
  obtain ⟨strategy, cx, accepted⟩ := r
  obtain ⟨strategy', cx', accepted'⟩ := r'
  obtain ⟨rfl, rfl, hbeside⟩ := h
  unfold Sampler.exclude
  split
  · exact ⟨rfl, rfl, rfl, hbeside⟩
  obtain ⟨heffect, hafter⟩ := hbeside.addClause config.negate.literals
  dsimp only
  generalize cx.addClause config.negate.literals = out at heffect hafter ⊢
  generalize cx'.addClause config.negate.literals = out' at heffect hafter ⊢
  obtain ⟨effect, cx₁⟩ := out
  obtain ⟨effect', cx₁'⟩ := out'
  obtain rfl : effect' = effect := heffect
  rcases effect' with e | effect
  · exact ⟨rfl, rfl, rfl, hafter⟩
  · cases effect with
    | consistent => exact ⟨rfl, rfl, rfl, hafter⟩
    | contradiction => exact ⟨rfl, rfl, rfl, hafter.report _ _⟩

theorem acceptAll_paired (settings : SampleSettings) :
    ∀ (configs : List LiteralSet) {r : Progress S G σ} {r' : Progress S G τ}, r.Abreast m r' →
      Paired m (acceptAll settings configs r) (acceptAll settings configs r') := by
  intro configs
  induction configs with
  | nil => exact fun h => .inStep h
  | cons config rest ih =>
    intro r r' h
    have hextends := acceptAll_extends settings (config :: rest) r
    obtain ⟨strategy, cx, accepted⟩ := r
    obtain ⟨strategy', cx', accepted'⟩ := r'
    obtain ⟨rfl, rfl, hbeside⟩ := h
    obtain ⟨hgo, hpolled⟩ := hbeside.poll
    rcases hp : cx.poll with ⟨stop, cx₁⟩
    rcases hp' : cx'.poll with ⟨stop', cx₁'⟩
    rw [hp] at hgo hpolled
    rw [hp'] at hpolled
    obtain rfl : stop = false := hgo
    rcases hpolled with ⟨hgo', h₁⟩ | ⟨hstop, hstopped⟩
    · obtain rfl : stop' = false := hgo'
      have habreast : Progress.Abreast m (⟨strategy', cx₁, accepted'⟩ : Progress S G σ)
          ⟨strategy', cx₁', accepted'⟩ := ⟨rfl, rfl, h₁⟩
      unfold acceptAll
      dsimp only
      rw [hp, hp']
      dsimp only
      rw [show isFull settings (⟨strategy', cx₁', accepted'⟩ : Progress S G τ) =
        isFull settings (⟨strategy', cx₁, accepted'⟩ : Progress S G σ) from rfl]
      split
      · exact .inStep habreast
      obtain ⟨hresult, hafter⟩ := (habreast.take config).exclude settings config
      generalize exclude settings (take (⟨strategy', cx₁, accepted'⟩ : Progress S G σ) config)
        config = out at hresult hafter ⊢
      generalize exclude settings (take (⟨strategy', cx₁', accepted'⟩ : Progress S G τ) config)
        config = out' at hresult hafter ⊢
      obtain ⟨result, r⟩ := out
      obtain ⟨result', r'⟩ := out'
      obtain rfl : result' = result := hresult
      cases result' with
      | none => exact ih hafter
      | some result => exact .inStep hafter
    · obtain rfl : stop' = true := hstop
      have hcut : acceptAll settings (config :: rest) (⟨strategy', cx', accepted'⟩ : Progress S G τ) =
          (some (.ok .cancelled), ⟨strategy', cx₁', accepted'⟩) := by
        unfold acceptAll
        dsimp only
        rw [hp']
      rw [hcut]
      exact .stopped (.inr rfl) hstopped hextends

/-- **A pass** comes to the same in both runs, unless it stops the second one. -/
theorem pass_paired (hm : Monitor.Orderly m) (hG : Strategy.Steady G) (settings : SampleSettings)
    (h : r.Abreast m r') : Paired m (pass settings r) (pass settings r') := by
  have hextends := pass_extends settings r
  obtain ⟨strategy, cx, accepted⟩ := r
  obtain ⟨strategy', cx', accepted'⟩ := r'
  obtain ⟨rfl, rfl, hbeside⟩ := h
  obtain ⟨hgo, hpolled⟩ := hbeside.poll
  rcases hp : cx.poll with ⟨stop, cx₁⟩
  rcases hp' : cx'.poll with ⟨stop', cx₁'⟩
  rw [hp] at hgo hpolled
  rw [hp'] at hpolled
  obtain rfl : stop = false := hgo
  rcases hpolled with ⟨hgo', h₁⟩ | ⟨hstop, hstopped⟩
  · obtain rfl : stop' = false := hgo'
    have hstep := hG.follows hm strategy' settings accepted' h₁
    unfold pass at hextends ⊢
    dsimp only at hextends ⊢
    rw [hp] at hextends
    rw [hp, hp']
    dsimp only at hextends ⊢
    split
    · exact .inStep ⟨rfl, rfl, h₁⟩
    rename_i hroom
    rw [if_neg hroom] at hextends
    generalize Strategy.step strategy' settings accepted' cx₁ = out at hstep hextends ⊢
    generalize Strategy.step strategy' settings accepted' cx₁' = out' at hstep ⊢
    cases hstep with
    | @inStep result g cx₂ cx₂' h₂ =>
      have habreast : Progress.Abreast m (⟨g, cx₂, accepted'⟩ : Progress S G σ)
          ⟨g, cx₂', accepted'⟩ := ⟨rfl, rfl, h₂⟩
      rcases result with e | step
      · exact .failed
      · cases step with
        | batch configs => exact acceptAll_paired settings configs habreast
        | _ => exact .inStep habreast
    | failed => exact .failed
    | stopped hstop => exact .stopped (.inl rfl) hstop hextends
  · obtain rfl : stop' = true := hstop
    have hcut : pass settings (⟨strategy', cx', accepted'⟩ : Progress S G τ) =
        (some (.ok .cancelled), ⟨strategy', cx₁', accepted'⟩) := by
      unfold pass
      dsimp only
      rw [hp']
    rw [hcut]
    exact .stopped (.inr rfl) hstopped hextends

/-- **The loop of a run that may be stopped**, next to that of a run that comes to a completion. -/
theorem loop_paired (hm : Monitor.Orderly m) (hG : Strategy.Steady G) (settings : SampleSettings)
    {completion : Completion} (steps : Nat) : ∀ {r : Progress S G σ} {r' : Progress S G τ},
      r.Abreast m r' → (loop settings steps r).1 = .ok completion → ∀ steps', steps < steps' →
      ∃ completion', (loop settings steps' r').1 = .ok completion' ∧
        (loop settings steps' r').2.accepted.toList <+:
          (loop settings steps r).2.accepted.toList ∧
        (completion' = .cancelled ∨ completion' = completion ∧
          (loop settings steps' r').2.accepted = (loop settings steps r).2.accepted) ∧
        Monitor.Heeded m (loop settings steps' r').2.accepted.size
          (loop settings steps' r').2.context.monitor := by
  induction steps with
  | zero =>
    intro r r' _ hok
    cases hok
  | succ steps ih =>
    intro r r' h hok steps' hsteps
    obtain ⟨steps', rfl⟩ : ∃ n, steps' = n + 1 := ⟨steps' - 1, by omega⟩
    have hpaired := pass_paired hm hG settings h
    rw [loop_succ] at hok
    rw [loop_succ settings steps, loop_succ settings steps']
    generalize pass settings r = out at hpaired hok ⊢
    generalize pass settings r' = out' at hpaired ⊢
    cases hpaired with
    | @inStep result r r' h =>
      cases result with
      | none => exact ih h hok steps' (by omega)
      | some result =>
        have hsame : r'.accepted = r.accepted := h.accepted
        refine ⟨completion, hok, ?_, .inr ⟨rfl, hsame⟩, .inl ?_⟩
        · show r'.accepted.toList <+: r.accepted.toList
          rw [hsame]
        · show Monitor.GoesOn m r'.accepted.size r'.context.monitor
          rw [hsame]
          exact h.beside.goesOn
    | failed => cases hok
    | @stopped out result' r' hresult hstop hextends =>
      obtain ⟨hcancelled, haccepted, hstopped⟩ := ends_of_stopped hm settings
        (show 0 < steps' by omega) hresult hstop
      refine ⟨.cancelled, hcancelled, ?_, .inl rfl, .inr ?_⟩
      · rw [haccepted]
        obtain ⟨result, r⟩ := out
        cases result with
        | none => exact hextends.trans (loop_extends settings steps r)
        | some result => exact hextends
      · rw [haccepted]
        exact hstopped

end Two

end Sampler

/-- The configurations of the sample are the first ones of the other sample, and all of them, with the
    same completion, unless the run was cancelled. -/
structure Sample.Begins (sample' sample : Sample) : Prop where
  configurations : sample'.configurations.toList <+: sample.configurations.toList
  completion : sample'.completion = .cancelled ∨ sample'.completion = sample.completion ∧
    sample'.configurations = sample.configurations

section Runs

variable {G σ τ : Type} [Strategy G] [Monitor σ] [Monitor τ] {monitor : σ} {monitor' : τ}
  {sample : Sample} {steps : Nat}

theorem sampleWith_begins (hG : Strategy.Steady G) (cnf : Cnf) (strategy : G)
    (settings : SampleSettings) (hA : Monitor.NeverCancels monitor) (hB : Monitor.Orderly monitor')
    (hsteps : settings.stepLimit < steps)
    (h : (sampleWith cnf strategy settings monitor).1 = .ok sample) : ∃ sample',
      (sampleWith cnf strategy { settings with stepLimit := steps } monitor').1 = .ok sample' ∧
        sample'.Begins sample ∧ Monitor.Heeded monitor' sample'.configurations.size
          (sampleWith cnf strategy { settings with stepLimit := steps } monitor').2.1 := by
  have hstart : Sampler.Progress.Abreast monitor'
      (⟨strategy, Context.announce ⟨Solver.ofCnf cnf {}, Random.ofSeed settings.seed, monitor, #[]⟩
        (Strategy.workEstimate strategy settings.maxSize), #[]⟩ : Sampler.Progress Solver G σ)
      ⟨strategy, Context.announce ⟨Solver.ofCnf cnf {}, Random.ofSeed settings.seed, monitor', #[]⟩
        (Strategy.workEstimate strategy settings.maxSize), #[]⟩ := by
    refine ⟨rfl, rfl, Context.Beside.announce ?_ _⟩
    exact ⟨ComparableSolver.refl _, rfl, hA, .start, Solver.unlimited_ofCnf cnf {}⟩
  unfold sampleWith Sampler.run Sampler.start at h
  dsimp only at h
  split at h
  · cases h
  rename_i completion strategy' solver rand monitor₁ journal accepted hloop
  cases h
  obtain ⟨completion', hok, hextends, hsame, hheeded⟩ := Sampler.loop_paired hB hG settings
    settings.stepLimit hstart (congrArg Prod.fst hloop) steps hsteps
  rw [hloop] at hextends hsame
  unfold sampleWith Sampler.run Sampler.start
  dsimp only
  rw [Sampler.loop_stepLimit hG]
  generalize Sampler.loop (S := Solver) (G := G) (σ := τ) settings steps _ = out
    at hok hextends hsame hheeded ⊢
  obtain ⟨result, strategy'', ⟨solver', rand', monitor₁', journal'⟩, accepted'⟩ := out
  obtain rfl : result = .ok completion' := hok
  exact ⟨_, rfl, ⟨hextends, hsame⟩, hheeded⟩

/-- An interrupted search stopped the run, after so many solves and propagations. -/
def stoppedInSearch (solves propagations : Nat) (out : Except SampleError Sample × σ × Journal) :
    Bool :=
  comesTo (fun sample => sample.completion == .cancelled && sample.stats.solves == solves &&
      sample.stats.propagations == propagations) out.1 &&
    out.2.2.any fun event => match event with
      | .solveInterrupted _ => true
      | _ => false

/-- Two working configurations that came to the same literals are still to be handed out, so that the
    second needs a model of its own. -/
def Covering.twoAlike : Covering where
  strength := 1
  policy := .firstFit
  groups := []
  maxConfigs := 2
  cursor := .start [] 1
  pending := none
  working := #[]
  coverage := {}
  phase := .emitting [⟨.ofList [1], .ofList [1]⟩, ⟨.ofList [2, 1], .ofList [1]⟩]
  truncated := false

/-- Once the first one is excluded there is no model for the second.  The alarm goes off while it is
    searched for, and the search has decided one variable by then. -/
theorem sampleWith_begins_twoAlike : ∃ sample sample',
    (sampleWith ⟨Variables.anonymous 2, #[]⟩ Covering.twoAlike {} Silent.silent).1 = .ok sample ∧
    sample.configurations = #[.ofList [1]] ∧ sample.completion = .complete ∧
    (sampleWith ⟨Variables.anonymous 2, #[]⟩ Covering.twoAlike { stepLimit := unboundedSteps + 1 }
      (⟨2⟩ : Monitor.Alarm)).1 = .ok sample' ∧
    sample'.configurations = #[.ofList [1]] ∧ sample'.Begins sample ∧
    stoppedInSearch 1 2 (sampleWith ⟨Variables.anonymous 2, #[]⟩ Covering.twoAlike
      { stepLimit := unboundedSteps + 1 } (⟨2⟩ : Monitor.Alarm)) = true := by
  obtain ⟨sample, hs, hp⟩ := exists_of_comesTo
    (fun sample => sample.configurations == #[.ofList [1]] && sample.completion == .complete)
    (sampleWith ⟨Variables.anonymous 2, #[]⟩ Covering.twoAlike {} Silent.silent).1 (by decide +kernel)
  obtain ⟨stopped, hs', hp'⟩ := exists_of_comesTo
    (fun sample => sample.configurations == #[.ofList [1]])
    (sampleWith ⟨Variables.anonymous 2, #[]⟩ Covering.twoAlike { stepLimit := unboundedSteps + 1 }
      (⟨2⟩ : Monitor.Alarm)).1 (by decide +kernel)
  obtain ⟨sample', hok, hbegins, -⟩ := sampleWith_begins Covering.steady ⟨Variables.anonymous 2, #[]⟩
    Covering.twoAlike {} (fun _ _ => rfl) (Monitor.orderly_alarm 2) (Nat.lt_succ_self _) hs
  obtain rfl := Except.ok.inj (hs'.symm.trans hok)
  simp only [Bool.and_eq_true, beq_iff_eq] at hp hp'
  exact ⟨sample, stopped, hs, hp.1, hp.2, hs', hp', hbegins, by decide +kernel⟩

theorem sampleCovering_begins (cnf : Cnf) (strength : Nat) (policy : ExtensionPolicy)
    (groups : Option (List ExpressionGroup)) (settings : SampleSettings)
    (hA : Monitor.NeverCancels monitor) (hB : Monitor.Orderly monitor')
    (hsteps : settings.stepLimit < steps)
    (h : (sampleCovering cnf strength policy groups settings monitor).1 = .ok sample) : ∃ sample',
      (sampleCovering cnf strength policy groups { settings with stepLimit := steps } monitor').1 =
          .ok sample' ∧
        sample'.Begins sample ∧ Monitor.Heeded monitor' sample'.configurations.size
          (sampleCovering cnf strength policy groups { settings with stepLimit := steps }
            monitor').2.1 := by
  unfold sampleCovering at h ⊢
  dsimp only at h ⊢
  split at h
  · cases h
  · exact sampleWith_begins Covering.steady cnf _ settings hA hB hsteps h

/-- **A run that may be stopped.**  If the run under a monitor that never cancels comes to a sample, so
    does the one under any orderly monitor, given one step more to find out that it was stopped.  Its
    configurations are the first ones of that sample; they are all of them, with the same completion,
    unless it was cancelled; and none of them was accepted after a poll stopped it. -/
theorem stopped_run_begins (cnf : Cnf) (request : Request) (settings : SampleSettings)
    (policy : ExtensionPolicy) (hA : Monitor.NeverCancels monitor) (hB : Monitor.Orderly monitor')
    {steps : Nat} (hsteps : settings.stepLimit < steps) :
    Ensures (fun sample => ∃ sample',
      (generate cnf request { settings with stepLimit := steps } policy monitor').1 = .ok sample' ∧
        sample'.Begins sample ∧ Monitor.Heeded monitor' sample'.configurations.size
          (generate cnf request { settings with stepLimit := steps } policy monitor').2.1)
      (generate cnf request settings policy monitor).1 := by
  rw [ensures_iff]
  intro sample h
  cases request with
  | random count =>
    exact sampleWith_begins RandomStrategy.steady cnf _
      { settings with maxSize := min count settings.maxSize } hA hB hsteps h
  | covering strength groups limit =>
    exact sampleCovering_begins cnf strength policy groups
      { settings with maxSize := min limit settings.maxSize } hA hB hsteps h
  | feature name =>
    unfold generate at h ⊢
    dsimp only at h ⊢
    split at h
    · cases h
    · exact sampleCovering_begins cnf 1 policy _ settings hA hB hsteps h

/-- Three random configurations, or all literals covered.  The alarm goes off while a search is at work:
    in the second search of the one run and in the fourth of the other, each time after a decision. -/
theorem stopped_run_begins_firstSelected : Monitor.NeverCancels Silent.silent ∧
    Monitor.Orderly (⟨4⟩ : Monitor.Alarm) ∧ Monitor.Orderly (⟨7⟩ : Monitor.Alarm) ∧
    unboundedSteps < unboundedSteps + 1 ∧
    stoppedInSearch 2 3 (generate Cnf.firstSelected (.random 3)
      { allowDuplicates := true, stepLimit := unboundedSteps + 1 } .firstFit
      (⟨4⟩ : Monitor.Alarm)) = true ∧
    stoppedInSearch 4 4 (generate Cnf.firstSelected (.covering 1 none 5)
      { allowDuplicates := true, stepLimit := unboundedSteps + 1 } .firstFit
      (⟨7⟩ : Monitor.Alarm)) = true ∧
    (∃ sample sample', (generate Cnf.firstSelected (.random 3) { allowDuplicates := true } .firstFit
        Silent.silent).1 = .ok sample ∧ sample.configurations.size = 3 ∧
      (generate Cnf.firstSelected (.random 3)
        { allowDuplicates := true, stepLimit := unboundedSteps + 1 } .firstFit
        (⟨4⟩ : Monitor.Alarm)).1 = .ok sample' ∧ sample'.configurations.size = 1 ∧
      sample'.Begins sample) ∧
    ∃ sample sample', (generate Cnf.firstSelected (.covering 1 none 5) { allowDuplicates := true }
        .firstFit Silent.silent).1 = .ok sample ∧ sample.configurations.size = 2 ∧
      (generate Cnf.firstSelected (.covering 1 none 5)
        { allowDuplicates := true, stepLimit := unboundedSteps + 1 } .firstFit
        (⟨7⟩ : Monitor.Alarm)).1 = .ok sample' ∧ sample'.configurations.size = 0 ∧
      sample'.Begins sample := by
  have hA : Monitor.NeverCancels Silent.silent := fun _ _ => rfl
  have hB := Monitor.orderly_alarm 4
  have hB' := Monitor.orderly_alarm 7
  have hsteps : unboundedSteps < unboundedSteps + 1 := Nat.lt_succ_self _
  refine ⟨hA, hB, hB', hsteps, by decide +kernel, by decide +kernel, ?_, ?_⟩
  · obtain ⟨sample, hs, hsize⟩ := exists_of_comesTo (fun sample => sample.configurations.size == 3)
      (generate Cnf.firstSelected (.random 3) { allowDuplicates := true } .firstFit
        Silent.silent).1 (by decide +kernel)
    obtain ⟨stopped, hs', hsize'⟩ := exists_of_comesTo (fun sample => sample.configurations.size == 1)
      (generate Cnf.firstSelected (.random 3)
        { allowDuplicates := true, stepLimit := unboundedSteps + 1 } .firstFit
        (⟨4⟩ : Monitor.Alarm)).1 (by decide +kernel)
    obtain ⟨sample', hok, hbegins, -⟩ := ensures_iff.1 (stopped_run_begins Cnf.firstSelected
      (.random 3) { allowDuplicates := true } .firstFit hA hB hsteps) sample hs
    obtain rfl := Except.ok.inj (hs'.symm.trans hok)
    exact ⟨sample, stopped, hs, eq_of_beq hsize, hs', eq_of_beq hsize', hbegins⟩
  · obtain ⟨sample, hs, hsize⟩ := exists_of_comesTo (fun sample => sample.configurations.size == 2)
      (generate Cnf.firstSelected (.covering 1 none 5) { allowDuplicates := true } .firstFit
        Silent.silent).1 (by decide +kernel)
    obtain ⟨stopped, hs', hsize'⟩ := exists_of_comesTo (fun sample => sample.configurations.size == 0)
      (generate Cnf.firstSelected (.covering 1 none 5)
        { allowDuplicates := true, stepLimit := unboundedSteps + 1 } .firstFit
        (⟨7⟩ : Monitor.Alarm)).1 (by decide +kernel)
    obtain ⟨sample', hok, hbegins, -⟩ := ensures_iff.1 (stopped_run_begins Cnf.firstSelected
      (.covering 1 none 5) { allowDuplicates := true } .firstFit hA hB' hsteps) sample hs
    obtain rfl := Except.ok.inj (hs'.symm.trans hok)
    exact ⟨sample, stopped, hs, eq_of_beq hsize, hs', eq_of_beq hsize', hbegins⟩

end Runs

end ConfigSampler
