import ConfigSampler.Proofs.Samples

/-!
# Outcomes of runs

A property that every step of a strategy keeps, with the configurations that it yields, holds of the
state and the sample at the end of a run, however the run ended (`Sampler.run_outcome`).  Only if the
run was cancelled, the last configuration that was yielded may be missing in the sample.
-/

set_option autoImplicit false

namespace ConfigSampler

namespace Sampler

variable {S G σ : Type} [Strategy G]

/-- The state and the sample after a step have a property, with the configuration that it yields, and
    another one if the strategy is done. -/
def Yields (I D : G → Array LiteralSet → Prop) (accepted : Array LiteralSet) :
    Except SampleError Step × G × Context S σ → Prop
  | (.error _, _, _) => True
  | (.ok (.batch configs), g, _) => ∀ config, configs = [config] → I g (accepted.push config)
  | (.ok .done, g, _) => D g accepted
  | (.ok _, g, _) => I g accepted

/-- How a run ended, with a property of the state and the sample at its end. -/
inductive Outcome (I D : G → Array LiteralSet → Prop) (settings : SampleSettings) (n : Nat)
    (F : Assignment → Prop) (g : G) (accepted : Array LiteralSet) :
    Except SampleError Completion → Prop
  | failed {e : SampleError} : Outcome I D settings n F g accepted (.error e)
  | cancelled (hI : I g accepted) : Outcome I D settings n F g accepted (.ok .cancelled)
  /-- The last configuration was yielded but not accepted. -/
  | withheld {config : LiteralSet} (hfull : config.IsFull n) (hF : F config.assignment)
    (hroom : accepted.size < settings.maxSize) (hI : I g (accepted.push config)) :
    Outcome I D settings n F g accepted (.ok .cancelled)
  | exhausted (hI : I g accepted) (hnone : ∀ α, ¬ settings.Left n F accepted α)
    (hroom : accepted.size < settings.maxSize) :
    Outcome I D settings n F g accepted (.ok .exhausted)
  | full (hI : I g accepted) (hsize : accepted.size = settings.maxSize) :
    Outcome I D settings n F g accepted (.ok (Strategy.finished g))
  | done (hD : D g accepted) : Outcome I D settings n F g accepted (.ok (Strategy.finished g))

/-- The ways in which a run comes to a sample. -/
theorem Outcome.cases_ok {I D : G → Array LiteralSet → Prop} {settings : SampleSettings} {n : Nat}
    {F : Assignment → Prop} {g : G} {accepted : Array LiteralSet} {completion : Completion}
    (h : Outcome I D settings n F g accepted (.ok completion)) :
    (completion = .cancelled ∧ (I g accepted ∨ ∃ config, config.IsFull n ∧ F config.assignment ∧
      accepted.size < settings.maxSize ∧ I g (accepted.push config))) ∨
    (completion = .exhausted ∧ I g accepted ∧ (∀ α, ¬ settings.Left n F accepted α) ∧
      accepted.size < settings.maxSize) ∨
    (completion = Strategy.finished g ∧
      (I g accepted ∧ accepted.size = settings.maxSize ∨ D g accepted)) := by
  generalize hr : Except.ok completion = result at h
  cases h with
  | failed => cases hr
  | cancelled hI =>
    cases hr
    exact .inl ⟨rfl, .inl hI⟩
  | withheld hfull hF hroom hI =>
    cases hr
    exact .inl ⟨rfl, .inr ⟨_, hfull, hF, hroom, hI⟩⟩
  | exhausted hI hnone hroom =>
    cases hr
    exact .inr (.inl ⟨rfl, hI, hnone, hroom⟩)
  | full hI hsize =>
    cases hr
    exact .inr (.inr ⟨rfl, .inl ⟨hI, hsize⟩⟩)
  | done hD =>
    cases hr
    exact .inr (.inr ⟨rfl, .inr hD⟩)

variable [SatSolver S] [LawfulSatSolver S] [Monitor σ] {C : Contract G} {calm : Prop}
  {settings : SampleSettings} {n : Nat} {F : Assignment → Prop}

/-- What a pass comes to. -/
theorem pass_outcome (hkept : C.Kept settings n F) {I I' D : G → Array LiteralSet → Prop}
    (hmono : ∀ g accepted, I g accepted → I' g accepted) {r : Progress S G σ}
    (hstep : ∀ cx : Context S σ, cx.Serves calm n (settings.Left n F r.accepted) →
      Yields I' D r.accepted (Strategy.step r.strategy settings r.accepted cx))
    (hr : Goes C calm settings n F r) (hI : I r.strategy r.accepted) :
    Turns (fun r' => I' r'.strategy r'.accepted)
      (fun result r' => Outcome I' D settings n F r'.strategy r'.accepted result)
      (pass settings r) := by
  obtain ⟨strategy, context, accepted⟩ := r
  unfold pass
  dsimp only at hstep hI ⊢
  have hpolled := hr.serves.poll
  split
  · exact .cancelled (hmono _ _ hI)
  rename_i cx hpoll
  rw [hpoll] at hpolled
  split
  · rename_i hmax
    exact .full (hmono _ _ hI) (Nat.le_antisymm hr.holds.fits hmax)
  rename_i hmax
  have hroom : accepted.size < settings.maxSize := Nat.lt_of_not_le hmax
  have hyields := hstep cx hpolled
  have hpromises := hkept calm strategy accepted cx hpolled hr.holds hr.inv hroom
  split <;> rename_i he <;> rw [he] at hyields hpromises
  · exact .failed
  · exact hyields
  · exact .done hyields
  · exact .exhausted hyields hpromises hroom
  · rename_i strategy' cx'
    obtain ⟨config, rfl, hfull, hleft, hserves, -⟩ := hpromises
    have hI' : I' strategy' (accepted.push config) := hyields config rfl
    have hfit : isFull settings (⟨strategy', cx', accepted⟩ : Progress S G σ) = false := by
      simpa [isFull] using hroom
    obtain ⟨hstrategy, haccepted⟩ := acceptAll_same hfit config
    -- accepting keeps any invariant, so also that of a strategy that is never done
    have hproceeds := acceptAll_spec (C := ⟨I', fun _ _ => False⟩) (r := ⟨strategy', cx', accepted⟩)
      hserves hr.holds hroom hI' hfull hleft
    generalize acceptAll settings [config] ⟨strategy', cx', accepted⟩ = out at *
    obtain ⟨result, r'⟩ := out
    dsimp only at hstrategy haccepted
    cases result with
    | none => exact hproceeds.inv
    | some result =>
      rcases haccepted with ⟨hcancelled, haccepted⟩ | haccepted
      · obtain rfl := Option.some.inj hcancelled
        show Outcome I' D settings n F r'.strategy r'.accepted _
        rw [hstrategy, haccepted]
        exact .withheld hfull hleft.1 hroom hI'
      · have hends : Contract.Ends ⟨I', fun _ _ => False⟩ calm settings n F r'.strategy r'.accepted
          result := hproceeds
        have hafter : I' r'.strategy r'.accepted := by rwa [hstrategy, haccepted]
        show Outcome I' D settings n F r'.strategy r'.accepted result
        cases hends with
        | failed => exact .failed
        | cancelled => exact .cancelled hafter
        | exhausted _ hnone hroom => exact .exhausted hafter hnone hroom
        | full _ _ hsize => exact .full hafter hsize
        | done _ hgoal => exact hgoal.elim

/-- **What every step keeps** holds at the end of the loop.  It may depend on the number of steps that
    are left. -/
theorem loop_outcome (hkept : C.Kept settings n F) {I : Nat → G → Array LiteralSet → Prop}
    {D : G → Array LiteralSet → Prop}
    (hmono : ∀ left g accepted, I (left + 1) g accepted → I left g accepted)
    (hstep : ∀ left g accepted (cx : Context S σ), cx.Serves calm n (settings.Left n F accepted) →
      I (left + 1) g accepted → Yields (I left) D accepted (Strategy.step g settings accepted cx))
    (steps : Nat) (r : Progress S G σ) (hr : Goes C calm settings n F r)
    (hI : I steps r.strategy r.accepted) : ∃ left,
      Outcome (I left) D settings n F (loop settings steps r).2.strategy
        (loop settings steps r).2.accepted (loop settings steps r).1 := by
  refine loop_rule
    (I := fun left (r : Progress S G σ) => Goes C calm settings n F r ∧ I left r.strategy r.accepted)
    (E := fun result (r : Progress S G σ) =>
      ∃ left, Outcome (I left) D settings n F r.strategy r.accepted result)
    (fun r _ => ⟨0, .failed⟩) (fun left r h => ?_) steps r ⟨hr, hI⟩
  have hgoes := pass_spec hkept h.1
  have houtcome := pass_outcome hkept (hmono left) (fun cx hcx => hstep left _ _ cx hcx h.2) h.1 h.2
  generalize pass settings r = out at hgoes houtcome ⊢
  obtain ⟨result, r'⟩ := out
  cases result with
  | none => exact ⟨hgoes, houtcome⟩
  | some result => exact ⟨left, houtcome⟩

/-- **What every step keeps** holds at the end of a run that came to a sample. -/
theorem run_outcome {solver : S} {strategy : G} {monitor : σ} {sample : Sample}
    (hkept : C.Kept settings n F) (hstands : LawfulSatSolver.Stands solver n F)
    (hfree : LawfulSatSolver.Unlimited solver) (hinv : C.Inv strategy #[])
    {I : Nat → G → Array LiteralSet → Prop} {D : G → Array LiteralSet → Prop}
    (hmono : ∀ left g accepted, I (left + 1) g accepted → I left g accepted)
    (hstep : ∀ left g accepted (cx : Context S σ),
      cx.Serves (Monitor.NeverStops monitor) n (settings.Left n F accepted) →
      I (left + 1) g accepted → Yields (I left) D accepted (Strategy.step g settings accepted cx))
    (hI : I settings.stepLimit strategy #[])
    (h : ((Sampler.start solver strategy settings).run monitor).1 = .ok sample) :
    ∃ g left, sample.coverage = Strategy.coverage g ∧
      Outcome (I left) D settings n F g sample.configurations (.ok sample.completion) := by
  have hserves : Context.Serves ⟨solver, Random.ofSeed settings.seed, monitor, #[]⟩
      (Monitor.NeverStops monitor) n F := ⟨hstands, fun _ => hfree, id⟩
  have hloop := loop_outcome hkept hmono hstep settings.stepLimit
    ⟨strategy, Context.announce ⟨solver, Random.ofSeed settings.seed, monitor, #[]⟩
      (Strategy.workEstimate strategy settings.maxSize), #[]⟩
    ⟨(hserves.announce _).change fun α => SampleSettings.left_empty,
      SampleSettings.holds_empty, hinv⟩ hI
  unfold run start at h
  dsimp only at h
  split at h <;> rename_i he <;> rw [he] at hloop
  · cases h
  · cases h
    obtain ⟨left, houtcome⟩ := hloop
    exact ⟨_, left, rfl, houtcome⟩

end Sampler

end ConfigSampler
