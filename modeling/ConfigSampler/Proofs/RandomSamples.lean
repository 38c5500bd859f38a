import ConfigSampler.Proofs.Samples

/-!
# Random samples

A random run has found as many configurations as it has accepted, so it ends when the sample is full
or when the solver has no further model.  Without duplicates it finds all solutions that there is
room for (`random_sample_counts`).
-/

set_option autoImplicit false

namespace ConfigSampler

namespace RandomStrategy

variable {S σ : Type} [SatSolver S] [LawfulSatSolver S] [Monitor σ]

theorem serves_prepare {cx : Context S σ} {calm : Prop} {n : Nat} {F : Assignment → Prop}
    (h : cx.Serves calm n F) : (prepare cx).Serves calm n F := (h.setPolarity .random).shuffle

/-- Every configuration found is accepted.  The strategy is never done before the sample is full. -/
def contract (count : Nat) : Contract RandomStrategy where
  Inv g accepted := g.count = count ∧ g.found = accepted.size
  Goal _ _ := False

/-- **Each step of a random run** looks for one more model, if one is still wanted. -/
theorem contract_kept {count n : Nat} {F : Assignment → Prop} {settings : SampleSettings}
    (hle : settings.maxSize ≤ count) : (contract count).Kept settings n F := by
  intro S σ _ _ _ calm g accepted cx hserves _ hinv hroom
  obtain ⟨hcount, hfound⟩ := hinv
  show (contract count).Promises calm settings n F accepted (step g cx)
  have hwanted : ¬ g.count ≤ g.found := by omega
  unfold step
  rw [if_neg hwanted]
  obtain ⟨hserves', hsolves⟩ := (serves_prepare hserves).solve []
  generalize (prepare cx).solve [] = out at hserves' hsolves ⊢
  obtain ⟨result, cx'⟩ := out
  cases result with
  | error e =>
    intro hcalm
    rcases hsolves hcalm with he | he
    · exact he
    · cases he
  | ok solved =>
    cases solved with
    | model config =>
      obtain ⟨hfull, hleft, -⟩ := hsolves
      refine ⟨config, rfl, hfull, hleft, hserves', hcount, ?_⟩
      rw [Array.size_push, ← hfound]
    | noModel =>
      intro α hα
      obtain ⟨x, hx, -⟩ := hsolves α hα
      cases hx
    | cancelled => exact ⟨hserves', hcount, hfound⟩

end RandomStrategy

variable {σ : Type} [Monitor σ]

theorem random_concludes {cnf : Cnf} (hcnf : cnf.WellFormed) (count : Nat)
    (settings : SampleSettings) (policy : ExtensionPolicy) (monitor : σ) :
    Sampler.Concludes (RandomStrategy.contract count) (Monitor.NeverStops monitor)
      { settings with maxSize := min count settings.maxSize } cnf.size cnf.Models
      (generate cnf (.random count) settings policy monitor).1 :=
  sampleWith_spec hcnf (RandomStrategy.contract_kept (Nat.min_le_left _ _)) ⟨rfl, rfl⟩ monitor

/-- How many configurations a random sample has when so many were wanted, and how its run ended. -/
structure Sample.Counts (sample : Sample) (cnf : Cnf) (allowDuplicates : Bool) (wanted : Nat) :
    Prop where
  distinct : allowDuplicates = false →
    sample.configurations.size = min wanted cnf.solutions.card ∧
    sample.completion = if sample.configurations.size = wanted then .complete else .exhausted
  repeated : allowDuplicates = true → 0 < cnf.solutions.card →
    sample.configurations.size = wanted ∧ sample.completion = .complete
  unsatisfiable : allowDuplicates = true → 0 < wanted → cnf.solutions.card = 0 →
    sample.configurations.size = 0 ∧ sample.completion = .exhausted

section Counts

variable {cnf : Cnf} {settings : SampleSettings} {sample : Sample}

theorem Sample.counts_of_none_left (hcnf : cnf.WellFormed)
    (hholds : settings.Holds cnf.size cnf.Models sample.configurations)
    (hnone : ∀ α, ¬ settings.Left cnf.size cnf.Models sample.configurations α)
    (hroom : sample.configurations.size < settings.maxSize)
    (hcompletion : sample.completion = .exhausted) :
    sample.Counts cnf settings.allowDuplicates settings.maxSize where
  distinct := by
    intro hd
    have hsize := hholds.size_eq_card hcnf hd hnone
    rw [if_neg (by omega)]
    exact ⟨by omega, hcompletion⟩
  repeated := by
    intro hd hpos
    have := (hholds.none_of_none_left hcnf hd hnone).1
    omega
  unsatisfiable := by
    intro hd _ _
    exact ⟨(hholds.none_of_none_left hcnf hd hnone).2, hcompletion⟩

theorem Sample.counts_of_full (hcnf : cnf.WellFormed)
    (hholds : settings.Holds cnf.size cnf.Models sample.configurations)
    (hsize : sample.configurations.size = settings.maxSize)
    (hcompletion : sample.completion = .complete) :
    sample.Counts cnf settings.allowDuplicates settings.maxSize where
  distinct := by
    intro hd
    have hle := hholds.size_le_card hcnf hd
    rw [if_pos hsize]
    exact ⟨by omega, hcompletion⟩
  repeated := fun _ _ => ⟨hsize, hcompletion⟩
  unsatisfiable := by
    intro _ hpos hzero
    -- a configuration in the sample would be a solution
    have hno : ∀ config, config ∉ sample.configurations := by
      intro config hmem
      have := Finset.card_pos.2 ⟨config, hholds.mem_solutions hcnf hmem⟩
      omega
    have hempty : sample.configurations.size = 0 := by
      rw [Array.eq_empty_iff_forall_not_mem.2 hno]
      rfl
    omega

end Counts

/-- **A random sample is as large as it can be**, unless the monitor stopped the run.  A monitor that
    never stops a run gets a sample, if the search does not give up. -/
theorem random_sample_counts {cnf : Cnf} (hcnf : cnf.WellFormed) (count : Nat)
    (settings : SampleSettings) (policy : ExtensionPolicy) (monitor : σ) :
    (∀ sample, (generate cnf (.random count) settings policy monitor).1 = .ok sample →
      sample.completion ≠ .cancelled →
      sample.Counts cnf settings.allowDuplicates (min count settings.maxSize)) ∧
    (Monitor.NeverStops monitor →
      (∀ e, (generate cnf (.random count) settings policy monitor).1 = .error e →
        e = .stepLimitReached) ∧
      ∀ sample, (generate cnf (.random count) settings policy monitor).1 = .ok sample →
        sample.completion ≠ .cancelled) := by
  have hconcludes := random_concludes hcnf count settings policy monitor
  generalize (generate cnf (.random count) settings policy monitor).1 = result at hconcludes ⊢
  refine ⟨?_, fun hcalm => ⟨?_, ?_⟩⟩
  · rintro sample rfl hnot
    obtain ⟨g, -, hends⟩ := hconcludes
    obtain ⟨hholds, ⟨hc, -⟩ | ⟨hc, hnone, hroom⟩ | ⟨hc, -, hsize⟩ | ⟨-, hgoal⟩⟩ := hends.cases_ok
    · exact absurd hc hnot
    · exact Sample.counts_of_none_left hcnf hholds hnone hroom hc
    · exact Sample.counts_of_full hcnf hholds hsize hc
    · exact hgoal.elim
  · rintro e rfl
    exact hconcludes hcalm
  · rintro sample rfl hstopped
    obtain ⟨g, -, hends⟩ := hconcludes
    obtain ⟨-, ⟨-, hnot⟩ | ⟨hc, -⟩ | ⟨hc, -⟩ | ⟨-, hgoal⟩⟩ := hends.cases_ok
    · exact hnot hcalm
    · rw [hstopped] at hc
      cases hc
    · rw [hstopped] at hc
      cases hc
    · exact hgoal.elim

/-- Two variables and a clause that nothing satisfies. -/
def Cnf.never : Cnf := ⟨Variables.anonymous 2, #[⟨.unordered, #[]⟩]⟩

/-- The solver for a formula with an empty clause is contradicted from the start. -/
theorem Solver.consistent_ofCnf_never : (ofCnf Cnf.never {}).consistent = false := by
  show (Solver.insert ⟨true, Search.newVars 2 (Search.empty {}), {}⟩ []).consistent = false
  simp [Solver.insert, Search.addClause, Search.sortLits, Search.holdsAlready, List.eraseReps,
    List.eraseRepsBy]

/-- A random run finds that this formula has no solution. -/
theorem generate_random_never : ∃ sample,
    (generate Cnf.never (.random 5) {} .firstFit Silent.silent).1 = .ok sample ∧
      sample.completion = .exhausted := by
  have hcontradicted := Solver.consistent_ofCnf_never
  simp only [generate, sampleWith]
  generalize Solver.ofCnf Cnf.never {} = s at hcontradicted ⊢
  obtain ⟨consistent, search, budget⟩ := s
  cases hcontradicted
  exact ⟨_, rfl, rfl⟩

/-- More random configurations are wanted than there are solutions: three, or none, where the run is
    known to end. -/
theorem random_sample_counts_fewer_solutions :
    (Cnf.eitherOf.WellFormed ∧ Monitor.NeverStops Silent.silent ∧
      ∀ sample, (generate Cnf.eitherOf (.random 5) {} .firstFit Silent.silent).1 = .ok sample →
        sample.Counts Cnf.eitherOf false 5) ∧
    Cnf.never.WellFormed ∧ ∃ sample,
      (generate Cnf.never (.random 5) {} .firstFit Silent.silent).1 = .ok sample ∧
        sample.completion = .exhausted ∧ sample.Counts Cnf.never false 5 := by
  refine ⟨?_, ?_⟩
  · have hcnf : Cnf.eitherOf.WellFormed := by decide
    obtain ⟨hcounts, hcalm⟩ := random_sample_counts hcnf 5 {} .firstFit Silent.silent
    refine ⟨hcnf, Monitor.neverStops_silent, fun sample hs => ?_⟩
    exact hcounts sample hs ((hcalm Monitor.neverStops_silent).2 sample hs)
  · have hcnf : Cnf.never.WellFormed := by decide
    obtain ⟨sample, hs, hcompletion⟩ := generate_random_never
    refine ⟨hcnf, sample, hs, hcompletion, ?_⟩
    apply (random_sample_counts hcnf 5 {} .firstFit Silent.silent).1 sample hs
    rw [hcompletion]
    simp

end ConfigSampler
