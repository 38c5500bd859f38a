import ConfigSampler.Proofs.Requests

/-!
# Exhausted runs

A run is exhausted when no assignment is left for it: the last solution was excluded, a search found
none, or the clauses were contradictory before.  No strategy claims so by itself, so whichever way it
came about, the sample of an exhausted run is the set of all solutions
(`exhausted_sample_is_all_solutions`), even if working configurations still wait to be handed out.
-/

set_option autoImplicit false

namespace ConfigSampler

/-- A sample that leaves nothing has exactly the solutions. -/
theorem SampleSettings.Holds.mem_iff_of_none_left {settings : SampleSettings} {cnf : Cnf}
    {accepted : Array LiteralSet} {config : LiteralSet}
    (h : settings.Holds cnf.size cnf.Models accepted) (hcnf : cnf.WellFormed)
    (hnone : ∀ α, ¬ settings.Left cnf.size cnf.Models accepted α) :
    config ∈ accepted ↔ config ∈ cnf.solutions :=
  ⟨h.mem_solutions hcnf, mem_of_none_left hcnf hnone⟩

/-- A covering run that is done is complete or truncated. -/
theorem Covering.finished_ne_exhausted (g : Covering) : Strategy.finished g ≠ .exhausted := by
  show g.finished ≠ .exhausted
  unfold finished
  split
  · exact fun h => nomatch h
  · exact fun h => nomatch h

/-- A random run that is done is complete. -/
theorem RandomStrategy.finished_ne_exhausted (g : RandomStrategy) :
    Strategy.finished g ≠ .exhausted := fun h => nomatch h

section Exhausted

variable {cnf : Cnf} {sample : Sample}

/-- If its strategy never says so by itself, a run is exhausted only when nothing is left. -/
theorem mem_iff_of_concludes {G : Type} [Strategy G] {C : Contract G} {calm : Prop}
    {settings : SampleSettings} (hcnf : cnf.WellFormed)
    (hfinished : ∀ g : G, Strategy.finished g ≠ .exhausted)
    (h : Sampler.Concludes C calm settings cnf.size cnf.Models (.ok sample))
    (hexhausted : sample.completion = .exhausted) (config : LiteralSet) :
    config ∈ sample.configurations ↔ config ∈ cnf.solutions := by
  obtain ⟨g, -, hends⟩ := h
  obtain ⟨hholds, ⟨hc, -⟩ | ⟨-, hnone, -⟩ | ⟨hc, -⟩ | ⟨hc, -⟩⟩ := hends.cases_ok
  · rw [hexhausted] at hc
    cases hc
  · exact hholds.mem_iff_of_none_left hcnf hnone
  · exact absurd (hc.symm.trans hexhausted) (hfinished g)
  · exact absurd (hc.symm.trans hexhausted) (hfinished g)

variable {σ : Type} [Monitor σ]

/-- **The sample of an exhausted run is the set of all solutions**, whatever was requested. -/
theorem exhausted_sample_is_all_solutions (hcnf : cnf.WellFormed) (request : Request)
    (settings : SampleSettings) (policy : ExtensionPolicy) (monitor : σ) :
    Ensures (fun sample => sample.completion = .exhausted →
      ∀ config, config ∈ sample.configurations ↔ config ∈ cnf.solutions)
      (generate cnf request settings policy monitor).1 := by
  rw [ensures_iff]
  intro sample h hexhausted
  unfold generate at h
  split at h
  · rename_i count
    have hconcludes := random_concludes hcnf count settings policy monitor
    rw [show (generate cnf (.random count) settings policy monitor).1 = .ok sample from h]
      at hconcludes
    exact mem_iff_of_concludes hcnf RandomStrategy.finished_ne_exhausted hconcludes hexhausted
  · obtain ⟨-, hconcludes⟩ := covering_concludes hcnf h
    exact mem_iff_of_concludes hcnf Covering.finished_ne_exhausted hconcludes hexhausted
  · split at h
    · cases h
    · obtain ⟨-, hconcludes⟩ := covering_concludes hcnf h
      exact mem_iff_of_concludes hcnf Covering.finished_ne_exhausted hconcludes hexhausted

/-- Covering runs are exhausted after the only solution was excluded, and where there is none. -/
theorem exhausted_sample_is_all_solutions_selected :
    (Cnf.selected.WellFormed ∧ ∃ sample,
      (generate Cnf.selected (.covering 1 none 10) {} .lastFit Silent.silent).1 = .ok sample ∧
        sample.completion = .exhausted ∧ sample.configurations.size = 1 ∧
        ∀ config, config ∈ sample.configurations ↔ config ∈ Cnf.selected.solutions) ∧
    Cnf.never.WellFormed ∧ ∃ sample,
      (generate Cnf.never (.feature "2") {} .shuffled Silent.silent).1 = .ok sample ∧
        sample.completion = .exhausted ∧
        ∀ config, config ∈ sample.configurations ↔ config ∈ Cnf.never.solutions := by
  refine ⟨?_, ?_⟩
  · have hcnf : Cnf.selected.WellFormed := by decide
    obtain ⟨sample, hs, hp⟩ := exists_of_comesTo
      (fun sample => sample.completion == .exhausted && sample.configurations.size == 1)
      (generate Cnf.selected (.covering 1 none 10) {} .lastFit Silent.silent).1 (by decide +kernel)
    obtain ⟨hc, hsize⟩ := Bool.and_eq_true_iff.1 hp
    exact ⟨hcnf, sample, hs, eq_of_beq hc, eq_of_beq hsize, ensures_iff.1
      (exhausted_sample_is_all_solutions hcnf (.covering 1 none 10) {} .lastFit Silent.silent)
      sample hs (eq_of_beq hc)⟩
  · have hcnf : Cnf.never.WellFormed := by decide
    obtain ⟨sample, hs, hc⟩ := exists_of_comesTo (fun sample => sample.completion == .exhausted)
      (generate Cnf.never (.feature "2") {} .shuffled Silent.silent).1 (by decide +kernel)
    exact ⟨hcnf, sample, hs, eq_of_beq hc, ensures_iff.1
      (exhausted_sample_is_all_solutions hcnf (.feature "2") {} .shuffled Silent.silent)
      sample hs (eq_of_beq hc)⟩

end Exhausted

end ConfigSampler
