import ConfigSampler.Proofs.SampleLoop
import ConfigSampler.Proofs.Solutions
import ConfigSampler.Sampling.Request

/-!
# Samples of a formula

A run on a formula collects solutions of it.  If none is left, all solutions are in the sample
(`SampleSettings.Holds.mem_of_none_left`), and without duplicates the sample has as many
configurations as there are solutions.
-/

set_option autoImplicit false

namespace ConfigSampler

open LiteralSet

namespace SampleSettings.Holds

variable {settings : SampleSettings} {cnf : Cnf} {accepted : Array LiteralSet} {config : LiteralSet}

theorem mem_solutions (h : settings.Holds cnf.size cnf.Models accepted) (hcnf : cnf.WellFormed)
    (hc : config ∈ accepted) : config ∈ cnf.solutions :=
  hcnf.mem_solutions_iff.2 (h.valid config hc)

/-- If no assignment is left, every solution is in the sample. -/
theorem mem_of_none_left (hcnf : cnf.WellFormed)
    (hnone : ∀ α, ¬ settings.Left cnf.size cnf.Models accepted α) (hc : config ∈ cnf.solutions) :
    config ∈ accepted := by
  obtain ⟨hfull, hmodels⟩ := hcnf.mem_solutions_iff.1 hc
  by_contra hnew
  apply hnone config.assignment
  refine ⟨hmodels, fun _ => ?_⟩
  rw [← hfull.eq_ofAssignment]
  exact hnew

theorem size_le_card (h : settings.Holds cnf.size cnf.Models accepted) (hcnf : cnf.WellFormed)
    (hd : settings.allowDuplicates = false) : accepted.size ≤ cnf.solutions.card := by
  have hsub : accepted.toList.toFinset ⊆ cnf.solutions := by
    intro config hc
    exact h.mem_solutions hcnf (by simpa using hc)
  calc accepted.size = accepted.toList.toFinset.card :=
        (List.toFinset_card_of_nodup (h.distinct hd)).symm
    _ ≤ cnf.solutions.card := Finset.card_le_card hsub

/-- A sample that leaves nothing has as many configurations as there are solutions. -/
theorem size_eq_card (h : settings.Holds cnf.size cnf.Models accepted) (hcnf : cnf.WellFormed)
    (hd : settings.allowDuplicates = false)
    (hnone : ∀ α, ¬ settings.Left cnf.size cnf.Models accepted α) :
    accepted.size = cnf.solutions.card := by
  apply Nat.le_antisymm (h.size_le_card hcnf hd)
  have hsub : cnf.solutions ⊆ accepted.toList.toFinset := by
    intro config hc
    simpa using mem_of_none_left hcnf hnone hc
  calc cnf.solutions.card ≤ accepted.toList.toFinset.card := Finset.card_le_card hsub
    _ ≤ accepted.size := accepted.toList.toFinset_card_le

/-- With duplicates allowed, nothing is left only if there is no solution at all. -/
theorem none_of_none_left (h : settings.Holds cnf.size cnf.Models accepted)
    (hcnf : cnf.WellFormed) (hd : settings.allowDuplicates = true)
    (hnone : ∀ α, ¬ settings.Left cnf.size cnf.Models accepted α) :
    cnf.solutions.card = 0 ∧ accepted.size = 0 := by
  have hno : ∀ config, config ∉ cnf.solutions := by
    intro config hc
    obtain ⟨-, hmodels⟩ := hcnf.mem_solutions_iff.1 hc
    exact hnone config.assignment ((SampleSettings.left_iff hd).2 hmodels)
  refine ⟨Finset.card_eq_zero.2 (Finset.eq_empty_of_forall_notMem hno), ?_⟩
  rw [Array.size_eq_zero_iff, Array.eq_empty_iff_forall_not_mem]
  exact fun config hc => hno config (h.mem_solutions hcnf hc)

end SampleSettings.Holds

/-- The sample has the property, if the run came to one. -/
def Ensures (P : Sample → Prop) : Except SampleError Sample → Prop
  | .error _ => True
  | .ok sample => P sample

theorem ensures_iff {P : Sample → Prop} {result : Except SampleError Sample} :
    Ensures P result ↔ ∀ sample, result = .ok sample → P sample := by
  cases result with
  | error e => simp [Ensures]
  | ok sample => simp [Ensures]

/-- The run came to a sample with a property. -/
def comesTo (p : Sample → Bool) : Except SampleError Sample → Bool
  | .ok sample => p sample
  | .error _ => false

theorem exists_of_comesTo (p : Sample → Bool) (result : Except SampleError Sample)
    (h : comesTo p result = true) : ∃ sample, result = .ok sample ∧ p sample = true := by
  cases result with
  | error e => cases h
  | ok sample => exact ⟨sample, rfl, h⟩

variable {G σ : Type} [Strategy G] [Monitor σ]

/-- A run with a new solver of the formula keeps the contract of its strategy. -/
theorem sampleWith_spec {cnf : Cnf} (hcnf : cnf.WellFormed) {C : Contract G}
    {settings : SampleSettings} (hkept : C.Kept settings cnf.size cnf.Models) {strategy : G}
    (hinv : C.Inv strategy #[]) (monitor : σ) :
    Sampler.Concludes C (Monitor.NeverStops monitor) settings cnf.size cnf.Models
      (sampleWith cnf strategy settings monitor).1 :=
  Sampler.run_spec hkept (Solver.stands_ofCnf hcnf {}) (Solver.unlimited_ofCnf cnf {}) hinv

end ConfigSampler
