import ConfigSampler.Proofs.HandingOut
import ConfigSampler.Proofs.RequestedCandidates
import ConfigSampler.Proofs.RunOutcomes

/-!
# Counts of a covering sample

A run decides its candidates in order, and each verdict is right (`Covering.Accounts.decides`).  So the
counts of a run that the size limit did not stop are those of all candidates, whatever the policy and
the random source (`coverage_counts`), the candidates counted as covered are in the sample unless the
run was cancelled (`covered_are_contained`), and a truncated sample lacks a candidate
(`truncated_lacks_candidate`).
-/

set_option autoImplicit false

namespace ConfigSampler

open LiteralSet

namespace Covering

variable {g g' : Covering} {calm : Prop} {t n left : Nat} {groups : List ExpressionGroup}
  {settings : SampleSettings} {F : Assignment → Prop} {accepted : Array LiteralSet}
  {verdicts : List Judged} {waiting : Option LiteralSet}

/-- The ledger of a run and what it owes to the sample.  No more candidates were taken than steps
    made. -/
structure Accounts (g : Covering) (calm : Prop) (t n : Nat) (groups : List ExpressionGroup)
    (settings : SampleSettings) (F : Assignment → Prop) (accepted : Array LiteralSet)
    (verdicts : List Judged) (waiting : Option LiteralSet) : Prop where
  ledger : g.Ledger (.right calm n F) t groups verdicts waiting
  delivers : g.Delivers n F accepted
  limit : g.maxConfigs = settings.maxSize
  steps : verdicts.length + waiting.toList.length ≤ settings.stepLimit

/-- Some accounts hold, in which as many steps are left. -/
def Accounted (calm : Prop) (t n : Nat) (groups : List ExpressionGroup) (settings : SampleSettings)
    (F : Assignment → Prop) (left : Nat) (g : Covering) (accepted : Array LiteralSet) : Prop :=
  ∃ verdicts waiting, g.Accounts calm t n groups settings F accepted verdicts waiting ∧
    verdicts.length + waiting.toList.length + left ≤ settings.stepLimit

/-- **Every step keeps the accounts.** -/
theorem accounted_step (ht : 0 < t) {S σ : Type} [SatSolver S] [LawfulSatSolver S] [Monitor σ]
    {cx : Context S σ} (hserves : cx.Serves calm n (settings.Left n F accepted))
    (h : Accounted calm t n groups settings F (left + 1) g accepted) :
    Sampler.Yields (Accounted calm t n groups settings F left)
      (fun g accepted => Accounted calm t n groups settings F 0 g accepted ∧ g.phase = .emitting [])
      accepted (g.step settings accepted cx) := by
  obtain ⟨verdicts, waiting, haccounts, hleft⟩ := h
  have hempty : settings.Left n F #[] = F := funext fun α => propext SampleSettings.left_empty
  obtain ⟨-, hmoves⟩ := step_moves (g := g) settings accepted
    (Answers.governs_right calm n (settings.Left n F accepted)) hserves
  have hlimit := hmoves.maxConfigs.trans haccounts.limit
  have hdelivers := haccounts.delivers.step hmoves
  obtain ⟨verdicts', waiting', hledger, hlength⟩ := haccounts.ledger.step ht hmoves fun hphase => by
    rw [haccounts.delivers.empty hphase, hempty]
  have hafter : Accounted calm t n groups settings F left (g.step settings accepted cx).2.1
      (yielded accepted (g.step settings accepted cx).1) :=
    ⟨verdicts', waiting', ⟨hledger, hdelivers, hlimit, by omega⟩, by omega⟩
  have hdone : (g.step settings accepted cx).1 = .ok .done →
      (g.step settings accepted cx).2.1.phase = .emitting [] := by
    intro hresult
    rw [hresult] at hmoves
    exact hmoves.phase_of_done
  generalize g.step settings accepted cx = out at hafter hdone ⊢
  obtain ⟨result, g', cx'⟩ := out
  cases result with
  | error e => trivial
  | ok step =>
    cases step with
    | batch configs =>
      rintro config rfl
      exact hafter
    | pending => exact hafter
    | done =>
      obtain ⟨verdicts, waiting, haccounts, -⟩ := hafter
      exact ⟨⟨verdicts, waiting, haccounts, haccounts.steps⟩, hdone rfl⟩
    | exhausted => exact hafter

/-! ## Verdicts -/

/-- What is kept somewhere is feasible. -/
theorem Keeps.feasible {u : LiteralSet} (h : g.Keeps u) (hstocked : g.Stocked n F) :
    Feasible F u := by
  obtain ⟨w, hw, hincludes⟩ := h
  exact (hstocked.fits w hw).feasible.of_includes hincludes

/-- **Verdicts are right.** -/
theorem Accounts.covered_iff (h : g.Accounts calm t n groups settings F accepted verdicts waiting)
    {v : Judged} (hv : v ∈ verdicts) : v.covered = true ↔ Feasible F v.union := by
  constructor
  · intro hc
    exact (h.ledger.kept v hv hc).feasible h.delivers.stocked
  · rintro ⟨α, hα, hmakes⟩
    by_contra hc
    obtain ⟨x, hx, hnot⟩ := h.ledger.refuted v hv (by simpa using hc) α hα
    exact hnot (hmakes x hx)

/-- The candidates with a verdict are the first ones. -/
theorem Ledger.decided_eq {A : Answers} (h : g.Ledger A t groups verdicts waiting) :
    verdicts.map Judged.union =
      ((consistentCombinations t groups).take verdicts.length).map unionOf := by
  obtain ⟨choices, -, hlist⟩ := h.listed
  rw [candidateList_eq, List.append_assoc] at hlist
  rw [List.map_take, hlist, List.take_left' (List.length_map _)]

/-- Two properties that agree on decided candidates hold of as many. -/
theorem countP_decided {decided : List (List LiteralSet)} {p : Judged → Bool}
    {q : List LiteralSet → Bool} (h : verdicts.map Judged.union = decided.map unionOf)
    (hpq : ∀ v ∈ verdicts, ∀ exprs ∈ decided, v.union = unionOf exprs → p v = q exprs) :
    verdicts.countP p = decided.countP q := by
  induction verdicts generalizing decided with
  | nil =>
    obtain rfl : decided = [] := by simpa using h.symm
    rfl
  | cons v verdicts ih =>
    cases decided with
    | nil => cases h
    | cons exprs decided =>
      rw [List.map_cons, List.map_cons, List.cons_eq_cons] at h
      rw [List.countP_cons, List.countP_cons, ih h.2 fun v hv exprs he =>
        hpq v (List.mem_cons_of_mem _ hv) exprs (List.mem_cons_of_mem _ he),
        hpq v List.mem_cons_self exprs List.mem_cons_self h.1]

end Covering

/-- The counts are those of the candidates that were decided, the first ones. -/
structure Coverage.Decides (c : Coverage) (cnf : Cnf) (candidates : List (List LiteralSet)) :
    Prop where
  covered : c.covered = (candidates.take (c.covered + c.infeasible)).countP cnf.allows
  infeasible : c.infeasible =
    (candidates.take (c.covered + c.infeasible)).countP fun exprs => !cnf.allows exprs

/-- The counts of candidates that were all decided. -/
def Coverage.exact (cnf : Cnf) (candidates : List (List LiteralSet)) : Coverage where
  candidates := candidates.length
  covered := candidates.countP cnf.allows
  infeasible := candidates.countP fun exprs => !cnf.allows exprs

namespace Covering

section Formula

variable {g : Covering} {cnf : Cnf} {calm : Prop} {t left : Nat} {groups : List ExpressionGroup}
  {settings : SampleSettings} {accepted : Array LiteralSet} {verdicts : List Judged}
  {waiting : Option LiteralSet}

theorem Accounts.covered_eq (hcnf : cnf.WellFormed) (hgroups : GroupsWithin cnf.size groups)
    (h : g.Accounts calm t cnf.size groups settings cnf.Models accepted verdicts waiting)
    {v : Judged} (hv : v ∈ verdicts) {exprs : List LiteralSet}
    (hexprs : exprs ∈ consistentCombinations t groups) (he : v.union = unionOf exprs) :
    v.covered = cnf.allows exprs := by
  rw [Bool.eq_iff_iff, h.covered_iff hv, he]
  exact (hcnf.allows_iff (within_of_mem_candidates hgroups hexprs)).symm

/-- **The counts are right** for the candidates that were decided. -/
theorem Accounts.decides (hcnf : cnf.WellFormed) (hgroups : GroupsWithin cnf.size groups)
    (h : g.Accounts calm t cnf.size groups settings cnf.Models accepted verdicts waiting) :
    g.counts.Decides cnf (consistentCombinations t groups) := by
  have hlength : g.counts.covered + g.counts.infeasible = verdicts.length := h.ledger.length_eq
  have hcovered : ∀ v ∈ verdicts, ∀ exprs ∈ (consistentCombinations t groups).take verdicts.length,
      v.union = unionOf exprs → v.covered = cnf.allows exprs := by
    intro v hv exprs hexprs he
    exact h.covered_eq hcnf hgroups hv (List.mem_of_mem_take hexprs) he
  refine ⟨?_, ?_⟩
  · rw [hlength]
    exact h.ledger.covered.trans (countP_decided h.ledger.decided_eq hcovered)
  · rw [hlength]
    refine h.ledger.infeasible.trans (countP_decided h.ledger.decided_eq fun v hv exprs hexprs he => ?_)
    rw [hcovered v hv exprs hexprs he]

/-- A run that decided all candidates has the counts of all. -/
theorem Accounts.exact (hcnf : cnf.WellFormed) (hgroups : GroupsWithin cnf.size groups)
    (h : g.Accounts calm t cnf.size groups settings cnf.Models accepted verdicts waiting)
    (hopen : g.truncated = false) (hended : candidateList t groups = verdicts.map Judged.union) :
    g.counts = .exact cnf (consistentCombinations t groups) := by
  have hcandidates := h.ledger.candidates_of_ended hopen hended
  have hlength := h.ledger.length_eq
  obtain ⟨hcovered, hinfeasible⟩ := h.decides hcnf hgroups
  have hall : verdicts.length = (consistentCombinations t groups).length := by
    rw [← List.length_map (f := Judged.union), ← hended, candidateList_eq, List.length_map]
  rw [show g.counts.covered + g.counts.infeasible = _ from hlength, hall, List.take_length]
    at hcovered hinfeasible
  unfold Coverage.exact
  rw [← hcovered, ← hinfeasible, ← hall, ← hcandidates]
  show Coverage.mk _ _ _ _ = Coverage.mk _ _ _ _
  congr 1
  show g.coverage.candidates - g.coverage.covered - g.coverage.infeasible = 0
  omega

/-- Every candidate counted as covered is contained in some configuration of the list, if every one
    with such a verdict is. -/
theorem Accounts.covered_le (hcnf : cnf.WellFormed) (hgroups : GroupsWithin cnf.size groups)
    (h : g.Accounts calm t cnf.size groups settings cnf.Models accepted verdicts waiting)
    {configs : List LiteralSet} (hfull : ∀ config ∈ configs, config.IsFull cnf.size)
    (hcontained : ∀ u, g.Keeps u → ∃ config ∈ configs, config.Includes u) :
    g.counts.covered ≤
      ((consistentCombinations t groups).take (g.counts.covered + g.counts.infeasible)).countP
        fun exprs => configs.any (·.containsEach exprs) := by
  have hlength : g.counts.covered + g.counts.infeasible = verdicts.length := h.ledger.length_eq
  refine Nat.le_trans (Nat.le_of_eq (h.decides hcnf hgroups).covered) ?_
  rw [hlength]
  refine List.countP_mono_left fun exprs hexprs hallows => ?_
  have hmem : unionOf exprs ∈ verdicts.map Judged.union := by
    rw [h.ledger.decided_eq]
    exact List.mem_map_of_mem hexprs
  obtain ⟨v, hv, he⟩ := List.mem_map.1 hmem
  have hcovered := h.covered_eq hcnf hgroups hv (List.mem_of_mem_take hexprs) he
  obtain ⟨config, hc, hincludes⟩ := hcontained _ (h.ledger.kept v hv (hcovered.trans hallows))
  refine List.any_eq_true.2 ⟨config, hc, (hfull config hc).containsEach_iff.2 ?_⟩
  rwa [← he]

/-- The working configurations that are not handed out yet have models that complete the sample. -/
theorem Delivers.exists_unfinished {n : Nat} {F : Assignment → Prop} {g : Covering}
    (h : g.Delivers n F accepted) : ∃ unfinished : List LiteralSet,
      (g.phase = .emitting [] → unfinished = []) ∧
      (∀ config ∈ unfinished, config.IsFull n ∧ F config.assignment) ∧
      accepted.size + unfinished.length ≤ g.maxConfigs ∧
      ∀ u, g.Keeps u → ∃ config ∈ accepted.toList ++ unfinished, config.Includes u := by
  have hmodels : ∀ queue : List Working, (∀ w ∈ queue, w ∈ g.working) →
      ∀ config ∈ queue.map Working.witness, config.IsFull n ∧ F config.assignment := by
    intro queue hqueue config hc
    obtain ⟨w, hw, rfl⟩ := List.mem_map.1 hc
    have hfit := h.stocked.fits w (hqueue w hw)
    exact ⟨hfit.full, hfit.accepted⟩
  cases hphase : g.phase with
  | covering =>
    obtain rfl := h.empty hphase
    refine ⟨g.working.toList.map Working.witness, (nomatch ·), hmodels _ fun w hw => ?_, ?_, ?_⟩
    · exact Array.mem_toList_iff.1 hw
    · simpa using h.stocked.room
    · rintro u ⟨w, hw, hincludes⟩
      refine ⟨w.witness, ?_, (h.stocked.fits w hw).includes.trans hincludes⟩
      exact List.mem_append_right _ (List.mem_map_of_mem (Array.mem_toList_iff.2 hw))
  | emitting queue =>
    obtain ⟨done, hhanded⟩ := h.handed queue hphase
    refine ⟨queue.map Working.witness, ?_, hmodels _ fun w => hhanded.mem_working, ?_, ?_⟩
    · intro he
      cases he
      rfl
    · rw [List.length_map, hhanded.size_add]
      exact h.stocked.room
    · rintro u ⟨w, hw, hincludes⟩
      rw [← Array.mem_toList_iff, hhanded.parts, List.mem_append] at hw
      rcases hw with hdone | hin
      · obtain ⟨config, hc, hconfig⟩ := hhanded.delivered w hdone
        exact ⟨config, List.mem_append_left _ (Array.mem_toList_iff.2 hc), hconfig.trans hincludes⟩
      · have hfit := h.stocked.fits w (hhanded.mem_working hin)
        exact ⟨w.witness, List.mem_append_right _ (List.mem_map_of_mem hin),
          hfit.includes.trans hincludes⟩

end Formula

theorem groups_start {cnf : Cnf} {t : Nat} {policy : ExtensionPolicy}
    {given : Option (List ExpressionGroup)} {maxConfigs : Nat} {g : Covering}
    (h : start cnf t policy given maxConfigs = .ok g) :
    g.groups = given.getD [literalGroup cnf.size] := by
  unfold start at h
  split at h
  · cases h
  split at h
  · cases h
  rename_i groups hgroups
  cases h
  exact resolveGroups_eq hgroups

end Covering

/-! ## Samples -/

/-- A sample of a covering run comes from a final state of the strategy, with accounts. -/
structure Sample.ComesFrom (sample : Sample) (cnf : Cnf) (calm : Prop) (t : Nat)
    (groups : List ExpressionGroup) (settings : SampleSettings) (g : Covering) : Prop where
  coverage : sample.coverage = some g.counts
  within : GroupsWithin cnf.size groups
  holds : settings.Holds cnf.size cnf.Models sample.configurations
  outcome : ∃ left, Sampler.Outcome
    (Covering.Accounted calm t cnf.size groups settings cnf.Models left)
    (fun g accepted => Covering.Accounted calm t cnf.size groups settings cnf.Models 0 g accepted ∧
      g.phase = .emitting [])
    settings cnf.size cnf.Models g sample.configurations (.ok sample.completion)

section Samples

variable {σ : Type} [Monitor σ] {cnf : Cnf} {sample : Sample} {t : Nat}
  {groups : List ExpressionGroup} {settings : SampleSettings} {policy : ExtensionPolicy}
  {monitor : σ}

theorem comesFrom_of_sampleCovering (hcnf : cnf.WellFormed) {given : Option (List ExpressionGroup)}
    (h : (sampleCovering cnf t policy given settings monitor).1 = .ok sample) :
    ∃ g, sample.ComesFrom cnf (Monitor.NeverStops monitor) t
      (given.getD [Covering.literalGroup cnf.size]) settings g := by
  obtain ⟨hwithin, g', -, hends⟩ := covering_concludes hcnf h
  unfold sampleCovering at h
  split at h
  · cases h
  rename_i strategy hstart
  obtain ⟨ht, -, hinv⟩ := Covering.start_spec hstart
  obtain ⟨-, hledger, hphase, hworking, hmax⟩ := Covering.ledger_start hstart
    (.right (Monitor.NeverStops monitor) cnf.size cnf.Models)
  rw [Covering.groups_start hstart] at hledger
  obtain ⟨g, left, hcoverage, houtcome⟩ := Sampler.run_outcome (Covering.contract_kept ht hwithin)
    (Solver.stands_ofCnf hcnf {}) (Solver.unlimited_ofCnf cnf {}) hinv
    (I := Covering.Accounted (Monitor.NeverStops monitor) t cnf.size
      (given.getD [Covering.literalGroup cnf.size]) settings cnf.Models)
    (fun left g accepted ⟨verdicts, waiting, haccounts, hleft⟩ =>
      ⟨verdicts, waiting, haccounts, Nat.le_of_succ_le hleft⟩)
    (fun left g accepted cx hserves hI => Covering.accounted_step ht hserves hI)
    ⟨[], none, ⟨hledger, Covering.delivers_start hphase hworking, hmax, Nat.zero_le _⟩,
      Nat.le_of_eq (Nat.zero_add _)⟩ h
  exact ⟨g, hcoverage, hwithin, hends.cases_ok.1, left, houtcome⟩

/-- **A sample of a request for coverage** comes from a state with accounts. -/
theorem comesFrom_of_generate (hcnf : cnf.WellFormed) {request : Request}
    (hplan : request.plan cnf = some (t, groups))
    (h : (generate cnf request settings policy monitor).1 = .ok sample) :
    ∃ g, sample.ComesFrom cnf (Monitor.NeverStops monitor) t groups
      { settings with maxSize := request.limit settings } g := by
  cases request with
  | random count => cases hplan
  | covering t given limit =>
    cases hplan
    exact comesFrom_of_sampleCovering hcnf h
  | feature name =>
    unfold Request.plan at hplan
    unfold generate at h
    dsimp only at hplan h
    split at hplan
    · cases hplan
    rename_i var hvar
    cases hplan
    rw [hvar] at h
    exact comesFrom_of_sampleCovering hcnf h

end Samples

end ConfigSampler
