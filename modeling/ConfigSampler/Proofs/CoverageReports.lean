import ConfigSampler.Proofs.CoverageCounts

/-!
# What a sample reports about coverage

The counts of a run that the size limit did not stop are those of all candidates, whatever the policy,
the random source and the treatment of duplicates (`coverage_counts`).  The candidates counted as
covered are contained in the sample, or in models that were still to be handed out when the run was
cancelled (`covered_are_contained`).  A truncated sample lacks a candidate, which need not be feasible
(`truncated_lacks_candidate`).
-/

set_option autoImplicit false

namespace ConfigSampler

open LiteralSet

section Reports

variable {σ : Type} [Monitor σ] {cnf : Cnf} {sample : Sample} {calm : Prop} {t : Nat}
  {groups : List ExpressionGroup} {settings : SampleSettings} {g : Covering} {request : Request}

/-- A run that was not cancelled handed everything out, or filled the sample, or left nothing. -/
theorem Sample.ComesFrom.accounts (h : sample.ComesFrom cnf calm t groups settings g)
    (hnot : sample.completion ≠ .cancelled) : ∃ verdicts waiting,
      g.Accounts calm t cnf.size groups settings cnf.Models sample.configurations verdicts waiting ∧
      (sample.completion = .exhausted ∧
          (∀ α, ¬ settings.Left cnf.size cnf.Models sample.configurations α) ∧
          sample.configurations.size < settings.maxSize ∨
        sample.completion = g.finished ∧
          (sample.configurations.size = settings.maxSize ∨ g.phase = .emitting [])) := by
  obtain ⟨left, houtcome⟩ := h.outcome
  rcases houtcome.cases_ok with ⟨hc, -⟩ | ⟨hc, hI, hnone, hroom⟩ | ⟨hc, ⟨hI, hsize⟩ | ⟨hI, hphase⟩⟩
  · exact absurd hc hnot
  · obtain ⟨verdicts, waiting, haccounts, -⟩ := hI
    exact ⟨verdicts, waiting, haccounts, .inl ⟨hc, hnone, hroom⟩⟩
  · obtain ⟨verdicts, waiting, haccounts, -⟩ := hI
    exact ⟨verdicts, waiting, haccounts, .inr ⟨hc, .inl hsize⟩⟩
  · obtain ⟨verdicts, waiting, haccounts, -⟩ := hI
    exact ⟨verdicts, waiting, haccounts, .inr ⟨hc, .inr hphase⟩⟩

theorem Covering.truncated_of_finished {g : Covering} (h : g.finished = .truncated) :
    g.truncated = true := by
  unfold Covering.finished at h
  split at h
  · assumption
  · cases h

variable {verdicts : List Judged} {waiting : Option LiteralSet}

/-- A full sample is empty while candidates are covered, so no configuration may be yielded at all. -/
theorem Covering.Accounts.maxConfigs_eq_zero
    (h : g.Accounts calm t cnf.size groups settings cnf.Models sample.configurations verdicts waiting)
    (hphase : g.phase = .covering) (hsize : sample.configurations.size = settings.maxSize) :
    g.maxConfigs = 0 := by
  rw [h.limit, ← hsize, h.delivers.empty hphase]
  rfl

/-- A run that is exhausted has more room than there are solutions, so it was not truncated. -/
theorem Covering.Accounts.not_truncated (hcnf : cnf.WellFormed) (hsat : cnf.solutions.Nonempty)
    (hholds : settings.Holds cnf.size cnf.Models sample.configurations)
    (h : g.Accounts calm t cnf.size groups settings cnf.Models sample.configurations verdicts waiting)
    (hnone : ∀ α, ¬ settings.Left cnf.size cnf.Models sample.configurations α)
    (hroom : sample.configurations.size < settings.maxSize) : g.truncated = false := by
  have hcard := Finset.card_pos.2 hsat
  have hall : sample.configurations.size = cnf.solutions.card := by
    cases hd : settings.allowDuplicates with
    | false => exact hholds.size_eq_card hcnf hd hnone
    | true =>
      have := (hholds.none_of_none_left hcnf hd hnone).1
      omega
  have hworking := h.delivers.apart.size_le_card h.delivers.stocked
    fun config hfull hmodels => hcnf.mem_solutions_iff.2 ⟨hfull, hmodels⟩
  rw [← Bool.not_eq_true]
  intro htruncated
  have hlimit := h.limit
  rcases (h.ledger.blocked htruncated).2 with hzero | ⟨u, -, hfull, -⟩ <;> omega

/-- A run that was neither truncated nor cancelled decided all candidates. -/
theorem Covering.Accounts.ended (hsat : cnf.solutions.Nonempty) (hcnf : cnf.WellFormed)
    (h : g.Accounts calm t cnf.size groups settings cnf.Models sample.configurations verdicts waiting)
    (hopen : g.truncated = false)
    (hend : (∀ α, ¬ settings.Left cnf.size cnf.Models sample.configurations α) ∨
      sample.configurations.size = settings.maxSize ∨ g.phase = .emitting []) :
    candidateList t groups = verdicts.map Judged.union := by
  cases hphase : g.phase with
  | emitting queue => exact h.ledger.ended queue hphase hopen
  | covering =>
    have hempty := h.delivers.empty hphase
    rcases hend with hnone | hsize | hdone
    · obtain ⟨config, hc⟩ := hsat
      rw [hempty] at hnone
      obtain ⟨-, hmodels⟩ := hcnf.mem_solutions_iff.1 hc
      exact absurd (SampleSettings.left_empty.2 hmodels) (hnone config.assignment)
    · have hzero := h.maxConfigs_eq_zero hphase hsize
      have htotal := candidateTotal_atLeast t groups
      rw [h.ledger.empty hzero hopen] at htotal
      obtain ⟨rfl, -⟩ := h.ledger.idle hzero
      have hlength : (candidateList t groups).length = 0 := by
        unfold AtLeast maxCount at htotal
        omega
      exact List.length_eq_zero_iff.1 hlength
    · exact absurd hdone (Covering.not_emitting hphase [])

/-- **The counts of a covering run.**  If the size limit did not stop the run, they are those of all
    candidates: the covered ones are those that some solution contains.  If it did, the candidates are
    counted by the total, and those decided so far were decided rightly.  In every state of a covering
    run, also after it was cancelled, the counts of decided candidates are part of the count of all. -/
theorem coverage_counts (hcnf : cnf.WellFormed) (hsat : cnf.solutions.Nonempty)
    (hplan : request.plan cnf = some (t, groups)) (settings : SampleSettings)
    (hsteps : settings.stepLimit ≤ maxCount) (policy : ExtensionPolicy) (monitor : σ) :
    Ensures (fun sample => sample.completion ≠ .cancelled →
      (sample.completion ≠ .truncated →
        sample.coverage = some (.exact cnf (consistentCombinations t groups))) ∧
      (sample.completion = .truncated → ∃ coverage, sample.coverage = some coverage ∧
        coverage.candidates = candidateTotal groups t ∧
        coverage.Decides cnf (consistentCombinations t groups)))
      (generate cnf request settings policy monitor).1 ∧
    ∀ g : Covering, g.Reachable →
      g.counts.covered + g.counts.infeasible + g.counts.uncovered = g.counts.candidates := by
  refine ⟨?_, fun g hg => ?_⟩
  · rw [ensures_iff]
    intro sample h hnot
    obtain ⟨g, hcomes⟩ := comesFrom_of_generate hcnf hplan h
    obtain ⟨verdicts, waiting, haccounts, hend⟩ := hcomes.accounts hnot
    refine ⟨fun hlimit => ?_, fun hlimit => ⟨g.counts, hcomes.coverage, ?_, ?_⟩⟩
    · have hopen : g.truncated = false := by
        rcases hend with ⟨-, hnone, hroom⟩ | ⟨hc, -⟩
        · exact haccounts.not_truncated hcnf hsat hcomes.holds hnone hroom
        · rw [← Bool.not_eq_true]
          intro htruncated
          exact hlimit (by rw [hc, Covering.finished, if_pos htruncated])
      have hended := haccounts.ended hsat hcnf hopen (hend.imp (·.2.1) (·.2))
      rw [hcomes.coverage, haccounts.exact hcnf hcomes.within hopen hended]
    · obtain ⟨hc, hdone⟩ := hend.resolve_left fun hexhausted => by
        rw [hexhausted.1] at hlimit
        cases hlimit
      refine haccounts.ledger.candidates_of_truncated
        (Covering.truncated_of_finished (hc.symm.trans hlimit)) (fun hphase => ?_)
        (Nat.le_trans haccounts.steps hsteps)
      rcases hdone with hsize | hphase'
      · exact haccounts.maxConfigs_eq_zero hphase hsize
      · exact absurd hphase' (Covering.not_emitting hphase [])
    · exact haccounts.decides hcnf hcomes.within
  · have := hg.counts_le
    show g.coverage.covered + g.coverage.infeasible +
      (g.coverage.candidates - g.coverage.covered - g.coverage.infeasible) = g.coverage.candidates
    omega

/-- The candidates are pairs of literals. -/
theorem Cnf.plan_firstSelected (limit : Nat) : (Request.covering 2 none limit).plan firstSelected =
    some (2, [Covering.literalGroup 2]) := rfl

/-- The counts of a run that the size limit did not stop, and of one that it stopped. -/
theorem coverage_counts_firstSelected : Cnf.firstSelected.WellFormed ∧
    Cnf.firstSelected.solutions.Nonempty ∧ unboundedSteps ≤ maxCount ∧
    (∃ sample, (generate Cnf.firstSelected (.covering 2 none 10) { allowDuplicates := true }
        .shuffled Silent.silent).1 = .ok sample ∧
      sample.coverage = some ⟨4, 2, 2, 0⟩) ∧
    ∃ sample, (generate Cnf.firstSelected (.covering 2 none 1) { allowDuplicates := true }
        .shuffled Silent.silent).1 = .ok sample ∧
      ∃ coverage, sample.coverage = some coverage ∧ coverage.candidates = 4 ∧
        coverage.Decides Cnf.firstSelected
          (consistentCombinations 2 [Covering.literalGroup 2]) := by
  have hcnf : Cnf.firstSelected.WellFormed := by decide
  have hsat : Cnf.firstSelected.solutions.Nonempty := by decide +kernel
  have hsteps : unboundedSteps ≤ maxCount := by decide
  refine ⟨hcnf, hsat, hsteps, ?_, ?_⟩
  · obtain ⟨sample, hs, hc⟩ := exists_of_comesTo (fun sample => sample.completion == .complete)
      (generate Cnf.firstSelected (.covering 2 none 10) { allowDuplicates := true }
        .shuffled Silent.silent).1 (by decide +kernel)
    have hcounts := ensures_iff.1 (coverage_counts hcnf hsat (Cnf.plan_firstSelected 10)
      { allowDuplicates := true } hsteps .shuffled Silent.silent).1 sample hs
    rw [eq_of_beq hc] at hcounts
    refine ⟨sample, hs, ((hcounts (by simp)).1 (by simp)).trans ?_⟩
    decide +kernel
  · obtain ⟨sample, hs, hc⟩ := exists_of_comesTo (fun sample => sample.completion == .truncated)
      (generate Cnf.firstSelected (.covering 2 none 1) { allowDuplicates := true }
        .shuffled Silent.silent).1 (by decide +kernel)
    have hcounts := ensures_iff.1 (coverage_counts hcnf hsat (Cnf.plan_firstSelected 1)
      { allowDuplicates := true } hsteps .shuffled Silent.silent).1 sample hs
    rw [eq_of_beq hc] at hcounts
    obtain ⟨coverage, hcoverage, htotal, hdecides⟩ := (hcounts (by simp)).2 rfl
    exact ⟨sample, hs, coverage, hcoverage, htotal.trans (by decide +kernel), hdecides⟩

/-! ## Covered candidates -/

/-- The models that are still to be handed out complete a sample. -/
theorem Covering.Accounted.exists_unfinished {left : Nat} {accepted : Array LiteralSet}
    (hcnf : cnf.WellFormed) (hgroups : GroupsWithin cnf.size groups)
    (h : g.Accounted calm t cnf.size groups settings cnf.Models left accepted)
    (hvalid : ∀ config ∈ accepted, config.IsFull cnf.size) : ∃ unfinished : List LiteralSet,
      (accepted.size = settings.maxSize ∨ g.phase = .emitting [] → unfinished = []) ∧
      (∀ config ∈ unfinished, config ∈ cnf.solutions) ∧
      accepted.size + unfinished.length ≤ settings.maxSize ∧
      g.counts.covered ≤ ((consistentCombinations t groups).take
        (g.counts.covered + g.counts.infeasible)).countP
          fun exprs => (accepted.toList ++ unfinished).any (·.containsEach exprs) := by
  obtain ⟨verdicts, waiting, haccounts, -⟩ := h
  obtain ⟨unfinished, hdone, hmodels, hroom, hkept⟩ := haccounts.delivers.exists_unfinished
  rw [haccounts.limit] at hroom
  refine ⟨unfinished, ?_, fun config hc => hcnf.mem_solutions_iff.2 (hmodels config hc), hroom, ?_⟩
  · rintro (hfull | hphase)
    · exact List.length_eq_zero_iff.1 (by omega)
    · exact hdone hphase
  · refine haccounts.covered_le hcnf hgroups (fun config hc => ?_) hkept
    exact (List.mem_append.1 hc).elim (fun hc => hvalid config (Array.mem_toList_iff.1 hc))
      fun hc => (hmodels config hc).1

/-- If no solution is left, a sample contains what is counted as covered. -/
theorem Covering.Accounted.covered_le_of_none_left {left : Nat} {accepted : Array LiteralSet}
    (hcnf : cnf.WellFormed) (hgroups : GroupsWithin cnf.size groups)
    (h : g.Accounted calm t cnf.size groups settings cnf.Models left accepted)
    (hvalid : ∀ config ∈ accepted, config.IsFull cnf.size)
    (hnone : ∀ α, ¬ settings.Left cnf.size cnf.Models accepted α) :
    g.counts.covered ≤ ((consistentCombinations t groups).take
      (g.counts.covered + g.counts.infeasible)).countP
        fun exprs => accepted.toList.any (·.containsEach exprs) := by
  obtain ⟨verdicts, waiting, haccounts, -⟩ := h
  refine haccounts.covered_le hcnf hgroups
    (fun config hc => hvalid config (Array.mem_toList_iff.1 hc)) fun u hu => ?_
  have hstocked := haccounts.delivers.stocked
  have hwithin : u.Within cnf.size := by
    obtain ⟨w, hw, hincludes⟩ := hu
    exact fun x hx => (hstocked.fits w hw).within x (hincludes x hx)
  obtain ⟨config, hc, hconfig⟩ := includes_of_none_left hcnf hnone (hu.feasible hstocked) hwithin
  exact ⟨config, Array.mem_toList_iff.2 hc, hconfig⟩

/-- **What is counted as covered is contained in the sample.**  If the run was cancelled, some models
    that were still to be handed out complete the sample, no more than there is room for. -/
theorem covered_are_contained (hcnf : cnf.WellFormed) (hplan : request.plan cnf = some (t, groups))
    (settings : SampleSettings) (policy : ExtensionPolicy) (monitor : σ) :
    Ensures (fun sample => ∃ coverage, sample.coverage = some coverage ∧
      ∃ unfinished : List LiteralSet, (sample.completion ≠ .cancelled → unfinished = []) ∧
        (∀ config ∈ unfinished, config ∈ cnf.solutions) ∧
        sample.configurations.size + unfinished.length ≤ request.limit settings ∧
        coverage.covered ≤
          ((consistentCombinations t groups).take (coverage.covered + coverage.infeasible)).countP
            fun exprs => (sample.configurations.toList ++ unfinished).any (·.containsEach exprs))
      (generate cnf request settings policy monitor).1 := by
  rw [ensures_iff]
  intro sample h
  obtain ⟨g, hcomes⟩ := comesFrom_of_generate hcnf hplan h
  refine ⟨g.counts, hcomes.coverage, ?_⟩
  have hvalid : ∀ config ∈ sample.configurations, config.IsFull cnf.size :=
    fun config hc => (hcomes.holds.valid config hc).1
  obtain ⟨left, houtcome⟩ := hcomes.outcome
  rcases houtcome.cases_ok with ⟨hc, hI | ⟨config, hfull, hmodels, -, hI⟩⟩ | ⟨-, hI, hnone, -⟩ |
    ⟨-, ⟨hI, hsize⟩ | ⟨hI, hphase⟩⟩
  · obtain ⟨unfinished, -, hunfinished⟩ := hI.exists_unfinished hcnf hcomes.within hvalid
    exact ⟨unfinished, fun hnot => absurd hc hnot, hunfinished⟩
  · -- the last configuration was handed out but not accepted any more
    obtain ⟨unfinished, -, hsolutions, hroom, hcovered⟩ :=
      hI.exists_unfinished hcnf hcomes.within fun c hc =>
        (Array.mem_push.1 hc).elim (hvalid c) fun he => he ▸ hfull
    refine ⟨config :: unfinished, fun hnot => absurd hc hnot, fun c hc => ?_, ?_, ?_⟩
    · rcases List.mem_cons.1 hc with rfl | hc
      · exact hcnf.mem_solutions_iff.2 ⟨hfull, hmodels⟩
      · exact hsolutions c hc
    · rw [Array.size_push] at hroom
      rw [List.length_cons]
      show _ ≤ SampleSettings.maxSize { settings with maxSize := request.limit settings }
      omega
    · rwa [Array.toList_push, List.append_assoc, List.singleton_append] at hcovered
  · refine ⟨[], fun _ => rfl, fun _ hc => absurd hc List.not_mem_nil, hcomes.holds.fits, ?_⟩
    rw [List.append_nil]
    exact hI.covered_le_of_none_left hcnf hcomes.within hvalid hnone
  · obtain ⟨unfinished, hnone, hunfinished⟩ := hI.exists_unfinished hcnf hcomes.within hvalid
    exact ⟨unfinished, fun _ => hnone (.inl hsize), hunfinished⟩
  · obtain ⟨unfinished, hnone, hunfinished⟩ := hI.exists_unfinished hcnf hcomes.within hvalid
    exact ⟨unfinished, fun _ => hnone (.inr hphase), hunfinished⟩

/-- The candidates counted by a run that is complete, and by one that was cancelled after it decided
    one of them: its model was not handed out yet. -/
theorem covered_are_contained_firstSelected : Cnf.firstSelected.WellFormed ∧
    (∃ sample, (generate Cnf.firstSelected (.covering 2 none 10) { allowDuplicates := true }
        .lastFit Silent.silent).1 = .ok sample ∧ sample.completion = .complete ∧
      2 ≤ (consistentCombinations 2 [Covering.literalGroup 2]).countP
        fun exprs => sample.configurations.toList.any (·.containsEach exprs)) ∧
    ∃ sample, (generate Cnf.firstSelected (.covering 2 none 10) { allowDuplicates := true }
        .lastFit (⟨1⟩ : Monitor.Countdown)).1 = .ok sample ∧ sample.configurations = #[] ∧
      ∃ config ∈ Cnf.firstSelected.solutions,
        1 ≤ (consistentCombinations 2 [Covering.literalGroup 2]).countP config.containsEach := by
  have hcnf : Cnf.firstSelected.WellFormed := by decide
  refine ⟨hcnf, ?_, ?_⟩
  · obtain ⟨sample, hs, hp⟩ := exists_of_comesTo
      (fun sample => sample.completion == .complete && sample.coverage == some ⟨4, 2, 2, 0⟩)
      (generate Cnf.firstSelected (.covering 2 none 10) { allowDuplicates := true }
        .lastFit Silent.silent).1 (by decide +kernel)
    obtain ⟨hcompletion, hcounts⟩ := Bool.and_eq_true_iff.1 hp
    obtain ⟨coverage, hcoverage, unfinished, hnone, -, -, hle⟩ := ensures_iff.1
      (covered_are_contained hcnf (Cnf.plan_firstSelected 10) { allowDuplicates := true } .lastFit
        Silent.silent) sample hs
    obtain rfl := Option.some.inj (hcoverage.symm.trans (eq_of_beq hcounts))
    obtain rfl := hnone (by rw [eq_of_beq hcompletion]; simp)
    rw [List.append_nil] at hle
    exact ⟨sample, hs, eq_of_beq hcompletion, Nat.le_trans hle (List.take_sublist _ _).countP_le⟩
  · obtain ⟨sample, hs, hp⟩ := exists_of_comesTo
      (fun sample => sample.configurations.isEmpty && sample.coverage == some ⟨1, 1, 0, 0⟩)
      (generate Cnf.firstSelected (.covering 2 none 10) { allowDuplicates := true }
        .lastFit (⟨1⟩ : Monitor.Countdown)).1 (by decide +kernel)
    obtain ⟨hempty, hcounts⟩ := Bool.and_eq_true_iff.1 hp
    obtain ⟨coverage, hcoverage, unfinished, -, hsolutions, -, hle⟩ := ensures_iff.1
      (covered_are_contained hcnf (Cnf.plan_firstSelected 10) { allowDuplicates := true } .lastFit
        (⟨1⟩ : Monitor.Countdown)) sample hs
    obtain rfl := Option.some.inj (hcoverage.symm.trans (eq_of_beq hcounts))
    rw [Array.isEmpty_iff.1 hempty] at hle
    obtain ⟨exprs, hexprs, hany⟩ := List.countP_pos_iff.1 (Nat.lt_of_lt_of_le Nat.one_pos hle)
    obtain ⟨config, hc, hcontains⟩ := List.any_eq_true.1 hany
    refine ⟨sample, hs, Array.isEmpty_iff.1 hempty, config, hsolutions config (by simpa using hc), ?_⟩
    exact List.countP_pos_iff.2 ⟨exprs, List.mem_of_mem_take hexprs, hcontains⟩

/-- One variable without clauses. -/
def Cnf.free : Cnf := ⟨Variables.anonymous 1, #[]⟩

/-- A run that is cancelled when its first candidate is covered has no configuration that contains
    it. -/
theorem cancelled_before_handing_out : ∃ sample,
    (generate Cnf.free (.covering 1 none 10) {} .firstFit (⟨1⟩ : Monitor.Countdown)).1 = .ok sample ∧
      sample.completion = .cancelled ∧ ∃ coverage, sample.coverage = some coverage ∧
      (consistentCombinations 1 [Covering.literalGroup 1]).countP
        (fun exprs => sample.configurations.toList.any (·.containsEach exprs)) <
          coverage.covered := by
  obtain ⟨sample, hs, hp⟩ := exists_of_comesTo
    (fun sample => sample.completion == .cancelled &&
      (sample.configurations.isEmpty && sample.coverage == some ⟨1, 1, 0, 0⟩))
    (generate Cnf.free (.covering 1 none 10) {} .firstFit (⟨1⟩ : Monitor.Countdown)).1
    (by decide +kernel)
  simp only [Bool.and_eq_true, beq_iff_eq, Array.isEmpty_iff] at hp
  obtain ⟨hcompletion, hempty, hcoverage⟩ := hp
  refine ⟨sample, hs, hcompletion, _, hcoverage, ?_⟩
  rw [hempty]
  decide +kernel

/-! ## Truncated samples -/

/-- The candidate that found no room is in no configuration of the sample. -/
theorem Covering.Accounts.lacks (hcnf : cnf.WellFormed) {accepted : Array LiteralSet}
    (h : g.Accounts calm t cnf.size groups settings cnf.Models accepted verdicts waiting)
    (hvalid : ∀ config ∈ accepted, config ∈ cnf.solutions) (htruncated : g.truncated = true)
    (hmax : 0 < settings.maxSize) :
    settings.maxSize ≤ g.working.size ∧ 0 < g.counts.uncovered ∧
    ∃ exprs, (consistentCombinations t groups)[g.counts.covered + g.counts.infeasible]? = some exprs ∧
      ∀ config ∈ accepted, config.containsEach exprs = false := by
  have hlimit := h.limit
  obtain ⟨-, hzero | ⟨u, rfl, hroom, hstuck⟩⟩ := h.ledger.blocked htruncated
  · omega
  refine ⟨hlimit ▸ hroom, ?_, ?_⟩
  · have hcounts := h.ledger.counts_le
    rw [Option.toList_some, List.length_singleton] at hcounts
    show 0 < g.coverage.candidates - g.coverage.covered - g.coverage.infeasible
    omega
  · rw [show g.counts.covered + g.counts.infeasible = _ from h.ledger.length_eq]
    obtain ⟨choices, -, hlist⟩ := h.ledger.listed
    have hat : (candidateList t groups)[verdicts.length]? = some u := by
      rw [hlist, List.append_assoc, List.getElem?_append_right (List.length_map _).le]
      simp
    rw [candidateList_eq, List.getElem?_map, Option.map_eq_some_iff] at hat
    obtain ⟨exprs, hexprs, rfl⟩ := hat
    refine ⟨exprs, hexprs, fun config hc => ?_⟩
    rw [← Bool.not_eq_true]
    intro hcontains
    obtain ⟨hfull, hmodels⟩ := hcnf.mem_solutions_iff.1 (hvalid config hc)
    obtain ⟨w, hw, hincludes⟩ := h.delivers.sources hc
    have hboth := hincludes.union (hfull.containsEach_iff.1 hcontains)
    exact hstuck.not_feasible hw ⟨config.assignment, hmodels, fun x hx =>
      (hfull.contains_iff.1 (hfull.contains_iff_mem.2 (hboth x hx))).2.2⟩

/-- **A truncated sample** is as large as the request permits, and the first candidate that was not
    decided is in none of its configurations.  Whether any solution contains that candidate is open. -/
theorem truncated_lacks_candidate (hcnf : cnf.WellFormed)
    (hplan : request.plan cnf = some (t, groups)) (hlimit : 0 < request.limit settings)
    (policy : ExtensionPolicy) (monitor : σ) :
    Ensures (fun sample => sample.completion = .truncated →
      sample.configurations.size = request.limit settings ∧
      ∃ coverage, sample.coverage = some coverage ∧ 0 < coverage.uncovered ∧
      ∃ exprs,
        (consistentCombinations t groups)[coverage.covered + coverage.infeasible]? = some exprs ∧
        ∀ config ∈ sample.configurations, config.containsEach exprs = false)
      (generate cnf request settings policy monitor).1 := by
  rw [ensures_iff]
  intro sample h htruncated
  obtain ⟨g, hcomes⟩ := comesFrom_of_generate hcnf hplan h
  obtain ⟨verdicts, waiting, haccounts, ⟨hexhausted, -⟩ | ⟨hfinished, hend⟩⟩ :=
    hcomes.accounts (by simp [htruncated])
  · rw [htruncated] at hexhausted
    cases hexhausted
  obtain ⟨hfull, huncovered, hlacks⟩ := haccounts.lacks hcnf
    (fun config hc => hcnf.mem_solutions_iff.2 (hcomes.holds.valid config hc))
    (Covering.truncated_of_finished (hfinished.symm.trans htruncated)) hlimit
  refine ⟨?_, g.counts, hcomes.coverage, huncovered, hlacks⟩
  rcases hend with hsize | hphase
  · exact hsize
  · obtain ⟨done, hhanded⟩ := haccounts.delivers.handed [] hphase
    have hsize := hhanded.size_add
    rw [List.length_nil, Nat.add_zero] at hsize
    exact Nat.le_antisymm hcomes.holds.fits (hsize ▸ hfull)

/-- A run that had no room for its second candidate. -/
theorem truncated_lacks_candidate_firstSelected : Cnf.firstSelected.WellFormed ∧
    0 < (Request.covering 2 none 1).limit { allowDuplicates := true } ∧
    ∃ sample, (generate Cnf.firstSelected (.covering 2 none 1) { allowDuplicates := true } .firstFit
        Silent.silent).1 = .ok sample ∧
      sample.completion = .truncated ∧ sample.configurations.size = 1 ∧
      ∃ exprs ∈ consistentCombinations 2 [Covering.literalGroup 2],
        ∀ config ∈ sample.configurations, config.containsEach exprs = false := by
  have hcnf : Cnf.firstSelected.WellFormed := by decide
  have hlimit : 0 < (Request.covering 2 none 1).limit { allowDuplicates := true } := by decide
  obtain ⟨sample, hs, hc⟩ := exists_of_comesTo (fun sample => sample.completion == .truncated)
    (generate Cnf.firstSelected (.covering 2 none 1) { allowDuplicates := true } .firstFit
      Silent.silent).1 (by decide +kernel)
  obtain ⟨hsize, coverage, -, -, exprs, hexprs, hlacks⟩ := ensures_iff.1
    (truncated_lacks_candidate hcnf (Cnf.plan_firstSelected 1) hlimit .firstFit Silent.silent)
    sample hs (eq_of_beq hc)
  exact ⟨hcnf, hlimit, sample, hs, eq_of_beq hc, hsize, exprs, List.mem_of_getElem? hexprs, hlacks⟩

/-- A truncated sample may contain all that any solution contains: the candidate that found no room
    is not feasible here. -/
theorem truncated_although_covered : ∃ sample,
    (generate Cnf.selected (.covering 1 none 1) {} .firstFit Silent.silent).1 = .ok sample ∧
      sample.completion = .truncated ∧
      ∀ exprs ∈ consistentCombinations 1 [Covering.literalGroup 1],
        Cnf.selected.allows exprs = true →
          ∃ config ∈ sample.configurations, config.containsEach exprs = true := by
  obtain ⟨sample, hs, hp⟩ := exists_of_comesTo
    (fun sample => sample.completion == .truncated &&
      (consistentCombinations 1 [Covering.literalGroup 1]).all fun exprs =>
        !Cnf.selected.allows exprs || sample.configurations.any (·.containsEach exprs))
    (generate Cnf.selected (.covering 1 none 1) {} .firstFit Silent.silent).1
    (by decide +kernel)
  obtain ⟨hcompletion, hall⟩ := Bool.and_eq_true_iff.1 hp
  refine ⟨sample, hs, eq_of_beq hcompletion, fun exprs hexprs hallows => ?_⟩
  have hcontained := List.all_eq_true.1 hall exprs hexprs
  rw [hallows, Bool.not_true, Bool.false_or, Array.any_eq_true] at hcontained
  obtain ⟨i, hi, hcontains⟩ := hcontained
  exact ⟨_, Array.getElem_mem hi, hcontains⟩

end Reports

end ConfigSampler
