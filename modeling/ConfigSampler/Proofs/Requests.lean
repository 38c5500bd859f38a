import ConfigSampler.Proofs.CandidateTotals
import ConfigSampler.Proofs.CoveringSteps
import ConfigSampler.Proofs.RandomSamples

/-!
# What requests yield

Every configuration of a sample is a solution of the formula, whatever was requested and however the
run ended (`sample_valid`).  A covering run that was neither truncated nor cancelled has every
combination that was asked for in its sample, if some solution has it (`covering_sample_covers`).
-/

set_option autoImplicit false

namespace ConfigSampler

open LiteralSet

namespace Covering

variable {cnf : Cnf} {groups : List ExpressionGroup} {t maxConfigs : Nat} {policy : ExtensionPolicy}
  {given : Option (List ExpressionGroup)} {g : Covering}

theorem literals_singleton {x y : Int} (h : y ∈ (ofList [x]).literals) : y = x := by
  simpa using (mem_literals_ofList.1 h).1

/-- The group of all literals has those of the first `n` variables. -/
theorem mem_literalGroup {n : Nat} {e : LiteralSet} : e ∈ literalGroup n ↔
    ∃ v, 0 < v ∧ v ≤ n ∧ (e = ofList [(v : Int)] ∨ e = ofList [-(v : Int)]) := by
  simp only [literalGroup, List.mem_toArray, List.mem_flatMap, List.mem_range, List.mem_cons,
    List.not_mem_nil, or_false]
  constructor
  · rintro ⟨i, hi, he⟩
    exact ⟨i + 1, Nat.succ_pos i, hi, by simpa using he⟩
  · rintro ⟨v, hv, hle, he⟩
    refine ⟨v - 1, by omega, ?_⟩
    rwa [show ((v - 1 : Nat) : Int) + 1 = v by omega]

/-- The groups that are combined have literals of the formula only. -/
theorem groupsWithin_resolveGroups (h : resolveGroups cnf given = .ok groups) :
    GroupsWithin cnf.size groups := by
  unfold resolveGroups at h
  split at h
  · cases h
    intro group hgroup e he x hx
    obtain rfl : group = literalGroup cnf.size := by simpa using hgroup
    obtain ⟨v, hv, hle, rfl | rfl⟩ := mem_literalGroup.1 he
    · rw [literals_singleton hx]
      simpa using hle
    · rw [literals_singleton hx]
      simpa using hle
  · dsimp only at h
    split at h
    · rename_i hcheck
      cases h
      intro group hgroup e he x hx
      refine (Cnf.checkLiteralsWithin_eq_ok.1 hcheck x ?_).2
      exact List.mem_flatMap.2 ⟨group, hgroup, List.mem_flatMap.2 ⟨e, by simpa using he, hx⟩⟩
    · cases h

theorem resolveGroups_eq (h : resolveGroups cnf given = .ok groups) :
    groups = given.getD [literalGroup cnf.size] := by
  unfold resolveGroups at h
  split at h
  · cases h
    rfl
  · dsimp only at h
    split at h <;> cases h
    rfl

/-- A covering run starts with all candidates ahead. -/
theorem start_spec {settings : SampleSettings} {F : Assignment → Prop}
    (h : start cnf t policy given settings.maxSize = .ok g) :
    0 < t ∧ GroupsWithin cnf.size (given.getD [literalGroup cnf.size]) ∧
      (contract t cnf.size (given.getD [literalGroup cnf.size]) settings F).Inv g #[] := by
  unfold start at h
  split at h
  · cases h
  rename_i ht
  have hpos : 0 < t := Nat.pos_of_ne_zero ht
  split at h
  · cases h
  rename_i groups hgroups
  cases h
  rw [← resolveGroups_eq hgroups]
  refine ⟨hpos, groupsWithin_resolveGroups hgroups, ?_⟩
  have hready := Cursor.ready_start hpos groups
  refine ⟨rfl, fun h0 htruncated u hu hfeasible => ?_, fun _ => ⟨rfl, ?_⟩, fun queue hq => nomatch hq⟩
  · -- without room for a configuration the candidates were counted
    obtain ⟨group, hgroup, qs, hchoice, rfl⟩ := hu
    have hcount := candidateTotal_pos hgroup hchoice hfeasible.not_contradictory
    simp [startCoverage, h0] at htruncated
    omega
  · refine ⟨hready, fun u hu => (Cursor.offers_start hpos).1 hu, (fun u hu => nomatch hu),
      ⟨Nat.zero_le _, fun w hw => by simp at hw⟩, fun _ u hu _ => ?_⟩
    exact .inl ((Cursor.offers_start hpos).2 hu)

end Covering

variable {σ : Type} [Monitor σ] {cnf : Cnf} {sample : Sample}

theorem covering_concludes (hcnf : cnf.WellFormed) {t : Nat} {policy : ExtensionPolicy}
    {given : Option (List ExpressionGroup)} {settings : SampleSettings} {monitor : σ}
    (h : (sampleCovering cnf t policy given settings monitor).1 = .ok sample) :
    GroupsWithin cnf.size (given.getD [Covering.literalGroup cnf.size]) ∧ Sampler.Concludes
      (Covering.contract t cnf.size (given.getD [Covering.literalGroup cnf.size]) settings cnf.Models)
      (Monitor.NeverStops monitor) settings cnf.size cnf.Models (.ok sample) := by
  unfold sampleCovering at h
  split at h
  · cases h
  · rename_i strategy hstart
    obtain ⟨ht, hwithin, hinv⟩ := Covering.start_spec hstart
    rw [← h]
    exact ⟨hwithin, sampleWith_spec hcnf (Covering.contract_kept ht hwithin) hinv monitor⟩

/-- What is collected for any request, with the size limit that applies to it. -/
theorem holds_of_generate (hcnf : cnf.WellFormed) {request : Request} {settings : SampleSettings}
    {policy : ExtensionPolicy} {monitor : σ}
    (h : (generate cnf request settings policy monitor).1 = .ok sample) :
    ∃ maxSize, SampleSettings.Holds { settings with maxSize := maxSize } cnf.size cnf.Models
      sample.configurations := by
  unfold generate at h
  split at h
  · rename_i count
    have hconcludes := random_concludes hcnf count settings policy monitor
    rw [show (generate cnf (.random count) settings policy monitor).1 = .ok sample from h] at hconcludes
    obtain ⟨g, -, hends⟩ := hconcludes
    exact ⟨_, hends.cases_ok.1⟩
  · obtain ⟨-, g, -, hends⟩ := covering_concludes hcnf h
    exact ⟨_, hends.cases_ok.1⟩
  · split at h
    · cases h
    · obtain ⟨-, g, -, hends⟩ := covering_concludes hcnf h
      exact ⟨_, hends.cases_ok.1⟩

/-- The configurations are full sets that satisfy the formula, and no two are the same unless
    duplicates are allowed. -/
structure Sample.Valid (sample : Sample) (cnf : Cnf) (allowDuplicates : Bool) : Prop where
  full : ∀ config ∈ sample.configurations, config.IsFull cnf.size
  satisfies : ∀ config ∈ sample.configurations, cnf.isSatisfiedBy config = true
  distinct : allowDuplicates = false → sample.configurations.toList.Nodup

/-- **Every sample is valid**, whatever was requested and however the run ended. -/
theorem sample_valid (hcnf : cnf.WellFormed) (request : Request) (settings : SampleSettings)
    (policy : ExtensionPolicy) (monitor : σ) :
    Ensures (fun sample => sample.Valid cnf settings.allowDuplicates)
      (generate cnf request settings policy monitor).1 := by
  rw [ensures_iff]
  intro sample h
  obtain ⟨maxSize, hholds⟩ := holds_of_generate hcnf h
  have hsolution : ∀ config ∈ sample.configurations, config ∈ cnf.solutions :=
    fun config hc => hholds.mem_solutions hcnf hc
  refine ⟨fun config hc => ?_, fun config hc => ?_, hholds.distinct⟩
  · exact (Cnf.mem_solutions.1 (hsolution config hc)).1
  · exact (Cnf.mem_solutions.1 (hsolution config hc)).2

/-- A sample that covers all pairs of literals is valid, under a monitor that reports progress. -/
theorem sample_valid_eitherOf : Cnf.eitherOf.WellFormed ∧
    Ensures (fun sample => sample.Valid Cnf.eitherOf false)
      (generate Cnf.eitherOf (.covering 2 none 10) {} .shuffled (ProgressLog.start false)).1 :=
  have hcnf : Cnf.eitherOf.WellFormed := by decide
  ⟨hcnf, sample_valid hcnf (.covering 2 none 10) {} .shuffled (ProgressLog.start false)⟩

/-! ## Combinations -/

/-- The combinations that a request asks for: `t` expressions of a group, each at a place of its own,
    or one literal of a feature. -/
def Request.Asks (cnf : Cnf) : Request → List LiteralSet → Prop
  | .random _, _ => False
  | .covering t (some groups) _, exprs =>
    ∃ group ∈ groups, exprs.Sublist group.toList ∧ exprs.length = t
  | .covering t none _, exprs =>
    exprs.Sublist (Covering.literalGroup cnf.size).toList ∧ exprs.length = t
  | .feature name, exprs => ∃ var, cnf.vars.indexOf name = .ok var ∧
    (exprs = [ofList [(var : Int)]] ∨ exprs = [ofList [-(var : Int)]])

/-- Some assignment satisfies the formula and makes all literals of the expressions true. -/
def Cnf.Allows (cnf : Cnf) (exprs : List LiteralSet) : Prop :=
  ∃ α, cnf.Models α ∧ ∀ e ∈ exprs, ∀ x ∈ e.literals, α.Makes x

/-- Every combination that was asked for and that the formula allows is in a configuration. -/
def Sample.Covers (sample : Sample) (cnf : Cnf) (request : Request) : Prop :=
  ∀ exprs, request.Asks cnf exprs → cnf.Allows exprs →
    ∃ config ∈ sample.configurations, ∀ e ∈ exprs, config.containsAll e = true

theorem Cnf.Allows.feasible {group : ExpressionGroup} {qs : List Nat}
    (h : cnf.Allows (group.pick qs)) : Feasible cnf.Models (unionAt group qs) := by
  obtain ⟨α, hα, hmakes⟩ := h
  refine ⟨α, hα, fun x hx => ?_⟩
  obtain ⟨e, he, hxe⟩ := mem_literals_unionAt.1 hx
  exact hmakes e he x hxe

/-- If nothing is left, the sample has every feasible set of literals of the formula. -/
theorem includes_of_none_left (hcnf : cnf.WellFormed) {settings : SampleSettings}
    {accepted : Array LiteralSet} {u : LiteralSet}
    (hnone : ∀ α, ¬ settings.Left cnf.size cnf.Models accepted α)
    (hu : Feasible cnf.Models u) (hwithin : u.Within cnf.size) :
    ∃ config ∈ accepted, config.Includes u := by
  obtain ⟨α, hα, hmakes⟩ := hu
  have hfull := isFull_ofAssignment cnf.size α
  have hsolution : ofAssignment cnf.size α ∈ cnf.solutions := by
    refine hcnf.mem_solutions_iff.2 ⟨hfull, hcnf.concerns α _ (fun v hv hle => ?_) hα⟩
    exact (assignment_ofAssignment hv hle).symm
  refine ⟨_, SampleSettings.Holds.mem_of_none_left hcnf hnone hsolution, fun x hx => ?_⟩
  rw [← hfull.contains_iff_mem, contains_ofAssignment]
  exact ⟨ne_zero_of_mem_literals hx, hwithin x hx, hmakes x hx⟩

theorem not_truncated_of_finished {g : Covering}
    (hend : sample.completion = .complete ∨ sample.completion = .exhausted)
    (h : sample.completion = Covering.finished g) : g.truncated = false := by
  unfold Covering.finished at h
  split at h
  · rcases hend with he | he <;> rw [he] at h <;> cases h
  · rename_i htruncated
    simpa using htruncated

/-- A covering run that was neither truncated nor cancelled has every feasible combination of
    expressions of one group in its sample. -/
theorem mem_of_covering (hcnf : cnf.WellFormed) {t : Nat} {policy : ExtensionPolicy}
    {given : Option (List ExpressionGroup)} {settings : SampleSettings} {monitor : σ}
    (h : (sampleCovering cnf t policy given settings monitor).1 = .ok sample)
    (hend : sample.completion = .complete ∨ sample.completion = .exhausted)
    {group : ExpressionGroup} (hgroup : group ∈ given.getD [Covering.literalGroup cnf.size])
    {exprs : List LiteralSet} (hexprs : exprs.Sublist group.toList ∧ exprs.length = t)
    (hallows : cnf.Allows exprs) :
    ∃ config ∈ sample.configurations, ∀ e ∈ exprs, config.containsAll e = true := by
  obtain ⟨qs, hchoice, rfl⟩ := exists_isChoice_iff.2 hexprs
  have hcandidate : Candidate t _ (unionAt group qs) := ⟨group, hgroup, qs, hchoice, rfl⟩
  have hfeasible := hallows.feasible
  obtain ⟨hwithin, g, -, hends⟩ := covering_concludes hcnf h
  obtain ⟨hholds, hcases⟩ := hends.cases_ok
  have hfound : ∃ config ∈ sample.configurations, config.Includes (unionAt group qs) := by
    rcases hcases with ⟨hc, -⟩ | ⟨-, hnone, -⟩ | ⟨hc, hinv, hsize⟩ | ⟨hc, hgoal⟩
    · rcases hend with he | he <;> rw [he] at hc <;> cases hc
    · exact includes_of_none_left hcnf hnone hfeasible (hcandidate.within hwithin)
    · exact Covering.goal_of_full hinv hsize (not_truncated_of_finished hend hc) _ hcandidate hfeasible
    · exact hgoal (not_truncated_of_finished hend hc) _ hcandidate hfeasible
  obtain ⟨config, hc, hincludes⟩ := hfound
  refine ⟨config, hc, fun e he => List.all_eq_true.2 fun x hx => ?_⟩
  rw [(hholds.valid config hc).1.contains_iff_mem]
  exact hincludes x (mem_literals_unionAt.2 ⟨e, he, hx⟩)

/-- **A covering run covers** all combinations that were asked for and that the formula allows, if it
    ends without truncation or cancellation. -/
theorem covering_sample_covers (hcnf : cnf.WellFormed) (request : Request)
    (settings : SampleSettings) (policy : ExtensionPolicy) (monitor : σ) :
    Ensures (fun sample => sample.completion = .complete ∨ sample.completion = .exhausted →
      sample.Covers cnf request) (generate cnf request settings policy monitor).1 := by
  rw [ensures_iff]
  intro sample h hend exprs hasks hallows
  cases request with
  | random count => exact hasks.elim
  | covering t given limit =>
    cases given with
    | none => exact mem_of_covering hcnf h hend (List.mem_singleton.2 rfl) hasks hallows
    | some groups =>
      obtain ⟨group, hgroup, hexprs⟩ := hasks
      exact mem_of_covering hcnf h hend hgroup hexprs hallows
  | feature name =>
    obtain ⟨var, hvar, hexprs⟩ := hasks
    unfold generate at h
    dsimp only at h
    rw [hvar] at h
    refine mem_of_covering hcnf h hend (List.mem_singleton.2 rfl) ⟨?_, ?_⟩ hallows
    · rcases hexprs with rfl | rfl
      · exact List.sublist_append_left _ [ofList [-(var : Int)]]
      · exact List.sublist_append_right [ofList [(var : Int)]] _
    · rcases hexprs with rfl | rfl
      · rfl
      · rfl

/-- The request for all single literals asks for the one that deselects the first variable, and the
    formula allows it, so a run that ends without truncation has it in its sample. -/
theorem covering_sample_covers_eitherOf : Cnf.eitherOf.WellFormed ∧
    (Request.covering 1 none 10).Asks Cnf.eitherOf [ofList [-1]] ∧
    Cnf.eitherOf.Allows [ofList [-1]] ∧
    Ensures (fun sample => sample.completion = .complete ∨ sample.completion = .exhausted →
        sample.Covers Cnf.eitherOf (.covering 1 none 10))
      (generate Cnf.eitherOf (.covering 1 none 10) {} .firstFit Silent.silent).1 := by
  have hcnf : Cnf.eitherOf.WellFormed := by decide
  refine ⟨hcnf, ⟨?_, rfl⟩, ⟨fun v => v == 2, ?_, ?_⟩, ?_⟩
  · rw [List.singleton_sublist, Array.mem_toList_iff]
    exact Covering.mem_literalGroup.2 ⟨1, by decide, by decide, .inr rfl⟩
  · intro clause hc
    obtain rfl : clause = [1, 2] := by simpa [Cnf.clauseList, Cnf.eitherOf, literals] using hc
    exact ⟨2, by simp, rfl⟩
  · intro e he x hx
    obtain rfl : e = ofList [-1] := by simpa using he
    rw [Covering.literals_singleton hx]
    rfl
  · exact covering_sample_covers hcnf (.covering 1 none 10) {} .firstFit Silent.silent

end ConfigSampler
