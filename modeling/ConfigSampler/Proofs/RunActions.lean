import ConfigSampler.Proofs.FullSets
import ConfigSampler.Proofs.Passes
import ConfigSampler.Proofs.Samples

/-!
# What the driver of a run does

A run is a sequence of single actions of its driver (`Sampler.Performs`): it asks the monitor, asks the
strategy for a step, accepts a configuration, reports work and excludes what was accepted.  At each
moment the accepted configurations, the reported work and the added clauses belong together
(`Sampler.Tally`), whatever the strategy, the solver and the monitor do, and the last actions decide the
status of the run (`Sampler.Ending`).

Principal result: `Sampler.run_conduct`.
-/

set_option autoImplicit false

namespace ConfigSampler

theorem LiteralSet.literals_negate (s : LiteralSet) :
    s.negate.literals = s.literals.map fun x => -x := by
  simp only [literals, negate, Array.toList_map, List.filter_map]
  congr 1
  refine List.filter_congr fun x _ => ?_
  simp

namespace Sampler

variable {S G σ : Type} [SatSolver S] [Strategy G] [Monitor σ]

/-! ## Actions -/

/-- An action of the driver. -/
inductive Action where
  /-- The monitor was asked whether the run is to stop. -/
  | polled (stop : Bool)
  /-- The strategy made a step. -/
  | stepped (step : Step)
  | accepted (config : LiteralSet)
  /-- The unit of work for an accepted configuration was reported. -/
  | reported
  /-- A clause was added to the solver. -/
  | added (lits : List Int) (effect : ClauseEffect)
  | noted (event : Event)

namespace Action

/-- The configurations that the strategy yields. -/
def batch : Action → List LiteralSet
  | stepped (.batch configs) => configs
  | _ => []

/-- The configuration that is accepted. -/
def config? : Action → Option LiteralSet
  | accepted config => some config
  | _ => none

/-- The work that is reported. -/
def units? : Action → Option Nat
  | reported => some 1
  | _ => none

/-- The clause that is added. -/
def clause? : Action → Option (List Int)
  | added lits _ => some lits
  | _ => none

/-- The action neither stops the run nor finds that no configuration is left. -/
def IsQuiet (a : Action) : Prop := a ≠ polled true ∧ ∀ lits, a ≠ added lits .contradiction

end Action

/-- What an action does to a run, and under which condition it is made. -/
inductive Performs (settings : SampleSettings) :
    Progress S G σ → List Action → Progress S G σ → Prop
  | nil (r : Progress S G σ) : Performs settings r [] r
  | polled {r : Progress S G σ} {actions : List Action} {strategy : G} {cx cx' : Context S σ}
    {accepted : Array LiteralSet} {stop : Bool}
    (h : Performs settings r actions ⟨strategy, cx, accepted⟩) (hpoll : cx.poll = (stop, cx')) :
    Performs settings r (actions ++ [.polled stop]) ⟨strategy, cx', accepted⟩
  | stepped {r : Progress S G σ} {actions : List Action} {strategy strategy' : G}
    {cx cx' : Context S σ} {accepted : Array LiteralSet} {step : Step}
    (h : Performs settings r actions ⟨strategy, cx, accepted⟩)
    (hstep : Strategy.step strategy settings accepted cx = (.ok step, strategy', cx')) :
    Performs settings r (actions ++ [.stepped step]) ⟨strategy', cx', accepted⟩
  | accepted {r : Progress S G σ} {actions : List Action} {strategy : G} {cx : Context S σ}
    {accepted : Array LiteralSet} (config : LiteralSet)
    (h : Performs settings r actions ⟨strategy, cx, accepted⟩) :
    Performs settings r (actions ++ [.accepted config]) ⟨strategy, cx, accepted.push config⟩
  | reported {r : Progress S G σ} {actions : List Action} {strategy : G} {cx : Context S σ}
    {accepted : Array LiteralSet} (h : Performs settings r actions ⟨strategy, cx, accepted⟩) :
    Performs settings r (actions ++ [.reported]) ⟨strategy, cx.step, accepted⟩
  | added {r : Progress S G σ} {actions : List Action} {strategy : G} {cx cx' : Context S σ}
    {accepted : Array LiteralSet} {lits : List Int} {effect : ClauseEffect}
    (h : Performs settings r actions ⟨strategy, cx, accepted⟩)
    (hadd : cx.addClause lits = (.ok effect, cx')) :
    Performs settings r (actions ++ [.added lits effect]) ⟨strategy, cx', accepted⟩
  | noted {r : Progress S G σ} {actions : List Action} {strategy : G} {cx : Context S σ}
    {accepted : Array LiteralSet} (event : Event)
    (h : Performs settings r actions ⟨strategy, cx, accepted⟩) :
    Performs settings r (actions ++ [.noted event]) ⟨strategy, cx.report event, accepted⟩

variable {settings : SampleSettings} {actions before : List Action} {a : Action}
  {configs rest : List LiteralSet} {config : LiteralSet} {finished completion : Completion}
  {r r' : Progress S G σ}

/-! ## What actions amount to -/

/-- The clauses that exclude the configurations, none if duplicates are allowed. -/
def exclusions (settings : SampleSettings) (configs : List LiteralSet) : List (List Int) :=
  if settings.allowDuplicates then [] else configs.map fun config => config.literals.map fun x => -x

/-- The actions accepted `configs`, with one unit of work and one clause for each of them, and `rest`
    is what the strategy yielded in addition. -/
structure Tally (settings : SampleSettings) (actions : List Action)
    (configs rest : List LiteralSet) : Prop where
  batches : actions.flatMap Action.batch = configs ++ rest
  accepted : actions.filterMap Action.config? = configs
  worked : actions.filterMap Action.units? = List.replicate configs.length 1
  added : actions.filterMap Action.clause? = exclusions settings configs
  size : configs.length ≤ settings.maxSize

theorem tally_nil (settings : SampleSettings) : Tally settings [] [] [] := by
  refine ⟨rfl, rfl, rfl, ?_, Nat.zero_le _⟩
  simp [exclusions]

theorem exclusions_append (settings : SampleSettings) (configs more : List LiteralSet) :
    exclusions settings (configs ++ more) =
      exclusions settings configs ++ exclusions settings more := by
  unfold exclusions
  split
  · rfl
  · exact List.map_append

/-- More actions, which accept the next ones of the configurations that are left or that they yield. -/
theorem Tally.append (h : Tally settings actions configs rest) (more : List Action)
    (left : List LiteralSet)
    (hleft : rest ++ more.flatMap Action.batch = more.filterMap Action.config? ++ left)
    (hworked : more.filterMap Action.units? =
      List.replicate (more.filterMap Action.config?).length 1)
    (hadded : more.filterMap Action.clause? =
      exclusions settings (more.filterMap Action.config?))
    (hsize : configs.length + (more.filterMap Action.config?).length ≤ settings.maxSize) :
    Tally settings (actions ++ more) (configs ++ more.filterMap Action.config?) left where
  batches := by rw [List.flatMap_append, h.batches, List.append_assoc, hleft, List.append_assoc]
  accepted := by rw [List.filterMap_append, h.accepted]
  worked := by
    rw [List.filterMap_append, h.worked, hworked, List.length_append, List.replicate_add]
  added := by rw [List.filterMap_append, h.added, hadded, exclusions_append]
  size := by rwa [List.length_append]

/-- An action that is neither a batch nor part of an acceptance. -/
theorem Tally.idle (h : Tally settings actions configs rest) (hbatch : a.batch = [])
    (hconfig : a.config? = none) (hunits : a.units? = none) (hclause : a.clause? = none) :
    Tally settings (actions ++ [a]) configs rest := by
  have happend := h.append [a] rest (by simp [hbatch, hconfig]) (by simp [hunits, hconfig])
    (by simp [hclause, hconfig, exclusions]) (by simpa [hconfig] using h.size)
  simpa [hconfig] using happend

/-- The strategy yields configurations. -/
theorem Tally.yield (h : Tally settings actions configs []) (more : List LiteralSet) :
    Tally settings (actions ++ [.stepped (.batch more)]) configs more := by
  have happend := h.append [.stepped (.batch more)] more
  rw [show [Action.stepped (.batch more)].filterMap Action.config? = [] from rfl,
    List.append_nil] at happend
  refine happend ?_ rfl (by simp [exclusions, Action.clause?]) h.size
  exact List.append_nil more

/-- The actions by which a configuration is accepted. -/
def acceptance (config : LiteralSet) : List Action :=
  [.noted (.accepted config), .accepted config, .reported]

/-- The next configuration is accepted, and excluded unless duplicates are allowed. -/
theorem Tally.accept (h : Tally settings actions configs (config :: rest))
    (exclusion : List Action) (hroom : configs.length < settings.maxSize)
    (hexclusion : settings.allowDuplicates = true ∧ exclusion = [] ∨
      settings.allowDuplicates = false ∧
        ∃ effect, exclusion = [.added config.negate.literals effect]) :
    Tally settings (actions ++ (acceptance config ++ exclusion)) (configs ++ [config]) rest := by
  have htaken : (acceptance config ++ exclusion).filterMap Action.config? = [config] := by
    rcases hexclusion with ⟨-, rfl⟩ | ⟨-, effect, rfl⟩ <;> rfl
  have happend := h.append (acceptance config ++ exclusion) rest
  rw [htaken] at happend
  rcases hexclusion with ⟨hallow, rfl⟩ | ⟨hallow, effect, rfl⟩
  · have hnone : exclusions settings [config] = [] := by simp [exclusions, hallow]
    exact happend (List.append_nil _) rfl hnone.symm hroom
  · have hone : exclusions settings [config] = [config.negate.literals] := by
      simp [exclusions, hallow, LiteralSet.literals_negate]
    exact happend (List.append_nil _) rfl hone.symm hroom

/-! ## How a run ends -/

/-- So far nothing stopped the run, and some configuration may be left. -/
def Quiet (actions : List Action) : Prop := ∀ a ∈ actions, a.IsQuiet

theorem Quiet.append (h : Quiet actions) (ha : Quiet before) : Quiet (actions ++ before) := by
  intro a hmem
  rcases List.mem_append.1 hmem with hmem | hmem
  · exact h a hmem
  · exact ha a hmem

theorem quiet_singleton (ha : a.IsQuiet) : Quiet [a] := by
  simpa [Quiet] using ha

theorem Quiet.not_stopped (h : Quiet actions) : .polled true ∉ actions :=
  fun hmem => (h _ hmem).1 rfl

theorem Quiet.not_contradictory (h : Quiet actions) (lits : List Int) :
    .added lits .contradiction ∉ actions :=
  fun hmem => (h _ hmem).2 lits rfl

theorem quiet_acceptance (config : LiteralSet) : Quiet (acceptance config) := by
  simp [Quiet, acceptance, Action.IsQuiet]

/-- The ways a run ends, after `configs` were accepted and with `rest` yielded in addition, and the
    status it ends with. -/
inductive Ending (settings : SampleSettings) (finished : Completion)
    (configs rest : List LiteralSet) : List Action → Completion → Prop
  | cancelled {before : List Action} (h : Quiet before) :
    Ending settings finished configs rest (before ++ [.polled true]) .cancelled
  | full {actions : List Action} (h : Quiet actions) (hfull : settings.maxSize ≤ configs.length) :
    Ending settings finished configs rest actions finished
  | done {actions : List Action} (h : Quiet actions) (hrest : rest = []) :
    Ending settings finished configs rest actions finished
  | exhausted {actions : List Action} (h : Quiet actions) (hrest : rest = [])
    (hroom : configs.length < settings.maxSize) :
    Ending settings finished configs rest actions .exhausted
  | noneLeft {before : List Action} (h : Quiet before) (lits : List Int) (event : Event) :
    Ending settings finished configs rest
      (before ++ [.added lits .contradiction, .noted event])
      (if settings.maxSize ≤ configs.length then finished else .exhausted)

/-- The conduct of a driver that accepted `configs` and ended with the given status. -/
structure Conduct (settings : SampleSettings) (finished : Completion) (actions : List Action)
    (configs : List LiteralSet) (completion : Completion) : Prop where
  /-- The sample has the first configurations that the strategy yielded. -/
  begins : configs <+: actions.flatMap Action.batch
  size : configs.length ≤ settings.maxSize
  accepted : actions.filterMap Action.config? = configs
  worked : actions.filterMap Action.units? = List.replicate configs.length 1
  added : actions.filterMap Action.clause? = exclusions settings configs
  /-- It lacks some of them only for one of three reasons. -/
  proper : configs ≠ actions.flatMap Action.batch → settings.maxSize ≤ configs.length ∨
    .polled true ∈ actions ∨ ∃ lits, .added lits .contradiction ∈ actions
  /-- Nothing is accepted after a contradiction. -/
  contradiction : ∀ lits, .added lits .contradiction ∈ actions →
    (∃ before event, actions = before ++ [.added lits .contradiction, .noted event]) ∧
    completion = if settings.maxSize ≤ configs.length then finished else .exhausted
  cancelled : (∀ lits, .added lits .contradiction ∉ actions) → .polled true ∈ actions →
    completion = .cancelled
  full : (∀ lits, .added lits .contradiction ∉ actions) → .polled true ∉ actions →
    settings.maxSize ≤ configs.length → completion = finished

/-- **The way a run ends decides its status**, and why configurations are lacking. -/
theorem Ending.conduct (h : Ending settings finished configs rest actions completion)
    (ht : Tally settings actions configs rest) :
    Conduct settings finished actions configs completion where
  begins := ht.batches ▸ List.prefix_append _ _
  size := ht.size
  accepted := ht.accepted
  worked := ht.worked
  added := ht.added
  proper := by
    intro hne
    have hrest : rest ≠ [] := by
      rintro rfl
      rw [ht.batches, List.append_nil] at hne
      exact hne rfl
    cases h with
    | cancelled => exact .inr (.inl (by simp))
    | full _ hfull => exact .inl hfull
    | done _ hnone => exact absurd hnone hrest
    | exhausted _ hnone => exact absurd hnone hrest
    | noneLeft _ lits => exact .inr (.inr ⟨lits, by simp⟩)
  contradiction := by
    intro lits hmem
    cases h with
    | cancelled hquiet =>
      have := hquiet.not_contradictory lits
      simp_all
    | full hquiet => exact absurd hmem (hquiet.not_contradictory lits)
    | done hquiet => exact absurd hmem (hquiet.not_contradictory lits)
    | exhausted hquiet => exact absurd hmem (hquiet.not_contradictory lits)
    | noneLeft hquiet lits' event =>
      obtain rfl : lits = lits' := by
        have := hquiet.not_contradictory lits
        simp_all
      exact ⟨⟨_, event, rfl⟩, rfl⟩
  cancelled := by
    intro hnone hmem
    cases h with
    | cancelled => rfl
    | full hquiet => exact absurd hmem hquiet.not_stopped
    | done hquiet => exact absurd hmem hquiet.not_stopped
    | exhausted hquiet => exact absurd hmem hquiet.not_stopped
    | noneLeft _ lits => exact absurd (by simp) (hnone lits)
  full := by
    intro hnone hnot hfull
    cases h with
    | cancelled => simp at hnot
    | full => rfl
    | done => rfl
    | exhausted _ _ hroom => omega
    | noneLeft _ lits => exact absurd (by simp) (hnone lits)

/-! ## Runs -/

/-- Actions that did not end the run lead to this point, where `rest` is what the strategy yielded in
    addition. -/
def Reaches (settings : SampleSettings) (start : Progress S G σ) (rest : List LiteralSet)
    (r : Progress S G σ) : Prop :=
  ∃ actions, Performs settings start actions r ∧ Quiet actions ∧
    Tally settings actions r.accepted.toList rest

/-- The run goes on from here: all that the strategy yielded was accepted, or the sample is full. -/
def Ongoing (settings : SampleSettings) (start r : Progress S G σ) : Prop :=
  ∃ rest, Reaches settings start rest r ∧ (rest = [] ∨ settings.maxSize ≤ r.accepted.size)

/-- The run has ended, with an error or as its last actions say. -/
def Ended (settings : SampleSettings) (start : Progress S G σ)
    (result : Except SampleError Completion) (r : Progress S G σ) : Prop :=
  ∀ completion, result = .ok completion → ∃ actions, Performs settings start actions r ∧
    Conduct settings (Strategy.finished r.strategy) actions r.accepted.toList completion

theorem ended_error {start : Progress S G σ} (e : SampleError) (r : Progress S G σ) :
    Ended settings start (.error e) r := fun _ h => nomatch h

section

variable {start : Progress S G σ} {strategy strategy' : G} {cx cx' : Context S σ}
  {accepted : Array LiteralSet} {step : Step}

/-- The monitor stops the run. -/
theorem Reaches.stopped (h : Reaches settings start rest ⟨strategy, cx, accepted⟩)
    (hpoll : cx.poll = (true, cx')) :
    Ended settings start (.ok .cancelled) ⟨strategy, cx', accepted⟩ := by
  obtain ⟨actions, hruns, hquiet, htally⟩ := h
  intro completion hcompletion
  cases hcompletion
  exact ⟨_, hruns.polled hpoll, (Ending.cancelled hquiet).conduct (htally.idle rfl rfl rfl rfl)⟩

/-- The monitor lets the run go on. -/
theorem Reaches.polled (h : Reaches settings start rest ⟨strategy, cx, accepted⟩)
    (hpoll : cx.poll = (false, cx')) :
    Reaches settings start rest ⟨strategy, cx', accepted⟩ := by
  obtain ⟨actions, hruns, hquiet, htally⟩ := h
  exact ⟨_, hruns.polled hpoll, hquiet.append (quiet_singleton (by simp [Action.IsQuiet])),
    htally.idle rfl rfl rfl rfl⟩

/-- The strategy makes a step after all that it yielded before was accepted. -/
theorem Reaches.stepped (h : Reaches settings start [] ⟨strategy, cx, accepted⟩)
    (hstep : Strategy.step strategy settings accepted cx = (.ok step, strategy', cx')) :
    Reaches settings start (Action.stepped step).batch ⟨strategy', cx', accepted⟩ := by
  obtain ⟨actions, hruns, hquiet, htally⟩ := h
  refine ⟨_, hruns.stepped hstep, hquiet.append (quiet_singleton (by simp [Action.IsQuiet])), ?_⟩
  cases step with
  | batch configs => exact htally.yield configs
  | pending => exact htally.idle rfl rfl rfl rfl
  | done => exact htally.idle rfl rfl rfl rfl
  | exhausted => exact htally.idle rfl rfl rfl rfl

/-- The run ends after quiet actions. -/
theorem Reaches.ended (h : Reaches settings start rest ⟨strategy, cx, accepted⟩)
    (hend : ∀ actions, Quiet actions →
      Ending settings (Strategy.finished strategy) accepted.toList rest actions completion) :
    Ended settings start (.ok completion) ⟨strategy, cx, accepted⟩ := by
  obtain ⟨actions, hruns, hquiet, htally⟩ := h
  intro completion' hcompletion
  cases hcompletion
  exact ⟨actions, hruns, (hend actions hquiet).conduct htally⟩

/-- **The next configuration is accepted**, and excluded unless duplicates are allowed; if that leaves
    none, the run ends. -/
theorem Reaches.accept (h : Reaches settings start (config :: rest) ⟨strategy, cx, accepted⟩)
    (hroom : accepted.size < settings.maxSize) :
    Turns (Reaches settings start rest) (Ended settings start)
      (exclude settings (take (⟨strategy, cx, accepted⟩ : Progress S G σ) config) config) := by
  obtain ⟨actions, hruns, hquiet, htally⟩ := h
  have hsize : accepted.toList.length < settings.maxSize := hroom
  have hpush : (accepted.push config).toList = accepted.toList ++ [config] := Array.toList_push
  have htaken : Performs settings start (actions ++ acceptance config)
      ⟨strategy, (cx.report (.accepted config)).step, accepted.push config⟩ := by
    simpa [acceptance] using ((hruns.noted (.accepted config)).accepted config).reported
  have hquiet' : Quiet (actions ++ acceptance config) := hquiet.append (quiet_acceptance config)
  unfold take exclude
  dsimp only
  split
  · rename_i hallow
    refine ⟨_, htaken, hquiet', ?_⟩
    rw [hpush, ← List.append_nil (acceptance config)]
    exact htally.accept [] hsize (.inl ⟨hallow, rfl⟩)
  · rename_i hallow
    have htally' : ∀ effect, Tally settings
        (actions ++ acceptance config ++ [.added config.negate.literals effect])
        (accepted.push config).toList rest := by
      intro effect
      rw [hpush, List.append_assoc]
      exact htally.accept _ hsize (.inr ⟨by simpa using hallow, effect, rfl⟩)
    split
    · exact ended_error _ _
    · rename_i hadd
      exact ⟨_, htaken.added hadd, hquiet'.append (quiet_singleton (by simp [Action.IsQuiet])),
        htally' .consistent⟩
    · rename_i cx' hadd
      have hnoted := (htaken.added hadd).noted (.noneLeft (accepted.push config).size)
      have hending : Ending settings (Strategy.finished strategy) (accepted.push config).toList rest
          _ _ := .noneLeft hquiet' config.negate.literals (.noneLeft (accepted.push config).size)
      have htally'' := (htally' .contradiction).idle (a := .noted (.noneLeft (accepted.push config).size))
        rfl rfl rfl rfl
      rw [List.append_assoc] at hnoted htally''
      intro completion hcompletion
      obtain rfl : completion = if settings.maxSize ≤ (accepted.push config).toList.length then
          Strategy.finished strategy else .exhausted := by
        cases hcompletion
        simp [isFull]
      exact ⟨_, hnoted, hending.conduct htally''⟩

end

/-- **A batch is accepted** up to the point where the run is stopped, the sample is full, or no
    configuration is left. -/
theorem acceptAll_rule {start : Progress S G σ} : ∀ (configs : List LiteralSet)
    (r : Progress S G σ), Reaches settings start configs r →
    Turns (Ongoing settings start) (Ended settings start) (acceptAll settings configs r)
  | [], _, h => ⟨[], h, .inl rfl⟩
  | config :: rest, ⟨strategy, cx, accepted⟩, h => by
    unfold acceptAll
    dsimp only
    split
    · rename_i hpoll
      exact h.stopped hpoll
    rename_i cx' hpoll
    have hpolled := h.polled hpoll
    split
    · rename_i hfull
      exact ⟨_, hpolled, .inr (by simpa [isFull] using hfull)⟩
    rename_i hroom
    have haccept := hpolled.accept (by simpa [isFull] using hroom)
    split <;> rename_i he <;> rw [he] at haccept
    · exact haccept
    · exact acceptAll_rule rest _ haccept

/-- **A pass goes on or ends the run** as its last actions say. -/
theorem pass_rule {start : Progress S G σ} (r : Progress S G σ) (h : Ongoing settings start r) :
    Turns (Ongoing settings start) (Ended settings start) (pass settings r) := by
  obtain ⟨rest, hreaches, hrest⟩ := h
  obtain ⟨strategy, cx, accepted⟩ := r
  unfold pass
  dsimp only
  split
  · rename_i hpoll
    exact hreaches.stopped hpoll
  rename_i cx' hpoll
  have hpolled := hreaches.polled hpoll
  split
  · rename_i hfull
    exact hpolled.ended fun _ hquiet => .full hquiet (by simpa using hfull)
  rename_i hroom
  obtain rfl : rest = [] := hrest.resolve_right hroom
  split <;> rename_i hstep
  · exact ended_error _ _
  · exact ⟨[], hpolled.stepped hstep, .inl rfl⟩
  · exact (hpolled.stepped hstep).ended fun _ hquiet => .done hquiet rfl
  · exact (hpolled.stepped hstep).ended fun _ hquiet =>
      .exhausted hquiet rfl (by simpa using hroom)
  · exact acceptAll_rule _ _ (hpolled.stepped hstep)

/-- The run before its first pass, when the work was announced. -/
def announced (g : Sampler S G) (monitor : σ) : Progress S G σ :=
  ⟨g.strategy, Context.announce ⟨g.solver, g.rand, monitor, #[]⟩
    (Strategy.workEstimate g.strategy g.settings.maxSize), #[]⟩

/-- **The conduct of a run**, whatever the strategy yields, the solver answers and the monitor asks for:
    the sample has the first configurations that the strategy yielded, one unit of work was reported for
    each of them, and the clauses of their complements and no others were added to the solver, unless
    duplicates are allowed.  The status is that of the last actions. -/
theorem run_conduct (g : Sampler S G) (monitor : σ) {sample : Sample} {g' : Sampler S G}
    {monitor' : σ} {journal : Journal} (h : g.run monitor = (.ok sample, g', monitor', journal)) :
    ∃ actions r, Performs g.settings (g.announced monitor) actions r ∧
      sample.configurations = r.accepted ∧ sample.coverage = Strategy.coverage r.strategy ∧
      g' = ⟨r.context.solver, r.strategy, g.settings, r.context.rand⟩ ∧
      monitor' = r.context.monitor ∧
      Conduct g.settings (Strategy.finished g'.strategy) actions sample.configurations.toList
        sample.completion := by
  have hloop := loop_rule (I := fun _ => Ongoing g.settings (g.announced monitor))
    (fun r _ => ended_error .stepLimitReached r) (fun _ => pass_rule) g.settings.stepLimit
    (g.announced monitor) ⟨[], ⟨[], .nil _, by simp [Quiet], tally_nil _⟩, .inl rfl⟩
  obtain ⟨solver, strategy, settings, rand⟩ := g
  unfold run at h
  unfold announced at hloop
  dsimp only at h hloop
  split at h <;> rename_i he <;> rw [he] at hloop
  · cases h
  · cases h
    obtain ⟨actions, hperforms, hconduct⟩ := hloop _ rfl
    exact ⟨actions, _, hperforms, rfl, rfl, rfl, rfl, hconduct⟩

/-- A strategy that makes given steps, one after the other. -/
structure Scripted where
  steps : List Step

instance : Strategy Scripted where
  workEstimate _ max := max
  step g _ _ cx :=
    match g.steps with
    | [] => (.ok .done, g, cx)
    | step :: rest => (.ok step, ⟨rest⟩, cx)
  finished _ := .complete
  coverage _ := none

/-- One variable without clauses, and a batch with both solutions and one of them again: the second one
    leaves no configuration, and the third is not accepted. -/
def bothAndAgain : Sampler Solver Scripted :=
  .start (Solver.ofCnf (Cnf.ofVariables (Variables.anonymous 1)) {})
    ⟨[.pending, .batch [⟨.indexed, #[1]⟩, ⟨.indexed, #[-1]⟩, ⟨.indexed, #[1]⟩]]⟩
    { maxSize := 3 }

theorem run_conduct_both_and_again : ∃ sample g' journal,
    bothAndAgain.run Silent.silent = (.ok sample, g', Silent.silent, journal) ∧
    sample.configurations.toList = [⟨.indexed, #[1]⟩, ⟨.indexed, #[-1]⟩] ∧
    sample.completion = .exhausted ∧
    ∃ actions, Conduct bothAndAgain.settings (Strategy.finished g'.strategy) actions
      sample.configurations.toList sample.completion := by
  obtain ⟨sample, hs, hp⟩ := exists_of_comesTo (fun sample =>
    sample.configurations.toList == [⟨.indexed, #[1]⟩, ⟨.indexed, #[-1]⟩] &&
      sample.completion == .exhausted) (bothAndAgain.run Silent.silent).1 (by decide +kernel)
  have hrun : bothAndAgain.run Silent.silent = (.ok sample, _, _, _) := Prod.ext hs rfl
  obtain ⟨actions, -, -, -, -, -, -, hconduct⟩ := run_conduct bothAndAgain Silent.silent hrun
  simp only [Bool.and_eq_true, beq_iff_eq] at hp
  exact ⟨sample, _, _, hrun, hp.1, hp.2, actions, hconduct⟩

end Sampler

end ConfigSampler
