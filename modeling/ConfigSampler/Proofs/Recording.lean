import ConfigSampler.Proofs.ReportedWork
import ConfigSampler.Sampling.Request

/-!
# Recording changes nothing

A run with a recorder is the run with the monitor that the recorder passes everything on to: both make
the same steps and come to the same result (`generate_recorded`).  So what a recorder writes down is
what any monitor is told.
-/

set_option autoImplicit false

namespace ConfigSampler

open Monitor

variable {S G σ α : Type}

/-- The context without the recorder. -/
def Context.bare (cx : Context S (Recorder σ)) : Context S σ :=
  ⟨cx.solver, cx.rand, cx.monitor.inner, cx.journal⟩

/-- What an operation comes to without the recorder. -/
def bareOutcome : α × G × Context S (Recorder σ) → α × G × Context S σ
  | (result, g, cx) => (result, g, cx.bare)

namespace Context

variable (cx : Context S (Recorder σ))

theorem bare_addClause [SatSolver S] (lits : List Int) :
    cx.bare.addClause lits = ((cx.addClause lits).1, (cx.addClause lits).2.bare) := rfl

variable [Monitor σ]

theorem bare_poll : cx.bare.poll = (cx.poll.1, cx.poll.2.bare) := rfl

variable [SatSolver S]

theorem bare_ask (assumptions : List Int) :
    cx.bare.ask assumptions = ((cx.ask assumptions).1, (cx.ask assumptions).2.bare) := rfl

theorem bare_solve (assumptions : List Int) :
    cx.bare.solve assumptions = ((cx.solve assumptions).1, (cx.solve assumptions).2.bare) := by
  unfold solve
  rw [bare_ask]
  rcases cx.ask assumptions with ⟨result, cx⟩
  rcases result with e | answer
  · rfl
  · cases answer with
    | interrupted =>
      dsimp only
      rw [bare_poll]
      rcases cx.poll with ⟨stop, cx⟩
      cases stop <;> rfl
    | _ => rfl

end Context

variable [SatSolver S] [Monitor σ]

theorem RandomStrategy.step_bare (g : RandomStrategy) (cx : Context S (Recorder σ)) :
    g.step cx.bare = bareOutcome (g.step cx) := by
  unfold step
  split
  · rfl
  · rw [show prepare cx.bare = (prepare cx).bare from rfl, Context.bare_solve]
    rcases (prepare cx).solve [] with ⟨result, cx⟩
    rcases result with e | answer
    · rfl
    · cases answer <;> rfl

namespace Covering

variable (g : Covering) (cx : Context S (Recorder σ)) (u : LiteralSet)

omit [SatSolver S] [Monitor σ] in
theorem extensionOrder_bare :
    g.extensionOrder cx.bare = ((g.extensionOrder cx).1, (g.extensionOrder cx).2.bare) := by
  unfold extensionOrder
  dsimp only
  split <;> rfl

theorem extendAny_bare (order : List Nat) : ∀ cx : Context S (Recorder σ),
    extendAny u order g cx.bare = bareOutcome (extendAny u order g cx) := by
  induction order with
  | nil => exact fun _ => rfl
  | cons i rest ih =>
    intro cx
    unfold extendAny
    dsimp only
    split
    · exact ih cx
    · rw [Context.bare_solve]
      rcases cx.solve ((g.workingAt i).kept.union u).literals with ⟨result, cx⟩
      rcases result with e | answer
      · rfl
      · cases answer with
        | noModel => exact ih cx
        | _ => rfl

theorem openWorking_bare :
    g.openWorking cx.bare u = bareOutcome (g.openWorking cx u) := by
  unfold openWorking
  split
  · rfl
  · rw [Context.bare_solve]
    rcases cx.solve u.literals with ⟨result, cx⟩
    rcases result with e | answer
    · rfl
    · cases answer <;> rfl

theorem cover_bare : g.cover cx.bare u = bareOutcome (g.cover cx u) := by
  unfold cover
  split
  · rfl
  unfold coverNew
  rw [extensionOrder_bare]
  rcases g.extensionOrder cx with ⟨order, cx⟩
  dsimp only
  split
  · rfl
  · rw [extendAny_bare]
    rcases extendAny u order g cx with ⟨result, g, cx⟩
    rcases result with e | extension
    · rfl
    · cases extension with
      | impossible => exact openWorking_bare g cx u
      | _ => rfl

theorem coverStep_bare : g.coverStep cx.bare = bareOutcome (g.coverStep cx) := by
  unfold coverStep
  rcases (if g.truncated then (none, g) else g.takeCandidate) with ⟨candidate, g⟩
  cases candidate with
  | none => rfl
  | some u =>
    dsimp only
    rw [cover_bare]
    rcases g.cover cx u with ⟨result, g, cx⟩
    rcases result with e | outcome
    · rfl
    · cases outcome with
      | interrupted => rfl
      | settled =>
        simp only [bareOutcome]
        split <;> rfl

theorem emitStep_bare (settings : SampleSettings) (accepted : Array LiteralSet) (w : Working)
    (rest : List Working) : g.emitStep settings accepted cx.bare w rest =
      bareOutcome (g.emitStep settings accepted cx w rest) := by
  unfold emitStep
  dsimp only
  split
  · rfl
  · rw [Context.bare_solve]
    rcases cx.solve w.kept.literals with ⟨result, cx⟩
    rcases result with e | answer
    · rfl
    · cases answer <;> rfl

theorem step_bare (settings : SampleSettings) (accepted : Array LiteralSet) :
    g.step settings accepted cx.bare = bareOutcome (g.step settings accepted cx) := by
  unfold step
  rw [show cx.bare.solver = cx.solver from rfl]
  split
  · rfl
  split
  · rfl
  split
  · exact coverStep_bare g cx
  · rfl
  · exact emitStep_bare g cx settings accepted _ _

end Covering

/-! ## Runs -/

/-- A strategy that comes to the same with a recorder and without. -/
def Strategy.Unaffected (G : Type) [Strategy G] : Prop :=
  ∀ {S σ : Type} [SatSolver S] [Monitor σ] (g : G) (settings : SampleSettings)
    (accepted : Array LiteralSet) (cx : Context S (Recorder σ)),
    Strategy.step g settings accepted cx.bare = bareOutcome (Strategy.step g settings accepted cx)

theorem RandomStrategy.unaffected : Strategy.Unaffected RandomStrategy :=
  fun g _ _ cx => step_bare g cx

theorem Covering.unaffected : Strategy.Unaffected Covering :=
  fun g settings accepted cx => step_bare g cx settings accepted

namespace Sampler

/-- The run in progress without the recorder. -/
def Progress.bare (r : Progress S G (Recorder σ)) : Progress S G σ :=
  ⟨r.strategy, r.context.bare, r.accepted⟩

variable [Strategy G] (settings : SampleSettings)

omit [Monitor σ] in
theorem exclude_bare (r : Progress S G (Recorder σ)) (config : LiteralSet) :
    exclude settings r.bare config =
      ((exclude settings r config).1, (exclude settings r config).2.bare) := by
  obtain ⟨strategy, cx, accepted⟩ := r
  unfold exclude Progress.bare
  dsimp only
  split
  · rfl
  · rw [Context.bare_addClause]
    rcases cx.addClause config.negate.literals with ⟨result, cx⟩
    rcases result with e | effect
    · rfl
    · cases effect <;> rfl

theorem acceptAll_bare (configs : List LiteralSet) : ∀ r : Progress S G (Recorder σ),
    acceptAll settings configs r.bare =
      ((acceptAll settings configs r).1, (acceptAll settings configs r).2.bare) := by
  induction configs with
  | nil => exact fun _ => rfl
  | cons config rest ih =>
    rintro ⟨strategy, cx, accepted⟩
    unfold acceptAll
    rw [show (⟨strategy, cx, accepted⟩ : Progress S G (Recorder σ)).bare =
      ⟨strategy, cx.bare, accepted⟩ from rfl]
    dsimp only
    rw [Context.bare_poll]
    rcases cx.poll with ⟨stop, cx⟩
    cases stop with
    | true => rfl
    | false =>
      dsimp only
      rw [show isFull settings (⟨strategy, cx.bare, accepted⟩ : Progress S G σ) =
        isFull settings (⟨strategy, cx, accepted⟩ : Progress S G (Recorder σ)) from rfl]
      split
      · rfl
      · rw [show take (⟨strategy, cx.bare, accepted⟩ : Progress S G σ) config =
          (take (⟨strategy, cx, accepted⟩ : Progress S G (Recorder σ)) config).bare from rfl,
          exclude_bare]
        rcases exclude settings (take (⟨strategy, cx, accepted⟩ : Progress S G (Recorder σ)) config)
          config with ⟨result, r⟩
        cases result with
        | none => exact ih r
        | some result => rfl

/-- A pass comes to the same. -/
theorem pass_bare (hG : Strategy.Unaffected G) (r : Progress S G (Recorder σ)) :
    pass settings r.bare = ((pass settings r).1, (pass settings r).2.bare) := by
  obtain ⟨strategy, cx, accepted⟩ := r
  unfold pass Progress.bare
  dsimp only
  rw [Context.bare_poll]
  rcases cx.poll with ⟨stop, cx⟩
  cases stop with
  | true => rfl
  | false =>
    dsimp only
    split
    · rfl
    · rw [hG]
      rcases Strategy.step strategy settings accepted cx with ⟨result, strategy, cx⟩
      rcases result with e | step
      · rfl
      · cases step with
        | batch configs => exact acceptAll_bare settings configs ⟨strategy, cx, accepted⟩
        | _ => rfl

theorem loop_bare (hG : Strategy.Unaffected G) (steps : Nat) : ∀ r : Progress S G (Recorder σ),
    loop settings steps r.bare = ((loop settings steps r).1, (loop settings steps r).2.bare) := by
  induction steps with
  | zero => exact fun _ => rfl
  | succ steps ih =>
    intro r
    rw [loop_succ, loop_succ, pass_bare settings hG]
    rcases pass settings r with ⟨result, r⟩
    cases result with
    | none => exact ih r
    | some result => rfl

theorem run_bare (hG : Strategy.Unaffected G) (g : Sampler S G) (recorder : Recorder σ) :
    g.run recorder.inner = ((g.run recorder).1, (g.run recorder).2.1,
      (g.run recorder).2.2.1.inner, (g.run recorder).2.2.2) := by
  obtain ⟨solver, strategy, settings, rand⟩ := g
  unfold run
  dsimp only
  rw [show (⟨strategy, Context.announce ⟨solver, rand, recorder.inner, #[]⟩
      (Strategy.workEstimate strategy settings.maxSize), #[]⟩ : Progress S G σ) =
    (⟨strategy, Context.announce ⟨solver, rand, recorder, #[]⟩
      (Strategy.workEstimate strategy settings.maxSize), #[]⟩ : Progress S G (Recorder σ)).bare
    from rfl, loop_bare settings hG]
  generalize loop settings settings.stepLimit (_ : Progress S G (Recorder σ)) = out
  obtain ⟨result, strategy, cx, accepted⟩ := out
  cases result <;> rfl

end Sampler

theorem sampleWith_recorded {G : Type} [Strategy G] (hG : Strategy.Unaffected G) (cnf : Cnf)
    (strategy : G) (settings : SampleSettings) (recorder : Recorder σ) :
    sampleWith cnf strategy settings recorder.inner =
      ((sampleWith cnf strategy settings recorder).1,
        (sampleWith cnf strategy settings recorder).2.1.inner,
        (sampleWith cnf strategy settings recorder).2.2) := by
  unfold sampleWith
  dsimp only
  rw [Sampler.run_bare hG (Sampler.start (Solver.ofCnf cnf {}) strategy settings) recorder]

theorem sampleCovering_recorded (cnf : Cnf) (strength : Nat) (policy : ExtensionPolicy)
    (groups : Option (List ExpressionGroup)) (settings : SampleSettings) (recorder : Recorder σ) :
    sampleCovering cnf strength policy groups settings recorder.inner =
      ((sampleCovering cnf strength policy groups settings recorder).1,
        (sampleCovering cnf strength policy groups settings recorder).2.1.inner,
        (sampleCovering cnf strength policy groups settings recorder).2.2) := by
  unfold sampleCovering
  split
  · rfl
  · exact sampleWith_recorded Covering.unaffected cnf _ settings recorder

/-- **A recorder changes nothing.** -/
theorem generate_recorded (cnf : Cnf) (request : Request) (settings : SampleSettings)
    (policy : ExtensionPolicy) (recorder : Recorder σ) :
    generate cnf request settings policy recorder.inner =
      ((generate cnf request settings policy recorder).1,
        (generate cnf request settings policy recorder).2.1.inner,
        (generate cnf request settings policy recorder).2.2) := by
  unfold generate
  cases request with
  | random count => exact sampleWith_recorded RandomStrategy.unaffected cnf _ _ recorder
  | covering strength groups limit => exact sampleCovering_recorded cnf strength policy groups _ recorder
  | feature name =>
    dsimp only
    split
    · rfl
    · exact sampleCovering_recorded cnf 1 policy _ settings recorder

end ConfigSampler
