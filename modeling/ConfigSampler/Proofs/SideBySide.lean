import ConfigSampler.Proofs.RunContext
import ConfigSampler.Proofs.TighterBudgets
import ConfigSampler.Sampling.Covering
import ConfigSampler.Sampling.RandomStrategy

/-!
# Two runs side by side

The first run is never cancelled, the second may be.  Up to the first poll that stops the second run,
both are in the same state up to messages, events and limits of the solver (`Context.Beside`).  Every
operation of a strategy leads to the same result in both, unless the second run was stopped in the
course of it or the first one failed (`Follows`).
-/

set_option autoImplicit false

namespace ConfigSampler

namespace Monitor

variable {σ : Type} [Monitor σ] {m m' : σ} {k : Nat}

/-- Whatever it is told, the monitor does not ask the run to stop. -/
def NeverCancels (m : σ) : Prop := ∀ m', Leads m m' → (Monitor.poll m').1 = false

/-- Once the monitor asks the run to stop it always does, and it raises its flag only then. -/
structure Orderly (m : σ) : Prop where
  final {m' m'' : σ} : Leads m m' → (Monitor.poll m').1 = true → Leads m' m'' →
    (Monitor.poll m'').1 = true
  honest {m' : σ} : Leads m m' → Monitor.flag? m' = some true → (Monitor.poll m').1 = true

/-- The monitor was told of so many accepted configurations, and it let the run go on with every
    poll. -/
inductive GoesOn (m : σ) : Nat → σ → Prop
  | start : GoesOn m 0 m
  | announce {k : Nat} {m' : σ} (work : Nat) :
    GoesOn m k m' → GoesOn m k (Monitor.announce m' work).1
  | worked {k : Nat} {m' : σ} (work : Nat) : GoesOn m k m' → GoesOn m k (Monitor.worked m' work).1
  | accepted {k : Nat} {m' : σ} : GoesOn m k m' → GoesOn m (k + 1) (Monitor.step m').1
  | poll {k : Nat} {m' : σ} : GoesOn m k m' → (Monitor.poll m').1 = false →
    GoesOn m k (Monitor.poll m').2
  | elapse {k : Nat} {m' : σ} (looks : Nat) : GoesOn m k m' → GoesOn m k (Monitor.elapse m' looks)

/-- A poll stopped the run after so many accepted configurations.  Since then the monitor was polled
    only, so nothing more was accepted. -/
inductive Stopped (m : σ) : Nat → σ → Prop
  | first {k : Nat} {m' : σ} : GoesOn m k m' → (Monitor.poll m').1 = true →
    Stopped m k (Monitor.poll m').2
  | again {k : Nat} {m' : σ} : Stopped m k m' → Stopped m k (Monitor.poll m').2

/-- So many configurations were accepted, none of them after a poll stopped the run. -/
def Heeded (m : σ) (k : Nat) (m' : σ) : Prop := GoesOn m k m' ∨ Stopped m k m'

theorem GoesOn.leads (h : GoesOn m k m') : Leads m m' := by
  induction h with
  | start => exact .refl m
  | announce work _ ih => exact ih.announce work
  | worked work _ ih => exact ih.worked work
  | accepted _ ih => exact ih.step
  | poll _ _ ih => exact ih.poll
  | elapse looks _ ih => exact ih.elapse looks

theorem Stopped.leads (h : Stopped m k m') : Leads m m' := by
  induction h with
  | first h _ => exact h.leads.poll
  | again _ ih => exact ih.poll

theorem Stopped.poll (hm : Orderly m) (h : Stopped m k m') : (Monitor.poll m').1 = true := by
  induction h with
  | first h hstop => exact hm.final h.leads hstop (Leads.refl _).poll
  | again h ih => exact hm.final h.leads ih (Leads.refl _).poll

/-- A monitor whose flag is raised by the time that solves have looked at it so often; from then on it
    asks the run to stop. -/
structure Alarm where
  left : Nat
deriving DecidableEq, Repr

/-- The alarm has gone off. -/
def Alarm.rings (m : Alarm) : Bool := m.left == 0

instance : Monitor Alarm where
  announce m _ := (m, #[])
  worked m _ := (m, #[])
  poll m := (m.rings, m)
  flag? m := some m.rings
  elapse m looks := ⟨m.left - looks⟩

theorem orderly_alarm (left : Nat) : Orderly (⟨left⟩ : Alarm) where
  final := by
    intro m' m'' _ hstop hl
    refine hl.keeps (P := fun m : Alarm => m.rings = true) (fun _ _ hm => hm) (fun _ _ hm => hm)
      (fun _ hm => hm) (fun _ hm => hm) (fun m looks hm => ?_) hstop
    have hzero : m.left = 0 := eq_of_beq hm
    show (m.left - looks == 0) = true
    rw [hzero, Nat.zero_sub]
    rfl
  honest _ hflag := Option.some.inj hflag

end Monitor

section Contexts

variable {S σ τ : Type} [SatSolver S] [Monitor σ]

/-- The monitor tells what an interrupted solve counts as. -/
theorem Context.solve_of_interrupted {cx : Context S σ} {assumptions : List Int}
    (hcut : (cx.ask assumptions).1 = .ok .interrupted) :
    ∃ c : Context S σ, c.monitor = (Monitor.poll (cx.ask assumptions).2.monitor).2 ∧
      cx.solve assumptions = (if (Monitor.poll (cx.ask assumptions).2.monitor).1 then .ok .cancelled
        else .error .budgetExhausted, c) := by
  unfold Context.solve
  generalize cx.ask assumptions = out at hcut ⊢
  obtain ⟨result, c⟩ := out
  obtain rfl : result = .ok .interrupted := hcut
  refine ⟨c.poll.2, rfl, ?_⟩
  rw [← show c.poll.1 = (Monitor.poll c.monitor).1 from rfl]
  dsimp only
  rcases c.poll with ⟨stop, c⟩
  cases stop <;> rfl

variable [LawfulSatSolver S] [ComparableSolver S] [Monitor τ] {m : τ} {k : Nat} {cx : Context S σ}
  {cx' : Context S τ}

/-- Two runs in the same state, of which the second may be stopped by the monitor `m` and did not find
    it so far.  Only a flag that the monitor raises may interrupt a solve of the second. -/
structure Context.Beside (m : τ) (k : Nat) (cx : Context S σ) (cx' : Context S τ) : Prop where
  alike : ComparableSolver.Alike cx.solver cx'.solver
  rand : cx'.rand = cx.rand
  neverCancels : Monitor.NeverCancels cx.monitor
  goesOn : Monitor.GoesOn m k cx'.monitor
  unlimited : LawfulSatSolver.Unlimited cx'.solver

namespace Context.Beside

theorem report (h : cx.Beside m k cx') (event event' : Event) :
    (cx.report event).Beside m k (cx'.report event') :=
  ⟨h.alike, h.rand, h.neverCancels, h.goesOn, h.unlimited⟩

theorem redraw (h : cx.Beside m k cx') (rand : Random) :
    Context.Beside m k { cx with rand := rand } { cx' with rand := rand } :=
  ⟨h.alike, rfl, h.neverCancels, h.goesOn, h.unlimited⟩

theorem announce (h : cx.Beside m k cx') (work : Nat) :
    (cx.announce work).Beside m k (cx'.announce work) :=
  { h with
    neverCancels := fun _ hl => h.neverCancels _ (((Monitor.Leads.refl _).announce work).trans hl)
    goesOn := h.goesOn.announce work }

theorem worked (h : cx.Beside m k cx') (work : Nat) :
    (cx.worked work).Beside m k (cx'.worked work) :=
  { h with
    neverCancels := fun _ hl => h.neverCancels _ (((Monitor.Leads.refl _).worked work).trans hl)
    goesOn := h.goesOn.worked work }

/-- The report of an accepted configuration. -/
theorem accepted (h : cx.Beside m k cx') : cx.step.Beside m (k + 1) cx'.step :=
  { h with
    neverCancels := fun _ hl => h.neverCancels _ ((Monitor.Leads.refl _).step.trans hl)
    goesOn := h.goesOn.accepted }

/-- The first run goes on with every poll; the second goes on too, or is stopped. -/
theorem poll (h : cx.Beside m k cx') : cx.poll.1 = false ∧
    (cx'.poll.1 = false ∧ cx.poll.2.Beside m k cx'.poll.2 ∨
      cx'.poll.1 = true ∧ Monitor.Stopped m k cx'.poll.2.monitor) := by
  refine ⟨h.neverCancels _ (.refl _), ?_⟩
  cases hpoll : cx'.poll.1 with
  | false =>
    refine .inl ⟨rfl, h.alike, h.rand, ?_, h.goesOn.poll hpoll, h.unlimited⟩
    exact fun _ hl => h.neverCancels _ ((Monitor.Leads.refl _).poll.trans hl)
  | true => exact .inr ⟨rfl, .first h.goesOn hpoll⟩

theorem setPolarity (h : cx.Beside m k cx') (polarity : Polarity) :
    Context.Beside m k { cx with solver := SatSolver.setPolarity cx.solver polarity }
      { cx' with solver := SatSolver.setPolarity cx'.solver polarity } :=
  ⟨ComparableSolver.setPolarity polarity h.alike, h.rand, h.neverCancels, h.goesOn,
    LawfulSatSolver.unlimited_setPolarity polarity h.unlimited⟩

theorem shuffle (h : cx.Beside m k cx') : cx.shuffle.Beside m k cx'.shuffle := by
  obtain ⟨hrand, halike⟩ := ComparableSolver.shuffle cx.rand h.alike
  have hunlimited := LawfulSatSolver.unlimited_shuffle cx'.rand h.unlimited
  have hsame := h.rand
  obtain ⟨solver, rand, monitor, journal⟩ := cx
  obtain ⟨solver', rand', monitor', journal'⟩ := cx'
  dsimp only at hsame
  subst hsame
  exact ⟨halike, hrand, h.neverCancels, h.goesOn, hunlimited⟩

/-- A clause has the same effect in both runs. -/
theorem addClause (h : cx.Beside m k cx') (lits : List Int) :
    (cx'.addClause lits).1 = (cx.addClause lits).1 ∧
      (cx.addClause lits).2.Beside m k (cx'.addClause lits).2 := by
  obtain ⟨hresult, halike⟩ := ComparableSolver.addClause lits h.alike
  exact ⟨hresult, ComparableSolver.takeEvents halike, h.rand, h.neverCancels, h.goesOn,
    LawfulSatSolver.unlimited_takeEvents (LawfulSatSolver.unlimited_addClause lits h.unlimited)⟩

/-- **The solver gives the same answer in both runs**, unless it is interrupted. -/
theorem ask (h : cx.Beside m k cx') (assumptions : List Int) :
    (cx'.ask assumptions).1 = (cx.ask assumptions).1 ∧
        (cx.ask assumptions).2.Beside m k (cx'.ask assumptions).2 ∨
      (cx.ask assumptions).1 = .ok .interrupted ∨ (cx'.ask assumptions).1 = .ok .interrupted := by
  rcases ComparableSolver.solve (Monitor.sharedFlag cx.monitor) (Monitor.sharedFlag cx'.monitor)
    assumptions h.alike with ⟨hresult, halike⟩ | hcut
  · refine .inl ⟨hresult, ComparableSolver.takeEvents halike, h.rand, fun _ hl => ?_,
      h.goesOn.elapse _, ?_⟩
    · exact h.neverCancels _ (((Monitor.Leads.refl _).elapse _).trans hl)
    · exact LawfulSatSolver.unlimited_takeEvents
        (LawfulSatSolver.unlimited_solve _ assumptions h.unlimited)
  · exact .inr hcut

/-- A solve of the second run is interrupted only if its last look found the flag raised, and then the
    monitor asks the run to stop. -/
theorem stops_of_interrupted (hm : Monitor.Orderly m) (h : cx.Beside m k cx')
    {assumptions : List Int} (hcut : (cx'.ask assumptions).1 = .ok .interrupted) :
    (Monitor.poll (cx'.ask assumptions).2.monitor).1 = true := by
  have hstopped := LawfulSatSolver.solve_interrupted h.unlimited hcut
  exact hm.honest (h.goesOn.elapse _).leads (Monitor.flag_raised_of_stoppedBy hstopped)

/-- **A solve** has the same answer in both runs, unless it is interrupted. -/
theorem solve (hm : Monitor.Orderly m) (h : cx.Beside m k cx') (assumptions : List Int) :
    (∃ answer cx₁ cx₁', cx.solve assumptions = (answer, cx₁) ∧
      cx'.solve assumptions = (answer, cx₁') ∧ cx₁.Beside m k cx₁') ∨
    (∃ e cx₁, cx.solve assumptions = (.error e, cx₁)) ∨
    ∃ cx₁', cx'.solve assumptions = (.ok .cancelled, cx₁') ∧
      Monitor.Stopped m k cx₁'.monitor := by
  have hasked := h.ask assumptions
  by_cases hcut : (cx.ask assumptions).1 = .ok .interrupted
  · -- an interrupted solve fails in the first run, which is not cancelled
    obtain ⟨c, -, hsolve⟩ := Context.solve_of_interrupted hcut
    have hgoesOn : (Monitor.poll (cx.ask assumptions).2.monitor).1 = false :=
      h.neverCancels _ ((Monitor.Leads.refl _).elapse _)
    rw [hgoesOn] at hsolve
    exact .inr (.inl ⟨_, _, hsolve⟩)
  by_cases hcut' : (cx'.ask assumptions).1 = .ok .interrupted
  · have hstop := h.stops_of_interrupted hm hcut'
    obtain ⟨c, hc, hsolve⟩ := Context.solve_of_interrupted hcut'
    rw [hstop] at hsolve
    refine .inr (.inr ⟨_, hsolve, ?_⟩)
    rw [hc]
    exact .first (h.goesOn.elapse _) hstop
  obtain ⟨hsame, hafter⟩ := hasked.resolve_right fun hor => hor.elim hcut hcut'
  unfold Context.solve
  generalize cx.ask assumptions = out at hcut hsame hafter ⊢
  generalize cx'.ask assumptions = out' at hsame hafter ⊢
  obtain ⟨result, c⟩ := out
  obtain ⟨result', c'⟩ := out'
  obtain rfl : result' = result := hsame
  cases result' with
  | error e => exact .inl ⟨_, _, _, rfl, rfl, hafter⟩
  | ok answer =>
    cases answer with
    | interrupted => exact absurd rfl hcut
    | _ => exact .inl ⟨_, _, _, rfl, rfl, hafter⟩

end Context.Beside

/-! ## Strategies -/

/-- What an operation comes to in either run.  If the second run was stopped in the course of it, it
    comes to `cut` there. -/
inductive Follows {α G : Type} (m : τ) (k : Nat) (cut : α) :
    Except SampleError α × G × Context S σ → Except SampleError α × G × Context S τ → Prop
  | inStep {result : Except SampleError α} {g : G} {cx : Context S σ} {cx' : Context S τ}
    (h : cx.Beside m k cx') : Follows m k cut (result, g, cx) (result, g, cx')
  /-- The first run failed. -/
  | failed {e : SampleError} {g : G} {cx : Context S σ}
    {out' : Except SampleError α × G × Context S τ} : Follows m k cut (.error e, g, cx) out'
  | stopped {out : Except SampleError α × G × Context S σ} {g' : G} {cx' : Context S τ}
    (h : Monitor.Stopped m k cx'.monitor) : Follows m k cut out (.ok cut, g', cx')

theorem RandomStrategy.step_follows (hm : Monitor.Orderly m) (g : RandomStrategy)
    (h : cx.Beside m k cx') : Follows m k .pending (g.step cx) (g.step cx') := by
  unfold step
  split
  · exact .inStep h
  have hprepared : (prepare cx).Beside m k (prepare cx') := (h.setPolarity .random).shuffle
  rcases hprepared.solve hm [] with ⟨answer, cx₁, cx₁', he, he', h₁⟩ | ⟨e, cx₁, he⟩ | ⟨cx₁', he', hstop⟩
  · rw [he, he']
    rcases answer with e | answer
    · exact .inStep h₁
    · cases answer <;> exact .inStep h₁
  · rw [he]
    exact .failed
  · rw [he']
    exact .stopped hstop

namespace Covering

variable {g : Covering} {u : LiteralSet}

/-- Both runs try the working configurations in the same order. -/
theorem extensionOrder_beside (g : Covering) (h : cx.Beside m k cx') :
    (g.extensionOrder cx').1 = (g.extensionOrder cx).1 ∧
      (g.extensionOrder cx).2.Beside m k (g.extensionOrder cx').2 := by
  unfold extensionOrder
  dsimp only
  split
  · exact ⟨rfl, h⟩
  · exact ⟨rfl, h⟩
  · rw [h.rand]
    exact ⟨rfl, h.redraw _⟩

theorem extendAny_follows (hm : Monitor.Orderly m) (g : Covering) (u : LiteralSet) :
    ∀ (order : List Nat) {cx : Context S σ} {cx' : Context S τ}, cx.Beside m k cx' →
      Follows m k .interrupted (extendAny u order g cx) (extendAny u order g cx') := by
  intro order
  induction order with
  | nil => exact fun h => .inStep h
  | cons i rest ih =>
    intro cx cx' h
    unfold extendAny
    dsimp only
    split
    · exact ih h
    rcases h.solve hm ((g.workingAt i).kept.union u).literals with
      ⟨answer, cx₁, cx₁', he, he', h₁⟩ | ⟨e, cx₁, he⟩ | ⟨cx₁', he', hstop⟩
    · rw [he, he']
      rcases answer with e | answer
      · exact .inStep h₁
      · cases answer with
        | noModel => exact ih h₁
        | _ => exact .inStep h₁
    · rw [he]
      exact .failed
    · rw [he']
      exact .stopped hstop

theorem openWorking_follows (hm : Monitor.Orderly m) (g : Covering) (h : cx.Beside m k cx')
    (u : LiteralSet) : Follows m k .interrupted (g.openWorking cx u) (g.openWorking cx' u) := by
  unfold openWorking
  split
  · exact .inStep h
  rcases h.solve hm u.literals with
    ⟨answer, cx₁, cx₁', he, he', h₁⟩ | ⟨e, cx₁, he⟩ | ⟨cx₁', he', hstop⟩
  · rw [he, he']
    rcases answer with e | answer
    · exact .inStep h₁
    · cases answer with
      | cancelled => exact .inStep h₁
      | _ => exact .inStep (h₁.report _ _)
  · rw [he]
    exact .failed
  · rw [he']
    exact .stopped hstop

theorem cover_follows (hm : Monitor.Orderly m) (g : Covering) (h : cx.Beside m k cx')
    (u : LiteralSet) : Follows m k .interrupted (g.cover cx u) (g.cover cx' u) := by
  unfold cover
  split
  · exact .inStep h
  unfold coverNew
  obtain ⟨horder, h₁⟩ := extensionOrder_beside g h
  generalize g.extensionOrder cx = out at horder h₁ ⊢
  generalize g.extensionOrder cx' = out' at horder h₁ ⊢
  obtain ⟨order, cx₁⟩ := out
  obtain ⟨order', cx₁'⟩ := out'
  obtain rfl : order' = order := horder
  dsimp only
  split
  · exact .inStep h₁
  have hextend := extendAny_follows hm g u order' h₁
  generalize extendAny u order' g cx₁ = out at hextend ⊢
  generalize extendAny u order' g cx₁' = out' at hextend ⊢
  cases hextend with
  | @inStep result g cx₂ cx₂' h₂ =>
    rcases result with e | answer
    · exact .inStep h₂
    · cases answer with
      | impossible => exact openWorking_follows hm g h₂ u
      | _ => exact .inStep h₂
  | failed => exact .failed
  | stopped hstop => exact .stopped hstop

theorem coverStep_follows (hm : Monitor.Orderly m) (g : Covering) (h : cx.Beside m k cx') :
    Follows m k .pending (g.coverStep cx) (g.coverStep cx') := by
  unfold coverStep
  split
  · exact .inStep ((h.report _ _).announce _)
  rename_i u g₁ _
  have hcover := cover_follows hm g₁ h u
  generalize g₁.cover cx u = out at hcover ⊢
  generalize g₁.cover cx' u = out' at hcover ⊢
  cases hcover with
  | @inStep result g₂ cx₂ cx₂' h₂ =>
    rcases result with e | outcome
    · exact .inStep h₂
    · cases outcome with
      | interrupted => exact .inStep h₂
      | settled =>
        dsimp only
        split
        · exact .inStep h₂
        · exact .inStep (h₂.worked 1)
  | failed => exact .failed
  | stopped hstop => exact .stopped hstop

theorem emitStep_follows (hm : Monitor.Orderly m) (g : Covering) (settings : SampleSettings)
    (accepted : Array LiteralSet) (h : cx.Beside m k cx') (w : Working) (rest : List Working) :
    Follows m k .pending (g.emitStep settings accepted cx w rest)
      (g.emitStep settings accepted cx' w rest) := by
  unfold emitStep
  dsimp only
  split
  · exact .inStep h
  rcases h.solve hm w.kept.literals with
    ⟨answer, cx₁, cx₁', he, he', h₁⟩ | ⟨e, cx₁, he⟩ | ⟨cx₁', he', hstop⟩
  · rw [he, he']
    rcases answer with e | answer
    · exact .inStep h₁
    · cases answer <;> exact .inStep h₁
  · rw [he]
    exact .failed
  · rw [he']
    exact .stopped hstop

theorem step_follows (hm : Monitor.Orderly m) (g : Covering) (settings : SampleSettings)
    (accepted : Array LiteralSet) (h : cx.Beside m k cx') :
    Follows m k .pending (g.step settings accepted cx) (g.step settings accepted cx') := by
  unfold step
  rw [ComparableSolver.isContradicted h.alike]
  split
  · exact .inStep h
  split
  · exact .inStep h
  split
  · exact coverStep_follows hm g h
  · exact .inStep h
  · exact emitStep_follows hm g settings accepted h _ _

end Covering

end Contexts

/-- A strategy whose steps do not depend on how many of them may be made, and come to the same in a run
    that may be stopped. -/
structure Strategy.Steady (G : Type) [Strategy G] : Prop where
  stepLimit {S σ : Type} [SatSolver S] [Monitor σ] (g : G) (settings : SampleSettings) (steps : Nat)
    (accepted : Array LiteralSet) (cx : Context S σ) :
    Strategy.step g { settings with stepLimit := steps } accepted cx =
      Strategy.step g settings accepted cx
  follows {S σ τ : Type} [SatSolver S] [LawfulSatSolver S] [ComparableSolver S] [Monitor σ]
    [Monitor τ] {m : τ} {k : Nat} {cx : Context S σ} {cx' : Context S τ} (hm : Monitor.Orderly m)
    (g : G) (settings : SampleSettings) (accepted : Array LiteralSet) (h : cx.Beside m k cx') :
    Follows m k .pending (Strategy.step g settings accepted cx)
      (Strategy.step g settings accepted cx')

theorem RandomStrategy.steady : Strategy.Steady RandomStrategy where
  stepLimit _ _ _ _ _ := rfl
  follows hm g _ _ h := step_follows hm g h

theorem Covering.steady : Strategy.Steady Covering where
  stepLimit _ _ _ _ _ := rfl
  follows hm g settings accepted h := step_follows hm g settings accepted h

end ConfigSampler
