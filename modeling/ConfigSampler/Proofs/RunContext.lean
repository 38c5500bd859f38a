import ConfigSampler.Proofs.SolverLaws
import ConfigSampler.Sampling.Strategy

/-!
# The context of a run

`Context.Serves cx calm n F` says that the solver of the context stands for the assignments that `F`
accepts, and that nothing stops a solve or the run if `calm` holds.  Every operation on a context
keeps it, up to the clauses that are added, so a whole run is reasoned about once, with `calm` for
"the monitor never stops the run".
-/

set_option autoImplicit false

namespace ConfigSampler

namespace Monitor

variable {σ : Type} [Monitor σ] {m m' m'' : σ}

/-- Messages, and what others do while a solve is at work, lead from one state of a monitor to
    another. -/
inductive Leads : σ → σ → Prop
  | refl (m : σ) : Leads m m
  | announce {m m' : σ} (work : Nat) : Leads m m' → Leads m (Monitor.announce m' work).1
  | worked {m m' : σ} (work : Nat) : Leads m m' → Leads m (Monitor.worked m' work).1
  | step {m m' : σ} : Leads m m' → Leads m (Monitor.step m').1
  | poll {m m' : σ} : Leads m m' → Leads m (Monitor.poll m').2
  | elapse {m m' : σ} (looks : Nat) : Leads m m' → Leads m (Monitor.elapse m' looks)

theorem Leads.trans (h : Leads m m') (h' : Leads m' m'') : Leads m m'' := by
  induction h' with
  | refl => exact h
  | announce work _ ih => exact ih.announce work
  | worked work _ ih => exact ih.worked work
  | step _ ih => exact ih.step
  | poll _ ih => exact ih.poll
  | elapse looks _ ih => exact ih.elapse looks

/-- Whatever it is told, the monitor lets the run go on and raises no flag. -/
def NeverStops (m : σ) : Prop :=
  ∀ m', Leads m m' → (Monitor.poll m').1 = false ∧ Monitor.flag? m' ≠ some true

theorem NeverStops.of_leads (h : NeverStops m) (hl : Leads m m') : NeverStops m' :=
  fun m'' hl' => h m'' (hl.trans hl')

/-- A property that every message keeps holds of all states to come. -/
theorem Leads.keeps {P : σ → Prop} (hannounce : ∀ m work, P m → P (Monitor.announce m work).1)
    (hworked : ∀ m work, P m → P (Monitor.worked m work).1)
    (hstep : ∀ m, P m → P (Monitor.step m).1) (hpoll : ∀ m, P m → P (Monitor.poll m).2)
    (helapse : ∀ m looks, P m → P (Monitor.elapse m looks)) (h : Leads m m') (hm : P m) :
    P m' := by
  induction h with
  | refl => exact hm
  | announce work _ ih => exact hannounce _ work ih
  | worked work _ ih => exact hworked _ work ih
  | step _ ih => exact hstep _ ih
  | poll _ ih => exact hpoll _ ih
  | elapse looks _ ih => exact helapse _ looks ih

theorem neverStops_silent : NeverStops Silent.silent := by
  intro m' _
  exact ⟨rfl, fun hflag => nomatch (show (none : Option Bool) = some true from hflag)⟩

/-- A progress log that is not cancelled never stops a run. -/
theorem neverStops_start : NeverStops (ProgressLog.start false) := by
  intro m' hl
  have hcancelled : m'.cancelled = false := by
    have hworked : ∀ (m : ProgressLog) (work : Nat), m.cancelled = false →
        (m.worked work).1.cancelled = false := by
      intro m work hm
      unfold ProgressLog.worked
      dsimp only
      split
      · exact hm
      · exact hm
    exact hl.keeps (P := fun m => m.cancelled = false) (fun _ _ hm => hm) hworked
      (fun m hm => hworked m 1 hm) (fun _ hm => hm) (fun _ _ hm => hm) rfl
  refine ⟨hcancelled, fun hflag => ?_⟩
  have : m'.cancelled = true := Option.some.inj hflag
  rw [hcancelled] at this
  cases this

/-- If the last look of a solve found the shared flag raised, it is raised after the solve. -/
theorem flag_raised_of_stoppedBy {S : Type} [SatSolver S] {s s' : S}
    (h : SatSolver.StoppedBy (sharedFlag m) s s') :
    Monitor.flag? (Monitor.elapse m (SatSolver.looks s' - SatSolver.looks s)) = some true := by
  obtain ⟨flag, look, hflag, hfound, hlooks⟩ := h
  obtain ⟨-, -, rfl⟩ := Option.map_eq_some_iff.1 hflag
  rw [show SatSolver.looks s' - SatSolver.looks s = look + 1 by omega]
  exact eq_of_beq hfound

/-- A monitor that ignores all work, lets the run go on so many times when it is asked, and then stops
    it. -/
structure Countdown where
  left : Nat
deriving DecidableEq, Repr

instance : Monitor Countdown where
  announce m _ := (m, #[])
  worked m _ := (m, #[])
  poll m := (m.left == 0, ⟨m.left - 1⟩)
  flag? _ := none

end Monitor

namespace Context

variable {S σ : Type} [SatSolver S] [LawfulSatSolver S] [Monitor σ]
variable {cx : Context S σ} {calm : Prop} {n : Nat} {F F' : Assignment → Prop}

/-- The solver stands for the assignments that `F` accepts, and in a calm run nothing stops it. -/
structure Serves (cx : Context S σ) (calm : Prop) (n : Nat) (F : Assignment → Prop) : Prop where
  stands : LawfulSatSolver.Stands cx.solver n F
  unlimited : calm → LawfulSatSolver.Unlimited cx.solver
  neverStops : calm → Monitor.NeverStops cx.monitor

theorem Serves.change (h : cx.Serves calm n F) (hF : ∀ α, F' α ↔ F α) : cx.Serves calm n F' :=
  ⟨LawfulSatSolver.change h.stands hF, h.unlimited, h.neverStops⟩

theorem Serves.report (h : cx.Serves calm n F) (event : Event) :
    (cx.report event).Serves calm n F := ⟨h.stands, h.unlimited, h.neverStops⟩

theorem Serves.announce (h : cx.Serves calm n F) (work : Nat) :
    (cx.announce work).Serves calm n F :=
  ⟨h.stands, h.unlimited, fun hc => (h.neverStops hc).of_leads ((Monitor.Leads.refl _).announce work)⟩

theorem Serves.worked (h : cx.Serves calm n F) (work : Nat) : (cx.worked work).Serves calm n F :=
  ⟨h.stands, h.unlimited, fun hc => (h.neverStops hc).of_leads ((Monitor.Leads.refl _).worked work)⟩

theorem Serves.step (h : cx.Serves calm n F) : cx.step.Serves calm n F :=
  ⟨h.stands, h.unlimited, fun hc => (h.neverStops hc).of_leads (Monitor.Leads.refl _).step⟩

theorem Serves.poll (h : cx.Serves calm n F) : cx.poll.2.Serves calm n F :=
  ⟨h.stands, h.unlimited, fun hc => (h.neverStops hc).of_leads (Monitor.Leads.refl _).poll⟩

/-- A calm run is never asked to stop. -/
theorem Serves.not_calm (h : cx.Serves calm n F) (hstop : cx.poll.1 = true) : ¬ calm := by
  intro hc
  have hgoes := ((h.neverStops hc) _ (Monitor.Leads.refl _)).1
  rw [show (Monitor.poll cx.monitor).1 = true from hstop] at hgoes
  cases hgoes

theorem Serves.setPolarity (h : cx.Serves calm n F) (polarity : Polarity) :
    Serves { cx with solver := SatSolver.setPolarity cx.solver polarity } calm n F :=
  ⟨LawfulSatSolver.setPolarity polarity h.stands,
    fun hc => LawfulSatSolver.unlimited_setPolarity polarity (h.unlimited hc), h.neverStops⟩

theorem Serves.shuffle (h : cx.Serves calm n F) : cx.shuffle.Serves calm n F :=
  ⟨LawfulSatSolver.shuffle cx.rand h.stands,
    fun hc => LawfulSatSolver.unlimited_shuffle cx.rand (h.unlimited hc), h.neverStops⟩

theorem Serves.redraw (h : cx.Serves calm n F) (rand : Random) :
    Serves { cx with rand := rand } calm n F := ⟨h.stands, h.unlimited, h.neverStops⟩

/-- What is relied on when a clause was added. -/
def Adds (calm : Prop) (n : Nat) (F : Assignment → Prop) (lits : List Int) (cx : Context S σ) :
    Except SampleError ClauseEffect → Prop
  | .error e => Cnf.checkLiteralsWithin n lits = .error e
  | .ok effect => cx.Serves calm n (fun α => F α ∧ α.Satisfies lits) ∧
      (effect = .contradiction → ∀ α, F α → ¬ α.Satisfies lits)

theorem Serves.addClause (h : cx.Serves calm n F) (lits : List Int) :
    Adds calm n F lits (cx.addClause lits).2 (cx.addClause lits).1 := by
  have hfree := fun hc => LawfulSatSolver.unlimited_addClause lits (h.unlimited hc)
  unfold Context.addClause Context.withSolver
  dsimp only
  rcases he : SatSolver.addClause cx.solver lits with ⟨result, s'⟩
  rw [he] at hfree
  cases result with
  | error e => exact LawfulSatSolver.addClause_error h.stands he
  | ok effect =>
    have hadded := LawfulSatSolver.addClause_ok h.stands he
    refine ⟨⟨LawfulSatSolver.takeEvents hadded,
      fun hc => LawfulSatSolver.unlimited_takeEvents (hfree hc), h.neverStops⟩, ?_⟩
    rintro rfl
    exact LawfulSatSolver.addClause_contradiction h.stands he

/-- The answer to a solve is right about the assignments that `F` accepts and that make the
    assumptions true.  A calm run fails only when the search gives up, or because of a literal that
    belongs to no variable. -/
def Solves (calm : Prop) (n : Nat) (F : Assignment → Prop) (assumptions : List Int) :
    Except SampleError Solved → Prop
  | .ok (.model config) => config.IsFull n ∧ F config.assignment ∧
      ∀ x ∈ assumptions, config.contains x = true
  | .ok .noModel => ∀ α, F α → ∃ x ∈ assumptions, ¬ α.Makes x
  | .ok .cancelled => ¬ calm
  | .error e => calm → e = .stepLimitReached ∨ Cnf.checkLiteralsWithin n assumptions = .error e

theorem Serves.ask (h : cx.Serves calm n F) (assumptions : List Int) :
    (cx.ask assumptions).2.Serves calm n F where
  stands := LawfulSatSolver.takeEvents (LawfulSatSolver.solve_stands _ assumptions h.stands)
  unlimited hc := LawfulSatSolver.unlimited_takeEvents
    (LawfulSatSolver.unlimited_solve _ assumptions (h.unlimited hc))
  neverStops hc := (h.neverStops hc).of_leads ((Monitor.Leads.refl _).elapse _)

/-- Only a flag that is raised interrupts a solve, and in a calm run there is none. -/
theorem Serves.not_calm_of_interrupted (h : cx.Serves calm n F) {assumptions : List Int}
    (hcut : (cx.ask assumptions).1 = .ok .interrupted) : ¬ calm := by
  intro hc
  have hstopped := LawfulSatSolver.solve_interrupted (h.unlimited hc) hcut
  exact ((h.neverStops hc) _ ((Monitor.Leads.refl _).elapse _)).2
    (Monitor.flag_raised_of_stoppedBy hstopped)

/-- **A solve in a run** gives a right answer and leaves the clauses as they are. -/
theorem Serves.solve (h : cx.Serves calm n F) (assumptions : List Int) :
    (cx.solve assumptions).2.Serves calm n F ∧
      Solves calm n F assumptions (cx.solve assumptions).1 := by
  have hafter := h.ask assumptions
  have hnot : (cx.ask assumptions).1 = .ok .interrupted → ¬ calm := h.not_calm_of_interrupted
  unfold Context.solve
  rcases he : SatSolver.solve cx.solver (Monitor.sharedFlag cx.monitor) assumptions with ⟨result, s'⟩
  have hresult : (cx.ask assumptions).1 = result := congrArg Prod.fst he
  generalize cx.ask assumptions = out at hafter hnot hresult ⊢
  obtain ⟨result', cx'⟩ := out
  obtain rfl : result' = result := hresult
  cases result' with
  | error e => exact ⟨hafter, fun _ => .inr (LawfulSatSolver.solve_error h.stands he)⟩
  | ok answer =>
    cases answer with
    | model config => exact ⟨hafter, LawfulSatSolver.solve_model h.stands he⟩
    | noModel => exact ⟨hafter, LawfulSatSolver.solve_noModel h.stands he⟩
    | outOfSteps => exact ⟨hafter, fun _ => .inl rfl⟩
    | interrupted =>
      have hpolled := hafter.poll
      dsimp only
      -- the monitor decides whether this counts as cancelled
      split
      · rename_i hpoll
        rw [hpoll] at hpolled
        exact ⟨hpolled, hnot rfl⟩
      · rename_i hpoll
        rw [hpoll] at hpolled
        exact ⟨hpolled, fun hc => absurd hc (hnot rfl)⟩

end Context

end ConfigSampler
