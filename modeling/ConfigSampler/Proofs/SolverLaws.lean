import ConfigSampler.Proofs.SolverAnswers

/-!
# Laws of solvers

`LawfulSatSolver` lists what sampling relies on in a solver: it stands for the assignments that some
condition accepts, clauses narrow them down, nothing else changes them, and answers are right about
them.  Proofs about sampling use these laws only; `Solver` obeys them.
-/

set_option autoImplicit false

namespace ConfigSampler

/-- A solve led from the first solver to the second, and its last look found a shared flag raised. -/
def SatSolver.StoppedBy {S : Type} [SatSolver S] (flag? : Option Flag) (s s' : S) : Prop :=
  ∃ flag look, flag? = some flag ∧ flag.found look = true ∧
    SatSolver.looks s' = SatSolver.looks s + look + 1

/-- What sampling relies on in a solver. -/
class LawfulSatSolver (S : Type) [SatSolver S] where
  /-- The solver over `n` variables stands for the assignments that `F` accepts. -/
  Stands : S → Nat → (Assignment → Prop) → Prop
  /-- Nothing but a shared flag stops a solve before it comes to an answer. -/
  Unlimited : S → Prop
  change {s : S} {n : Nat} {F F' : Assignment → Prop} :
    Stands s n F → (∀ α, F' α ↔ F α) → Stands s n F'
  concerns {s : S} {n : Nat} {F : Assignment → Prop} : Stands s n F → Assignment.Concerns n F
  contradicted {s : S} {n : Nat} {F : Assignment → Prop} :
    Stands s n F → SatSolver.isContradicted s = true → ∀ α, ¬ F α
  addClause_ok {s s' : S} {n : Nat} {F : Assignment → Prop} {lits : List Int}
    {effect : ClauseEffect} : Stands s n F → SatSolver.addClause s lits = (.ok effect, s') →
    Stands s' n fun α => F α ∧ α.Satisfies lits
  addClause_contradiction {s s' : S} {n : Nat} {F : Assignment → Prop} {lits : List Int} :
    Stands s n F → SatSolver.addClause s lits = (.ok .contradiction, s') →
    ∀ α, F α → ¬ α.Satisfies lits
  addClause_error {s s' : S} {n : Nat} {F : Assignment → Prop} {lits : List Int}
    {e : SampleError} : Stands s n F → SatSolver.addClause s lits = (.error e, s') →
    Cnf.checkLiteralsWithin n lits = .error e
  solve_stands {s : S} {n : Nat} {F : Assignment → Prop} (flag? : Option Flag)
    (assumptions : List Int) : Stands s n F → Stands (SatSolver.solve s flag? assumptions).2 n F
  solve_model {s s' : S} {n : Nat} {F : Assignment → Prop} {flag? : Option Flag}
    {assumptions : List Int} {config : LiteralSet} : Stands s n F →
    SatSolver.solve s flag? assumptions = (.ok (.model config), s') →
    config.IsFull n ∧ F config.assignment ∧ ∀ x ∈ assumptions, config.contains x = true
  solve_noModel {s s' : S} {n : Nat} {F : Assignment → Prop} {flag? : Option Flag}
    {assumptions : List Int} : Stands s n F →
    SatSolver.solve s flag? assumptions = (.ok .noModel, s') →
    ∀ α, F α → ∃ x ∈ assumptions, ¬ α.Makes x
  solve_interrupted {s : S} {flag? : Option Flag} {assumptions : List Int} : Unlimited s →
    (SatSolver.solve s flag? assumptions).1 = .ok .interrupted →
    SatSolver.StoppedBy flag? s (SatSolver.solve s flag? assumptions).2
  solve_error {s s' : S} {n : Nat} {F : Assignment → Prop} {flag? : Option Flag}
    {assumptions : List Int} {e : SampleError} : Stands s n F →
    SatSolver.solve s flag? assumptions = (.error e, s') →
    Cnf.checkLiteralsWithin n assumptions = .error e
  shuffle {s : S} {n : Nat} {F : Assignment → Prop} (rand : Random) :
    Stands s n F → Stands (SatSolver.shuffle s rand).1 n F
  setPolarity {s : S} {n : Nat} {F : Assignment → Prop} (polarity : Polarity) :
    Stands s n F → Stands (SatSolver.setPolarity s polarity) n F
  takeEvents {s : S} {n : Nat} {F : Assignment → Prop} :
    Stands s n F → Stands (SatSolver.takeEvents s).2 n F
  unlimited_addClause {s : S} (lits : List Int) :
    Unlimited s → Unlimited (SatSolver.addClause s lits).2
  unlimited_solve {s : S} (flag? : Option Flag) (assumptions : List Int) :
    Unlimited s → Unlimited (SatSolver.solve s flag? assumptions).2
  unlimited_shuffle {s : S} (rand : Random) : Unlimited s → Unlimited (SatSolver.shuffle s rand).1
  unlimited_setPolarity {s : S} (polarity : Polarity) :
    Unlimited s → Unlimited (SatSolver.setPolarity s polarity)
  unlimited_takeEvents {s : S} : Unlimited s → Unlimited (SatSolver.takeEvents s).2

namespace Budget

/-- No bound is set, and no look finds the flag raised. -/
def Unlimited (b : Budget) : Prop :=
  b.conflicts = none ∧ b.propagations = none ∧ ∀ look, b.interrupted.found look = false

/-- Without limits of its own a budget is spent only when a shared flag is raised. -/
theorem Unlimited.raised {b : Budget} (h : b.Unlimited) (flag? : Option Flag)
    {look conflicts propagations : Nat}
    (hspent : ((b.sharing flag?).after look).Spent conflicts propagations) :
    ∃ flag, flag? = some flag ∧ flag.found look = true := by
  obtain ⟨hconflicts, hpropagations, hflag⟩ := h
  cases flag? with
  | none =>
    have hlowered : (b.interrupted.after look).isRaised = false := hflag look
    simp [Spent, sharing, after, hlowered, hconflicts, hpropagations] at hspent
  | some flag =>
    simp only [Spent, sharing, after, hconflicts, hpropagations, reduceCtorEq, false_and,
      exists_false, or_false] at hspent
    exact ⟨flag, rfl, hspent⟩

end Budget

namespace Solver

variable {s : Solver}

theorem budget_insert (s : Solver) (clause : List Lit) : (s.insert clause).budget = s.budget := by
  unfold insert
  split
  · split <;> rfl
  · rfl

theorem budget_addClause (s : Solver) (lits : List Int) :
    (s.addClause lits).2.budget = s.budget := by
  unfold addClause
  split
  · rfl
  · rename_i clause _
    have h := budget_insert s clause
    dsimp only
    split
    · exact h
    · exact h

/-- The budget of a new solver has no limits. -/
theorem unlimited_ofCnf (cnf : Cnf) (settings : SolverSettings) :
    (ofCnf cnf settings).budget.Unlimited := by
  have hfold : ∀ (clauses : List LiteralSet) (s : Solver), (clauses.foldl
      (fun s clause => s.insert (clause.literals.map Lit.ofInt)) s).budget = s.budget := by
    intro clauses
    induction clauses with
    | nil => intro s; rfl
    | cons clause rest ih =>
      intro s
      rw [List.foldl_cons, ih]
      exact budget_insert s _
  unfold ofCnf
  dsimp only
  rw [hfold]
  exact ⟨rfl, rfl, fun _ => rfl⟩

/-- The answer to a solve with a shared flag is that of the solver that has this flag for its own. -/
theorem Stands.solveSharing {n : Nat} {F : Assignment → Prop} (h : s.Stands n F)
    (flag? : Option Flag) (assumptions : List Int) :
    Solves (s.withBudget fun b => b.sharing flag?) n F assumptions
      ((s.withBudget fun b => b.sharing flag?).solve assumptions).2
      (s.solveSharing flag? assumptions).1 :=
  (h.withBudget fun b => b.sharing flag?).solve assumptions

/-- **The solver obeys the laws**: in place of its clauses only the assignments that satisfy them
    matter. -/
instance : LawfulSatSolver Solver where
  Stands := Stands
  Unlimited s := s.budget.Unlimited
  change h hF := h.change hF
  concerns h := h.concerns
  contradicted h hc := h.contradicted (by simpa [SatSolver.isContradicted, isContradicted] using hc)
  addClause_ok := by
    intro s s' n F lits effect h he
    have hadds := h.addClause lits
    rw [show s.addClause lits = _ from he] at hadds
    exact hadds.2.1
  addClause_contradiction := by
    intro s s' n F lits h he α hα hsat
    have hadds := h.addClause lits
    rw [show s.addClause lits = _ from he] at hadds
    obtain ⟨-, hstands, hiff⟩ := hadds
    exact hstands.contradicted (hiff.1 rfl) α ⟨hα, hsat⟩
  addClause_error := by
    intro s s' n F lits e h he
    have hadds := h.addClause lits
    rw [show s.addClause lits = _ from he] at hadds
    exact hadds.2
  solve_stands := by
    intro s n F flag? assumptions h
    have hsolves := h.solveSharing flag? assumptions
    show (s.solveSharing flag? assumptions).2.Stands n F
    unfold solveSharing at hsolves ⊢
    dsimp only at hsolves ⊢
    generalize (s.withBudget fun b => b.sharing flag?).solve assumptions = out at hsolves ⊢
    obtain ⟨answer, s'⟩ := out
    apply Stands.withBudget
    cases answer with
    | error e =>
      obtain ⟨hsame, -⟩ := hsolves
      rw [hsame]
      exact h.withBudget _
    | ok answer => exact hsolves.2.1
  solve_model := by
    intro s s' n F flag? assumptions config h he
    have hsolves := h.solveSharing flag? assumptions
    rw [show (s.solveSharing flag? assumptions).1 = _ from congrArg Prod.fst he] at hsolves
    obtain ⟨-, -, -, hfull, hF, hassumed, -⟩ := hsolves
    exact ⟨hfull, hF, hassumed⟩
  solve_noModel := by
    intro s s' n F flag? assumptions h he
    have hsolves := h.solveSharing flag? assumptions
    rw [show (s.solveSharing flag? assumptions).1 = _ from congrArg Prod.fst he] at hsolves
    exact hsolves.2.2.2
  solve_interrupted := by
    intro s flag? assumptions hfree hcut
    obtain ⟨look, hlooks, hspent⟩ :=
      exhausts_of_interrupted (s := s.withBudget fun b => b.sharing flag?) hcut
    obtain ⟨flag, hflag, hraised⟩ := Budget.Unlimited.raised hfree flag? hspent
    exact ⟨flag, look, hflag, hraised, hlooks⟩
  solve_error := by
    intro s s' n F flag? assumptions e h he
    have hsolves := h.solveSharing flag? assumptions
    rw [show (s.solveSharing flag? assumptions).1 = _ from congrArg Prod.fst he] at hsolves
    exact hsolves.2
  shuffle rand h := h.shuffle rand
  setPolarity polarity h := h.setPolarity polarity
  takeEvents h := h.takeEvents
  unlimited_addClause := by
    intro s lits h
    show (s.addClause lits).2.budget.Unlimited
    rw [budget_addClause]
    exact h
  unlimited_solve _ _ h := h
  unlimited_shuffle rand h := h
  unlimited_setPolarity polarity h := h
  unlimited_takeEvents h := h

end Solver

end ConfigSampler
