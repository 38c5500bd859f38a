import ConfigSampler.Proofs.SolverLaws

/-!
# Tighter budgets

A budget that allows less only cuts a search short.  Up to the point where it is spent the search makes
the same steps, so it comes to the same verdict in the same state, or it is interrupted
(`Search.run_of_covers`).  Solvers that differ in their limits only therefore answer alike or not at
all; `ComparableSolver` lists what two runs rely on when one of them may be stopped.
-/

set_option autoImplicit false

namespace ConfigSampler

namespace Budget

/-- Whatever the second budget allows at a look, the first allows then. -/
def Covers (b b' : Budget) : Prop :=
  ∀ look conflicts propagations, (b'.after look).within conflicts propagations = true →
    (b.after look).within conflicts propagations = true

theorem Unlimited.within {b : Budget} (h : b.Unlimited) (look conflicts propagations : Nat) :
    (b.after look).within conflicts propagations = true := by
  rw [← Bool.not_eq_false]
  intro hspent
  obtain ⟨flag, hflag, -⟩ := h.raised none (spent_of_within_eq_false hspent)
  cases hflag

theorem Unlimited.covers {b : Budget} (h : b.Unlimited) (b' : Budget) : b.Covers b' :=
  fun look conflicts propagations _ => h.within look conflicts propagations

end Budget

namespace Search

variable {query : Query} {b : Budget}

/-- **An attempt under a tighter budget** is the same attempt, or is interrupted. -/
theorem attempt_of_covers (hb : query.budget.Covers b) (conflictLimit : Nat) :
    ∀ (steps : Nat) (limit : LearntLimit) (s : Search),
      attempt { query with budget := b } conflictLimit steps limit s =
          attempt query conflictLimit steps limit s ∨
        ∃ progress, (attempt { query with budget := b } conflictLimit steps limit s).1 =
          .interrupted progress := by
  intro steps
  induction steps with
  | zero => exact fun _ _ => .inl rfl
  | succ steps ih =>
    intro limit s
    unfold attempt
    generalize stabilise (s.propagator.trail.level + 2) limit s = out
    obtain ⟨round, limit, s⟩ := out
    cases round with
    | outOfSteps => exact .inl rfl
    | contradiction => exact .inl rfl
    | stable =>
      dsimp only
      cases haffords : s.affords { query with budget := b } with
      | false => exact .inr ⟨_, rfl⟩
      | true =>
        have hcovered : s.affords query = true := hb _ _ _ haffords
        rw [hcovered]
        simp only [Bool.not_true, Bool.false_eq_true, if_false]
        split
        · exact .inl rfl
        · generalize Search.nextDecision _ query.assumptions = next
          obtain ⟨decision, s⟩ := next
          cases decision with
          | assumptionFails => exact .inl rfl
          | allAssigned => exact .inl rfl
          | decide l => exact ih limit _

theorem attempts_of_covers (hb : query.budget.Covers b) :
    ∀ (steps : Nat) (restarts : UInt32) (limit : LearntLimit) (s : Search),
      attempts { query with budget := b } steps restarts limit s =
          attempts query steps restarts limit s ∨
        ∃ progress, (attempts { query with budget := b } steps restarts limit s).1 =
          .interrupted progress := by
  intro steps
  induction steps with
  | zero => exact fun _ _ _ => .inl rfl
  | succ steps ih =>
    intro restarts limit s
    unfold attempts
    dsimp only
    rcases attempt_of_covers hb (s.conflictLimit restarts) s.settings.stepLimit limit
      { s with starts := s.starts + 1 } with hsame | ⟨progress, hcut⟩
    · rw [hsame]
      generalize attempt query _ _ limit _ = out
      obtain ⟨result, limit, s⟩ := out
      cases result with
      | restart => exact ih (restarts + 1) limit s
      | _ => exact .inl rfl
    · generalize attempt { query with budget := b } _ _ limit _ = out at hcut ⊢
      obtain ⟨result, limit, s⟩ := out
      obtain rfl : result = .interrupted progress := hcut
      exact .inr ⟨progress, rfl⟩

/-- **A search under a tighter budget** comes to the same verdict in the same state, or is
    interrupted. -/
theorem run_of_covers {b b' : Budget} (hb : b.Covers b') (s : Search) (assumptions : Array Lit) :
    s.run b' assumptions = s.run b assumptions ∨
      ∃ progress, (s.run b' assumptions).1 = .interrupted progress := by
  have hcovers : (s.question b assumptions).budget.Covers b' := hb
  unfold run
  dsimp only
  rcases attempts_of_covers hcovers
    s.settings.stepLimit 0 (LearntLimit.start s.settings.learnt s.lists.numClauses)
    { s.report (.searchStarted assumptions.size s.lists.learnts.size) with solves := s.solves + 1 }
    with hsame | hcut
  · left
    exact congrArg (fun out : Verdict × Search => (out.1, out.2.backtrack 0)) hsame
  · exact .inr hcut

end Search

/-- What is relied on when solvers are compared that may be stopped. -/
class ComparableSolver (S : Type) [SatSolver S] [LawfulSatSolver S] where
  /-- The solvers are the same up to their limits. -/
  Alike : S → S → Prop
  refl (s : S) : Alike s s
  isContradicted {s s' : S} : Alike s s' → SatSolver.isContradicted s' = SatSolver.isContradicted s
  addClause {s s' : S} (lits : List Int) : Alike s s' →
    (SatSolver.addClause s' lits).1 = (SatSolver.addClause s lits).1 ∧
      Alike (SatSolver.addClause s lits).2 (SatSolver.addClause s' lits).2
  solve {s s' : S} (flag? flag?' : Option Flag) (assumptions : List Int) : Alike s s' →
    (SatSolver.solve s' flag?' assumptions).1 = (SatSolver.solve s flag? assumptions).1 ∧
        Alike (SatSolver.solve s flag? assumptions).2 (SatSolver.solve s' flag?' assumptions).2 ∨
      (SatSolver.solve s flag? assumptions).1 = .ok .interrupted ∨
      (SatSolver.solve s' flag?' assumptions).1 = .ok .interrupted
  shuffle {s s' : S} (rand : Random) : Alike s s' →
    (SatSolver.shuffle s' rand).2 = (SatSolver.shuffle s rand).2 ∧
      Alike (SatSolver.shuffle s rand).1 (SatSolver.shuffle s' rand).1
  setPolarity {s s' : S} (polarity : Polarity) : Alike s s' →
    Alike (SatSolver.setPolarity s polarity) (SatSolver.setPolarity s' polarity)
  takeEvents {s s' : S} : Alike s s' →
    Alike (SatSolver.takeEvents s).2 (SatSolver.takeEvents s').2

namespace Solver

variable {s s' : Solver} {b b' : Budget}

/-- The solver with another budget. -/
def setBudget (s : Solver) (b : Budget) : Solver := s.withBudget fun _ => b

theorem insert_setBudget (s : Solver) (b : Budget) (clause : List Lit) :
    (s.setBudget b).insert clause = (s.insert clause).setBudget b := by
  unfold insert setBudget withBudget
  dsimp only
  split
  · split <;> rfl
  · rfl

theorem addClause_setBudget (s : Solver) (b : Budget) (lits : List Int) :
    (s.setBudget b).addClause lits = ((s.addClause lits).1, (s.addClause lits).2.setBudget b) := by
  unfold addClause
  rw [show (s.setBudget b).toLits lits = s.toLits lits from rfl]
  split
  · rfl
  · rename_i clause _
    dsimp only
    rw [insert_setBudget]
    unfold setBudget withBudget
    dsimp only
    split <;> rfl

theorem conclude_setBudget (s : Solver) (b : Budget) (verdict : Verdict) :
    (s.setBudget b).conclude verdict = (s.conclude verdict).setBudget b := by
  cases verdict <;> rfl

/-- **A solver with a tighter budget** gives the same answer in the same state, or is interrupted. -/
theorem solve_setBudget (hb : s.budget.Covers b) (assumptions : List Int) :
    (s.setBudget b).solve assumptions =
        ((s.solve assumptions).1, (s.solve assumptions).2.setBudget b) ∨
      ((s.setBudget b).solve assumptions).1 = .ok .interrupted := by
  obtain ⟨consistent, search, budget⟩ := s
  have hcovers : budget.Covers b := hb
  show solve ⟨consistent, search, b⟩ assumptions = _ ∨
    (solve ⟨consistent, search, b⟩ assumptions).1 = _
  unfold solve
  rw [show toLits ⟨consistent, search, b⟩ assumptions = toLits ⟨consistent, search, budget⟩ assumptions
    from rfl]
  split
  · exact .inl rfl
  rename_i lits _
  cases consistent with
  | false => exact .inl rfl
  | true =>
    simp only [Bool.not_true, Bool.false_eq_true, if_false]
    rcases Search.run_of_covers hcovers search lits.toArray with hsame | ⟨progress, hcut⟩
    · rw [hsame]
      exact .inl (Prod.ext rfl (conclude_setBudget ⟨true, _, budget⟩ b _))
    · rw [hcut]
      exact .inr rfl

/-- The solvers differ in their budgets only. -/
def Alike (s s' : Solver) : Prop := ∃ b, s' = s.setBudget b

/-- **Solvers that differ in their budgets** give the same answer in the same state, unless one of them
    is interrupted. -/
theorem Alike.solve (h : s.Alike s') (assumptions : List Int) :
    (s'.solve assumptions).1 = (s.solve assumptions).1 ∧
        (s.solve assumptions).2.Alike (s'.solve assumptions).2 ∨
      (s.solve assumptions).1 = .ok .interrupted ∨ (s'.solve assumptions).1 = .ok .interrupted := by
  obtain ⟨b, rfl⟩ := h
  -- both are compared with the solver that has no limits
  have hfree : Budget.Unlimited {} := ⟨rfl, rfl, fun _ => rfl⟩
  have hleft := solve_setBudget (s := s.setBudget {}) (hfree.covers s.budget) assumptions
  have hright := solve_setBudget (s := s.setBudget {}) (hfree.covers b) assumptions
  rw [show (s.setBudget {}).setBudget s.budget = s from rfl] at hleft
  rw [show (s.setBudget {}).setBudget b = s.setBudget b from rfl] at hright
  rcases hright with hright | hcut
  · rcases hleft with hleft | hcut
    · rw [hleft, hright]
      exact .inl ⟨rfl, b, rfl⟩
    · exact .inr (.inl hcut)
  · exact .inr (.inr hcut)

instance : ComparableSolver Solver where
  Alike := Alike
  refl s := ⟨s.budget, rfl⟩
  isContradicted := by
    rintro s _ ⟨b, rfl⟩
    rfl
  addClause := by
    rintro s _ lits ⟨b, rfl⟩
    show ((s.setBudget b).addClause lits).1 = _ ∧ Alike _ ((s.setBudget b).addClause lits).2
    rw [addClause_setBudget]
    exact ⟨rfl, b, rfl⟩
  solve := by
    rintro s _ flag? flag?' assumptions ⟨b, rfl⟩
    -- a shared flag makes no other difference between the solvers than their budgets do
    have halike : (s.withBudget fun own => own.sharing flag?).Alike
        ((s.setBudget b).withBudget fun own => own.sharing flag?') := ⟨_, rfl⟩
    rcases halike.solve assumptions with ⟨hsame, c, hc⟩ | hcut
    · exact .inl ⟨hsame, b, congrArg (fun s => s.setBudget b) hc⟩
    · exact .inr hcut
  shuffle := by
    rintro s _ rand ⟨b, rfl⟩
    exact ⟨rfl, b, rfl⟩
  setPolarity := by
    rintro s _ polarity ⟨b, rfl⟩
    exact ⟨b, rfl⟩
  takeEvents := by
    rintro s _ ⟨b, rfl⟩
    exact ⟨b, rfl⟩

end Solver

end ConfigSampler
