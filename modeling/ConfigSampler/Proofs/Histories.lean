import ConfigSampler.Proofs.SolverAnswers

/-!
# Solvers after any sequence of operations

A solver that was made of a formula stands, after any operations, for the assignments that satisfy
the formula and every clause added since (`Solver.StandsFor.after`).  So every answer is right, however
many solves were made, interrupted or refused before (`answers_right_after`).
-/

set_option autoImplicit false

namespace ConfigSampler

/-- An operation on a solver. -/
inductive Call where
  | addClause (lits : List Int)
  | solve (assumptions : List Int)
  | shuffle (rand : Random)
  | setPolarity (polarity : Polarity)
  /-- Changes the bounds or the flag of the budget in any way. -/
  | withBudget (change : Budget → Budget)
  | takeEvents

namespace Call

/-- The solver after an operation. -/
def perform (s : Solver) : Call → Solver
  | addClause lits => (s.addClause lits).2
  | solve assumptions => (s.solve assumptions).2
  | shuffle rand => (s.shuffle rand).1
  | setPolarity polarity => s.setPolarity polarity
  | withBudget change => s.withBudget change
  | takeEvents => s.takeEvents.2

/-- The clause that an operation adds to a solver over `n` variables; a refused clause is none. -/
def clause? (n : Nat) : Call → Option (List Int)
  | addClause lits =>
    match Cnf.checkLiteralsWithin n lits with
    | .ok () => some lits
    | .error _ => none
  | _ => none

/-- The clauses that operations add. -/
def clauses (n : Nat) (calls : List Call) : List (List Int) := calls.filterMap (clause? n)

end Call

namespace Solver

variable {s : Solver} {n : Nat} {clauses : List (List Int)}

/-- The solver after operations, in order. -/
def after (s : Solver) (calls : List Call) : Solver := calls.foldl Call.perform s

/-- The solver stands for the assignments that satisfy the clauses. -/
def StandsFor (s : Solver) (n : Nat) (clauses : List (List Int)) : Prop :=
  s.Stands n fun α => α.SatisfiesAll clauses

theorem StandsFor.perform (h : s.StandsFor n clauses) (call : Call) :
    (call.perform s).StandsFor n (clauses ++ (call.clause? n).toList) := by
  have hsame : ∀ {s' : Solver}, s'.StandsFor n clauses → s'.StandsFor n (clauses ++ []) := by
    intro s' hs'
    rw [List.append_nil]
    exact hs'
  cases call with
  | addClause lits =>
    have hadd := Stands.addClause h lits
    show (s.addClause lits).2.StandsFor n _
    rw [Call.clause?]
    generalize s.addClause lits = out at hadd ⊢
    obtain ⟨result, s'⟩ := out
    cases result with
    | error e =>
      obtain ⟨hunchanged, hcheck⟩ := hadd
      rw [hcheck, hunchanged]
      exact hsame h
    | ok effect =>
      obtain ⟨hcheck, hstands, -⟩ := hadd
      rw [hcheck]
      exact hstands.change fun α => by simp [Assignment.SatisfiesAll, or_imp, forall_and]
  | solve assumptions =>
    have hsolve := Stands.solve h assumptions
    apply hsame
    show (s.solve assumptions).2.StandsFor n _
    generalize s.solve assumptions = out at hsolve ⊢
    obtain ⟨result, s'⟩ := out
    cases result with
    | error e =>
      rw [hsolve.1]
      exact h
    | ok answer => exact hsolve.2.1
  | shuffle rand => exact hsame (Stands.shuffle h rand)
  | setPolarity polarity => exact hsame (Stands.setPolarity h polarity)
  | withBudget change => exact hsame (Stands.withBudget h change)
  | takeEvents => exact hsame (Stands.takeEvents h)

/-- After operations a solver stands for the clauses from before and those that were added. -/
theorem StandsFor.after : ∀ (calls : List Call) {s : Solver} {clauses : List (List Int)},
    s.StandsFor n clauses → (s.after calls).StandsFor n (clauses ++ Call.clauses n calls)
  | [], s, clauses, h => by
    rw [Call.clauses, List.filterMap_nil, List.append_nil]
    exact h
  | call :: calls, s, clauses, h => by
    have hrest := StandsFor.after calls (h.perform call)
    have hclauses : clauses ++ Call.clauses n (call :: calls) =
        clauses ++ (call.clause? n).toList ++ Call.clauses n calls := by
      rw [List.append_assoc]
      unfold Call.clauses
      cases hc : call.clause? n <;> simp [hc]
    rw [hclauses]
    exact hrest

end Solver

/-! ## Answers -/

/-- The set is a full assignment that satisfies the clauses and contains the assumptions. -/
structure LiteralSet.IsModel (config : LiteralSet) (n : Nat) (clauses : List (List Int))
    (assumptions : List Int) : Prop where
  isFull : config.IsFull n
  clauses : ∀ clause ∈ clauses, ∃ x ∈ clause, config.contains x = true
  assumptions : ∀ x ∈ assumptions, config.contains x = true

/-- Some literal belongs to none of `n` variables. -/
def HasStranger (n : Nat) (lits : List Int) : Prop := ∃ x ∈ lits, x = 0 ∨ n < x.natAbs

/-- Every answer that the solver may give next is right about the clauses. -/
structure Solver.IsRight (s : Solver) (n : Nat) (clauses : List (List Int)) : Prop where
  contradicted : s.isContradicted = true → ¬ ∃ α : Assignment, α.SatisfiesAll clauses
  contradiction : ∀ lits, (s.addClause lits).1 = .ok .contradiction →
    ¬ ∃ α : Assignment, α.SatisfiesAll (clauses ++ [lits])
  refusedClause : ∀ lits e, (s.addClause lits).1 = .error e →
    HasStranger n lits ∧ (s.addClause lits).2 = s
  model : ∀ assumptions config, (s.solve assumptions).1 = .ok (.model config) →
    config.IsModel n clauses assumptions
  noModel : ∀ assumptions, (s.solve assumptions).1 = .ok .noModel →
    ¬ ∃ α : Assignment, α.SatisfiesAll clauses ∧ ∀ x ∈ assumptions, α.Makes x
  interrupted : ∀ assumptions, (s.solve assumptions).1 = .ok .interrupted →
    s.Exhausts (s.solve assumptions).2
  refusedSolve : ∀ assumptions e, (s.solve assumptions).1 = .error e →
    HasStranger n assumptions ∧ (s.solve assumptions).2 = s

theorem hasStranger_of_error {n : Nat} {lits : List Int} {e : SampleError}
    (h : Cnf.checkLiteralsWithin n lits = .error e) : HasStranger n lits := by
  obtain ⟨before, x, rest, rfl, -, hx⟩ := Cnf.checkLiteralsWithin_eq_error h
  exact ⟨x, by simp, hx.imp And.left And.left⟩

theorem Solver.StandsFor.isRight {s : Solver} {n : Nat} {clauses : List (List Int)}
    (h : s.StandsFor n clauses) (hclauses : ∀ clause ∈ clauses, ∀ x ∈ clause, x ≠ 0 ∧ x.natAbs ≤ n) :
    s.IsRight n clauses := by
  have hadd := Stands.addClause h
  have hsolve := Stands.solve h
  refine ⟨fun hc => ?_, fun lits he => ?_, fun lits e he => ?_, fun assumptions config he => ?_,
    fun assumptions he => ?_, fun assumptions he => ?_, fun assumptions e he => ?_⟩
  · rintro ⟨α, hα⟩
    exact h.contradicted (by simpa [Solver.isContradicted] using hc) α hα
  · rintro ⟨α, hα⟩
    have hlits := hadd lits
    rw [he] at hlits
    obtain ⟨-, hstands, hiff⟩ := hlits
    apply hstands.contradicted (hiff.1 rfl) α
    simpa [Assignment.SatisfiesAll, or_imp, forall_and] using hα
  · have hlits := hadd lits
    rw [he] at hlits
    exact ⟨hasStranger_of_error hlits.2, hlits.1⟩
  · have hassumed := hsolve assumptions
    rw [he] at hassumed
    obtain ⟨-, -, -, hfull, hmodel, hcontains, -⟩ := hassumed
    refine ⟨hfull, fun clause hc => ?_, hcontains⟩
    obtain ⟨x, hx, hmakes⟩ := hmodel clause hc
    obtain ⟨hne, hle⟩ := hclauses clause hc x hx
    exact ⟨x, hx, hfull.contains_iff.2 ⟨hne, hle, hmakes⟩⟩
  · rintro ⟨α, hα, hmakes⟩
    have hassumed := hsolve assumptions
    rw [he] at hassumed
    obtain ⟨x, hx, hnot⟩ := hassumed.2.2.2 α hα
    exact hnot (hmakes x hx)
  · have hassumed := hsolve assumptions
    rw [he] at hassumed
    exact hassumed.2.2.2
  · have hassumed := hsolve assumptions
    rw [he] at hassumed
    exact ⟨hasStranger_of_error hassumed.2, hassumed.1⟩

theorem Call.mem_clauses {n : Nat} {calls : List Call} {clause : List Int}
    (h : clause ∈ clauses n calls) : ∀ x ∈ clause, x ≠ 0 ∧ x.natAbs ≤ n := by
  obtain ⟨call, -, he⟩ := List.mem_filterMap.1 h
  unfold clause? at he
  split at he
  · split at he <;> cases he
    rename_i hok
    exact Cnf.checkLiteralsWithin_eq_ok.1 hok
  · cases he

theorem Cnf.WellFormed.mem_clauseList {cnf : Cnf} (h : cnf.WellFormed) {clause : List Int}
    (hc : clause ∈ cnf.clauseList) : ∀ x ∈ clause, x ≠ 0 ∧ x.natAbs ≤ cnf.size := by
  obtain ⟨set, hset, rfl⟩ := List.mem_map.1 hc
  exact fun x hx => ⟨LiteralSet.ne_zero_of_mem_literals hx, h set (by simpa using hset) x hx⟩

/-- **Every answer is right**, after any operations, about the clauses of the formula together with
    those that were added. -/
theorem answers_right_after {cnf : Cnf} (hcnf : cnf.WellFormed) (settings : SolverSettings)
    (calls : List Call) :
    ((Solver.ofCnf cnf settings).after calls).IsRight cnf.size
      (cnf.clauseList ++ Call.clauses cnf.size calls) := by
  have hstart : (Solver.ofCnf cnf settings).StandsFor cnf.size cnf.clauseList :=
    Solver.stands_ofCnf hcnf settings
  refine (Solver.StandsFor.after calls hstart).isRight fun clause hc => ?_
  rcases List.mem_append.1 hc with hc | hc
  · exact hcnf.mem_clauseList hc
  · exact Call.mem_clauses hc

/-- The answers are right after a solve whose second look found the flag raised, and clauses that were
    added. -/
theorem answers_right_eitherOf : Cnf.eitherOf.WellFormed ∧
    ((Solver.ofCnf Cnf.eitherOf {}).after
      [.withBudget fun b => { b with interrupted := ⟨fun look => look == 1⟩ }, .solve [-1],
      .addClause [-2, 3], .addClause [-1, -2]]).IsRight 2 [[1, 2], [-1, -2]] :=
  ⟨by decide, answers_right_after (show Cnf.eitherOf.WellFormed by decide) {} _⟩

end ConfigSampler
