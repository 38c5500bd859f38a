import ConfigSampler.Dimacs.File
import ConfigSampler.Proofs.FullSets

/-!
# Well-formed formulas

Every clause of a formula was checked against the variable table before it was stored, and the table
never gets shorter, so all literals belong to variables (`Cnf.WellFormed`).  `Cnf.Models` is the
meaning of a formula in terms of assignments.
-/

set_option autoImplicit false

namespace ConfigSampler

namespace Cnf

variable {cnf cnf' : Cnf} {n : Nat} {lits : List Int} {e : SampleError} {journal journal' : Journal}

theorem checkLiteralWithin_eq_ok {x : Int} :
    checkLiteralWithin n x = .ok () ↔ x ≠ 0 ∧ x.natAbs ≤ n := by
  unfold checkLiteralWithin
  split
  · rename_i h
    simp [h]
  · rename_i h
    split
    · simp only [reduceCtorEq, false_iff, not_and]
      omega
    · simp only [true_iff]
      exact ⟨h, by omega⟩

/-- Literals pass the check if all of them belong to variables. -/
theorem checkLiteralsWithin_eq_ok :
    checkLiteralsWithin n lits = .ok () ↔ ∀ x ∈ lits, x ≠ 0 ∧ x.natAbs ≤ n := by
  induction lits with
  | nil => simp [checkLiteralsWithin]
  | cons x rest ih =>
    unfold checkLiteralsWithin
    rw [List.forall_mem_cons, ← checkLiteralWithin_eq_ok, ← ih]
    split
    · rename_i h
      simp [h]
    · rename_i e h
      simp [h]

/-- The error of a check is that of the first literal that belongs to no variable. -/
theorem checkLiteralsWithin_eq_error (h : checkLiteralsWithin n lits = .error e) :
    ∃ before x rest, lits = before ++ x :: rest ∧ checkLiteralsWithin n before = .ok () ∧
      ((x = 0 ∧ e = .zeroLiteral) ∨ (n < x.natAbs ∧ e = .literalOutOfRange x)) := by
  induction lits with
  | nil => cases h
  | cons x rest ih =>
    unfold checkLiteralsWithin at h
    split at h
    · rename_i hx
      obtain ⟨before, y, rest, rfl, hok, hy⟩ := ih h
      refine ⟨x :: before, y, rest, rfl, ?_, hy⟩
      rw [checkLiteralsWithin, hx]
      exact hok
    · rename_i e' hx
      cases h
      refine ⟨[], x, rest, rfl, rfl, ?_⟩
      unfold checkLiteralWithin at hx
      split at hx
      · rename_i h0
        cases hx
        exact .inl ⟨h0, rfl⟩
      · split at hx
        · rename_i hn
          cases hx
          exact .inr ⟨hn, rfl⟩
        · cases hx

/-- All literals of all clauses belong to variables. -/
def WellFormed (cnf : Cnf) : Prop :=
  ∀ clause ∈ cnf.clauses, ∀ x ∈ clause.literals, x.natAbs ≤ cnf.size

instance (cnf : Cnf) : Decidable cnf.WellFormed :=
  inferInstanceAs (Decidable (∀ clause ∈ cnf.clauses, ∀ x ∈ clause.literals, x.natAbs ≤ cnf.size))

/-- The clauses as lists of literals. -/
def clauseList (cnf : Cnf) : List (List Int) := cnf.clauses.toList.map LiteralSet.literals

/-- The assignment satisfies every clause. -/
def Models (cnf : Cnf) (α : Assignment) : Prop := α.SatisfiesAll cnf.clauseList

/-- Two variables, of which one has to be selected. -/
def eitherOf : Cnf := ⟨Variables.anonymous 2, #[⟨.unordered, #[1, 2]⟩]⟩

/-- Two variables, the first of which is selected. -/
def firstSelected : Cnf := ⟨Variables.anonymous 2, #[⟨.unordered, #[1]⟩]⟩

/-- One variable that is selected. -/
def selected : Cnf := ⟨Variables.anonymous 1, #[⟨.unordered, #[1]⟩]⟩

theorem wellFormed_ofVariables (vars : Variables) : (ofVariables vars).WellFormed :=
  fun clause hc => by simp [ofVariables] at hc

/-- A longer table of variables leaves a formula well-formed. -/
theorem WellFormed.withVariables (h : cnf.WellFormed) {vars : Variables} (hle : cnf.size ≤ vars.size) :
    WellFormed { cnf with vars := vars } :=
  fun clause hc x hx => Nat.le_trans (h clause hc x hx) hle

@[simp]
theorem vars_store (cnf : Cnf) (clause : LiteralSet) : (cnf.store clause).vars = cnf.vars := by
  unfold store
  split <;> rfl

/-- The table of variables stays, whether the clause is accepted or not. -/
@[simp]
theorem vars_addClause (cnf : Cnf) (lits : List Int) : (cnf.addClause lits).2.vars = cnf.vars := by
  unfold addClause
  split
  · exact vars_store ..
  · rfl

/-- Adding a clause checks its literals, so the formula stays well-formed. -/
theorem WellFormed.addClause (h : cnf.WellFormed) (lits : List Int) :
    (cnf.addClause lits).2.WellFormed := by
  unfold Cnf.addClause
  split
  · rename_i hcheck
    unfold store
    split
    · exact h
    · intro clause hc x hx
      rcases Array.mem_push.1 hc with hc | rfl
      · exact h clause hc x hx
      · obtain ⟨hx, -⟩ := LiteralSet.mem_literals_ofList.1 hx
        exact (checkLiteralsWithin_eq_ok.1 hcheck x hx).2
  · exact h

theorem WellFormed.addNamedClause (h : cnf.WellFormed) (named : List (String × Bool)) :
    (cnf.addNamedClause named).2.WellFormed := by
  unfold Cnf.addNamedClause
  split
  · exact h.addClause _
  · exact h

theorem WellFormed.addClauses : ∀ (clauses : List (List Int)) {cnf : Cnf} {journal : Journal},
    cnf.WellFormed → cnf.addClauses journal clauses = (.ok cnf', journal') → cnf'.WellFormed
  | [], _, _, h, he => by
    cases he
    exact h
  | lits :: rest, cnf, journal, h, he => by
    unfold Cnf.addClauses at he
    split at he
    · rename_i hadd
      have hadded := h.addClause lits
      rw [hadd] at hadded
      exact WellFormed.addClauses rest hadded he
    · cases he

end Cnf

namespace Dimacs

variable {cnf cnf' : Cnf} {mode : Mode} {journal journal' : Journal}

theorem wellFormed_growTo (h : cnf.WellFormed) (size : Nat) : (growTo cnf size).WellFormed := by
  unfold growTo
  split
  · exact h
  · rename_i hlt
    apply h.withVariables
    simp only [Variables.anonymous, Variables.size, Array.size_ofFn]
    omega

theorem wellFormed_addEntries : ∀ (entries : List Entry) {cnf : Cnf} {journal : Journal},
    cnf.WellFormed → addEntries mode cnf journal entries = (.ok cnf', journal') → cnf'.WellFormed
  | [], _, _, h, he => by
    cases he
    exact h
  | entry :: rest, cnf, journal, h, he => by
    unfold addEntries at he
    split at he
    · cases he
    · rename_i size _
      split at he
      · cases he
      · rename_i hadd
        have hadded := (wellFormed_growTo h size).addClause entry.literals
        rw [hadd] at hadded
        exact wellFormed_addEntries rest hadded he

theorem size_applyNames : ∀ (names : List (Nat × String)) {vars vars' : Variables}
    {journal journal' : Journal}, applyNames vars journal names = (.ok vars', journal') →
    vars'.size = vars.size
  | [], _, _, _, _, he => by
    cases he
    rfl
  | (index, name) :: rest, vars, vars', journal, journal', he => by
    unfold applyNames at he
    split at he
    · exact size_applyNames rest he
    · split at he
      · cases he
      · rename_i hrename
        rw [size_applyNames rest he]
        unfold Variables.rename at hrename
        split at hrename
        · split at hrename <;> cases hrename
          rfl
        · split at hrename
          · cases hrename
          · cases hrename
            simp [Variables.size]

/-- **Reading yields well-formed formulas** only. -/
theorem wellFormed_parseText {text : String} (h : parseText mode text = (.ok cnf, journal)) :
    cnf.WellFormed := by
  unfold parseText at h
  split at h
  · cases h
  rename_i doc _
  unfold Document.toCnf at h
  dsimp only at h
  split at h
  · cases h
  rename_i hentries
  have hw := wellFormed_addEntries _ (Cnf.wellFormed_ofVariables _) hentries
  split at h
  · cases h
  split at h
  · cases h
  split at h
  · cases h
  rename_i hnames
  cases h
  exact hw.withVariables (Nat.le_of_eq (size_applyNames _ hnames).symm)

end Dimacs

end ConfigSampler
