import ConfigSampler.Proofs.Formulas
import ConfigSampler.Proofs.ProblemClauses
import ConfigSampler.Solver.Basic

/-!
# What a solver answers

`Solver.Stands s n F` says that the solver `s` over `n` variables stands for the assignments that
`F` accepts.  A solver stands for the formula it was made of, a clause that is added narrows the
assignments down, every other operation leaves them as they are, and the answer to a solve is right
about them (`Solver.Stands.addClause`, `Solver.Stands.solve`).
-/

set_option autoImplicit false

namespace ConfigSampler

/-! ## Literals of both kinds -/

namespace Lit

variable {lits : List Int} {α : Assignment} {n : Nat}

/-- A clause says the same in both kinds of literals. -/
theorem exists_holds_map_ofInt (h : ∀ x ∈ lits, x ≠ 0) :
    (∃ l ∈ lits.map ofInt, l.Holds α) ↔ α.Satisfies lits := by
  simp only [Assignment.Satisfies, List.mem_map]
  constructor
  · rintro ⟨-, ⟨x, hx, rfl⟩, hholds⟩
    exact ⟨x, hx, (holds_ofInt (h x hx)).1 hholds⟩
  · rintro ⟨x, hx, hmakes⟩
    exact ⟨_, ⟨x, hx, rfl⟩, (holds_ofInt (h x hx)).2 hmakes⟩

theorem var_lt_of_mem_map_ofInt (h : ∀ x ∈ lits, x ≠ 0 ∧ x.natAbs ≤ n) :
    ∀ l ∈ lits.map ofInt, l.var < n := by
  intro l hl
  obtain ⟨x, hx, rfl⟩ := List.mem_map.1 hl
  have := h x hx
  rw [var_ofInt]
  omega

end Lit

/-! ## Budgets -/

namespace Budget

/-- The flag is raised, or a bound is reached. -/
def Spent (b : Budget) (conflicts propagations : Nat) : Prop :=
  b.interrupted.isRaised = true ∨ (∃ bound, b.conflicts = some bound ∧ bound ≤ conflicts) ∨
    ∃ bound, b.propagations = some bound ∧ bound ≤ propagations

theorem below_eq_false {n : Nat} {limit : Option Nat} (h : below n limit = false) :
    ∃ bound, limit = some bound ∧ bound ≤ n := by
  cases limit with
  | none => cases h
  | some bound => exact ⟨bound, rfl, by simpa [below] using h⟩

theorem spent_of_within_eq_false {b : Budget} {conflicts propagations : Nat}
    (h : b.within conflicts propagations = false) : b.Spent conflicts propagations := by
  simp only [within, Bool.and_eq_false_iff, Bool.not_eq_false'] at h
  rcases h with (h | h) | h
  · exact .inl h
  · exact .inr (.inl (below_eq_false h))
  · exact .inr (.inr (below_eq_false h))

end Budget

/-! ## The solver -/

namespace Solver

variable {s s' : Solver} {n : Nat} {F : Assignment → Prop} {lits : List Int}

/-- The solver over `n` variables stands for the assignments that `F` accepts. -/
structure Stands (s : Solver) (n : Nat) (F : Assignment → Prop) : Prop where
  numVars : s.numVars = n
  concerns : Assignment.Concerns n F
  resting : s.consistent = true → s.search.Resting n F
  contradicted : s.consistent = false → ∀ α, ¬ F α

theorem Stands.change (h : s.Stands n F) {F' : Assignment → Prop} (hF : ∀ α, F' α ↔ F α) :
    s.Stands n F' :=
  ⟨h.numVars, fun α β he hα => (hF β).2 (h.concerns α β he ((hF α).1 hα)),
    fun hc => (h.resting hc).change hF, fun hc α hα => h.contradicted hc α ((hF α).1 hα)⟩

/-- Between solves only the search and the flag for a contradiction matter. -/
theorem Stands.congr (h : s.Stands n F) (hc : s'.consistent = s.consistent)
    (hp : s'.search.propagator = s.search.propagator) (hl : s'.search.lists = s.search.lists)
    (hq : s'.search.queue = s.search.queue) (hm : s'.search.marks = s.search.marks) :
    s'.Stands n F where
  numVars := by
    show s'.search.propagator.trail.numVars = n
    rw [hp]
    exact h.numVars
  concerns := h.concerns
  resting := by
    rw [hc]
    exact fun hcon => (h.resting hcon).congr hp hl hq hm
  contradicted := by
    rw [hc]
    exact h.contradicted

theorem Stands.insert (h : s.Stands n F) {clause : List Lit} (hvars : ∀ l ∈ clause, l.var < n) :
    (s.insert clause).Stands n fun α => F α ∧ ∃ l ∈ clause, l.Holds α := by
  have hconcerns : Assignment.Concerns n fun α => F α ∧ ∃ l ∈ clause, l.Holds α := by
    rintro α β he ⟨hα, l, hl, hholds⟩
    refine ⟨h.concerns α β he hα, l, hl, ?_⟩
    rw [Lit.Holds, ← he (l.var + 1) (Nat.succ_pos _) (hvars l hl)]
    exact hholds
  unfold Solver.insert
  split
  · rename_i hcon
    have hadd := Search.addClause_spec (h.resting hcon) hvars
    split <;> rename_i he <;> rw [he] at hadd
    · exact ⟨hadd.1, hconcerns, by simp, fun _ => hadd.2⟩
    · rename_i addition search hne
      have hresting : search.Resting n fun α => F α ∧ ∃ l ∈ clause, l.Holds α := by
        cases addition with
        | contradiction => exact absurd rfl hne
        | absorbed => exact hadd
        | stored r => exact hadd
      exact ⟨hresting.ok.numVars, hconcerns, fun _ => hresting, fun hfalse => absurd hcon (by simp_all)⟩
  · rename_i hcon
    have hfalse : s.consistent = false := by simpa using hcon
    exact ⟨h.numVars, hconcerns, fun htrue => absurd htrue hcon, fun _ α hα => h.contradicted hfalse α hα.1⟩

/-- **A new solver stands for its formula**, whatever the settings. -/
theorem stands_ofCnf {cnf : Cnf} (hcnf : cnf.WellFormed) (settings : SolverSettings) :
    (ofCnf cnf settings).Stands cnf.size cnf.Models := by
  have hblank := Search.Blank.newVars cnf.size (Search.blank_empty settings)
  rw [Nat.zero_add] at hblank
  have hstart : Stands ⟨true, Search.newVars cnf.size (Search.empty settings), {}⟩ cnf.size
      fun _ => True :=
    ⟨hblank.numVars, fun _ _ _ _ => trivial, fun _ => ⟨hblank.ok, hblank.idle.settled, by simp [Trail.level, hblank.limits]⟩,
      (nomatch ·)⟩
  -- the clauses narrow the assignments down one by one
  have hfold : ∀ (clauses : List LiteralSet) (s : Solver) (F : Assignment → Prop),
      (∀ clause ∈ clauses, ∀ x ∈ clause.literals, x.natAbs ≤ cnf.size) → s.Stands cnf.size F →
      (clauses.foldl (fun s clause => s.insert (clause.literals.map Lit.ofInt)) s).Stands cnf.size
        fun α => F α ∧ α.SatisfiesAll (clauses.map LiteralSet.literals) := by
    intro clauses
    induction clauses with
    | nil => intro s F _ h; exact h.change fun α => by simp [Assignment.SatisfiesAll]
    | cons clause rest ih =>
      intro s F hwf h
      have hlits : ∀ x ∈ clause.literals, x ≠ 0 ∧ x.natAbs ≤ cnf.size := fun x hx =>
        ⟨LiteralSet.ne_zero_of_mem_literals hx, hwf clause (by simp) x hx⟩
      have hnext := ih _ _ (fun c hc => hwf c (List.mem_cons_of_mem _ hc))
        (h.insert (Lit.var_lt_of_mem_map_ofInt hlits))
      refine hnext.change fun α => ?_
      rw [Lit.exists_holds_map_ofInt fun x hx => (hlits x hx).1]
      simp [Assignment.SatisfiesAll, and_assoc]
  exact (hfold _ _ _ (fun clause hc => hcnf clause (by simpa using hc)) hstart).change
    fun α => by simp [Cnf.Models, Cnf.clauseList]

/-- Literals are refused only if one of them belongs to no variable. -/
theorem Stands.toLits (h : s.Stands n F) (lits : List Int) :
    (∃ e, s.toLits lits = .error e ∧ Cnf.checkLiteralsWithin n lits = .error e) ∨
    (s.toLits lits = .ok (lits.map Lit.ofInt) ∧ ∀ x ∈ lits, x ≠ 0 ∧ x.natAbs ≤ n) := by
  unfold Solver.toLits
  rw [h.numVars]
  split
  · rename_i hok
    exact .inr ⟨rfl, Cnf.checkLiteralsWithin_eq_ok.1 hok⟩
  · rename_i e herror
    exact .inl ⟨e, rfl, herror⟩

/-- What is relied on when a clause was added: nothing changes on an error, and otherwise the solver
    stands for the assignments that satisfy the clause as well. -/
def Adds (s : Solver) (n : Nat) (F : Assignment → Prop) (lits : List Int) (s' : Solver) :
    Except SampleError ClauseEffect → Prop
  | .error e => s' = s ∧ Cnf.checkLiteralsWithin n lits = .error e
  | .ok effect => Cnf.checkLiteralsWithin n lits = .ok () ∧
      s'.Stands n (fun α => F α ∧ α.Satisfies lits) ∧
      (effect = .contradiction ↔ s'.consistent = false)

theorem Stands.addClause (h : s.Stands n F) (lits : List Int) :
    Adds s n F lits (s.addClause lits).2 (s.addClause lits).1 := by
  unfold Solver.addClause
  rcases h.toLits lits with ⟨e, he, hcheck⟩ | ⟨he, hlits⟩
  · rw [he]
    exact ⟨rfl, hcheck⟩
  · rw [he]
    have hok := Cnf.checkLiteralsWithin_eq_ok.2 hlits
    have hadded : (s.insert (lits.map Lit.ofInt)).Stands n fun α => F α ∧ α.Satisfies lits :=
      (h.insert (Lit.var_lt_of_mem_map_ofInt hlits)).change fun α => by
        rw [Lit.exists_holds_map_ofInt fun x hx => (hlits x hx).1]
    dsimp only
    split
    · rename_i hcon
      exact ⟨hok, hadded, by simp [hcon]⟩
    · rename_i hcon
      exact ⟨hok, hadded.congr rfl rfl rfl rfl rfl, by simpa using hcon⟩

/-- The last look at the flag on the way from the first solver to the second found the budget spent. -/
def Exhausts (s s' : Solver) : Prop :=
  ∃ look, s'.looks = s.looks + look + 1 ∧
    (s.budget.after look).Spent (s'.stats.conflicts - s.stats.conflicts)
      (s'.stats.propagations - s.stats.propagations)

/-- **A solve is interrupted only if its last look at the flag found the budget spent.** -/
theorem exhausts_of_interrupted {assumptions : List Int}
    (h : (s.solve assumptions).1 = .ok .interrupted) : s.Exhausts (s.solve assumptions).2 := by
  unfold Solver.solve at h ⊢
  split at h
  · cases h
  split at h
  · cases h
  obtain ⟨consistent, search, budget⟩ := s
  rename_i lits hlits hconsistent
  rw [if_neg hconsistent]
  have hspent := Search.run_isSpent search budget lits.toArray
  dsimp only at h ⊢
  generalize search.run budget lits.toArray = out at h hspent ⊢
  obtain ⟨verdict, search'⟩ := out
  cases verdict with
  | interrupted progress =>
    obtain ⟨look, hlooks, hwithin⟩ := hspent progress rfl
    exact ⟨look, hlooks, Budget.spent_of_within_eq_false hwithin⟩
  | _ => cases h

/-- The answer is right about the assignments that `F` accepts and that make the assumptions true,
    and a model is an extreme one under the polarity rule; a solve is interrupted only when its
    budget is spent. -/
def Answers (n : Nat) (F : Assignment → Prop) (assumptions : List Int) (s s' : Solver) :
    Answer → Prop
  | .model config => config.IsFull n ∧ F config.assignment ∧
      (∀ x ∈ assumptions, config.contains x = true) ∧
      config.assignment.IsExtreme s.polarity n fun α => F α ∧ ∀ x ∈ assumptions, α.Makes x
  | .noModel => ∀ α, F α → ∃ x ∈ assumptions, ¬ α.Makes x
  | .interrupted => s.Exhausts s'
  | .outOfSteps => True

/-- What is relied on after a solve: nothing changes on an error, and otherwise the solver stands
    for the same assignments and has given a right answer. -/
def Solves (s : Solver) (n : Nat) (F : Assignment → Prop) (assumptions : List Int) (s' : Solver) :
    Except SampleError Answer → Prop
  | .error e => s' = s ∧ Cnf.checkLiteralsWithin n assumptions = .error e
  | .ok answer => Cnf.checkLiteralsWithin n assumptions = .ok () ∧ s'.Stands n F ∧
      s'.budget = s.budget ∧ Answers n F assumptions s s' answer

/-- The set of a model contains the assumptions, and is as extreme as the model. -/
theorem answers_model {assumptions : List Int} {model : List Lit}
    (hlits : ∀ x ∈ assumptions, x ≠ 0 ∧ x.natAbs ≤ n) (hF : Assignment.Concerns n F)
    (hmodel : Search.IsModel (assumptions.map Lit.ofInt).toArray s.polarity n F model) :
    Answers n F assumptions s s' (.model (LiteralSet.ofModel (model.map Lit.toInt) n .indexed)) := by
  obtain ⟨t, rfl, ht, hn, hall, hacc, hassumed, hextreme⟩ := hmodel
  rw [ht.ofModel_model hn hall]
  have hsame : ∀ {l : Lit}, l.var < n →
      (l.Holds (LiteralSet.ofAssignment n t.assignment).assignment ↔ l.Holds t.assignment) := by
    intro l hl
    rw [Lit.Holds, LiteralSet.assignment_ofAssignment (Nat.succ_pos _) hl, Lit.Holds]
  refine ⟨LiteralSet.isFull_ofAssignment n _, hF _ _ (fun v hv hle => ?_) hacc, fun x hx => ?_,
    ?_⟩
  · exact (LiteralSet.assignment_ofAssignment hv hle).symm
  · obtain ⟨hne, hle⟩ := hlits x hx
    refine LiteralSet.contains_ofAssignment.2 ⟨hne, hle, (Lit.holds_ofInt hne).1 ?_⟩
    exact hassumed _ (by simpa using ⟨x, hx, rfl⟩)
  · rintro α ⟨hα, hmakes⟩ hkept l hl hholds
    refine hextreme α ⟨hα, fun m hm => ?_⟩ (fun m hm hallowed hm' => ?_) l hl ((hsame hl).1 hholds)
    · obtain ⟨x, hx, rfl⟩ := List.mem_map.1 (List.mem_toArray.1 hm)
      exact (Lit.holds_ofInt (hlits x hx).1).2 (hmakes x hx)
    · exact hkept m hm hallowed ((hsame hm).2 hm')

theorem Stands.solve (h : s.Stands n F) (assumptions : List Int) :
    Solves s n F assumptions (s.solve assumptions).2 (s.solve assumptions).1 := by
  unfold Solver.solve
  rcases h.toLits assumptions with ⟨e, he, hcheck⟩ | ⟨he, hlits⟩
  · rw [he]
    exact ⟨rfl, hcheck⟩
  rw [he]
  have hok := Cnf.checkLiteralsWithin_eq_ok.2 hlits
  dsimp only
  split
  · rename_i hcon
    have hfalse : s.consistent = false := by simpa using hcon
    exact ⟨hok, h, rfl, fun α hα => absurd hα (h.contradicted hfalse α)⟩
  · rename_i hcon
    have htrue : s.consistent = true := by simpa using hcon
    obtain ⟨consistent, search, budget⟩ := s
    obtain rfl : consistent = true := htrue
    have hvars : ∀ l ∈ (assumptions.map Lit.ofInt).toArray, l.var < n := fun l hl =>
      Lit.var_lt_of_mem_map_ofInt hlits l (by simpa using hl)
    have hrun := Search.run_spec (h.resting rfl) hvars budget
    have hspent := Search.run_isSpent search budget (assumptions.map Lit.ofInt).toArray
    dsimp only
    generalize search.run budget _ = out at *
    obtain ⟨verdict, search'⟩ := out
    have hstands : ∀ {search' : Search}, search'.Resting n F →
        Stands ⟨true, search', budget⟩ n F := fun hr =>
      ⟨hr.ok.numVars, h.concerns, fun _ => hr, (nomatch ·)⟩
    cases verdict with
    | satisfiable model =>
      have hnum : Solver.numVars ⟨true, search', budget⟩ = n := (hstands hrun.1).numVars
      refine ⟨hok, hstands hrun.1, rfl, ?_⟩
      dsimp only [answerOf]
      rw [hnum]
      exact answers_model hlits h.concerns hrun.2
    | unsatisfiable =>
      exact ⟨hok, ⟨hrun.1.numVars, h.concerns, (nomatch ·), fun _ => hrun.2⟩, rfl,
        fun α hα => absurd hα (hrun.2 α)⟩
    | assumptionsFail =>
      refine ⟨hok, hstands hrun.1, rfl, fun α hα => ?_⟩
      obtain ⟨l, hl, hnot⟩ := hrun.2 α hα
      obtain ⟨x, hx, rfl⟩ := List.mem_map.1 (List.mem_toArray.1 hl)
      exact ⟨x, hx, fun hmakes => hnot ((Lit.holds_ofInt (hlits x hx).1).2 hmakes)⟩
    | interrupted progress =>
      obtain ⟨look, hlooks, hwithin⟩ := hspent progress rfl
      exact ⟨hok, (hstands hrun).congr rfl rfl rfl rfl rfl, rfl, look, hlooks,
        Budget.spent_of_within_eq_false hwithin⟩
    | outOfSteps => exact ⟨hok, hstands hrun, rfl, trivial⟩

/-! ## The other operations -/

theorem Stands.shuffle (h : s.Stands n F) (rand : Random) : (s.shuffle rand).1.Stands n F := by
  refine ⟨h.numVars, h.concerns, fun hcon => ?_, h.contradicted⟩
  have hr := h.resting hcon
  exact ⟨⟨hr.ok.numVars, hr.ok.inOrder, hr.ok.sound, hr.ok.complete, hr.ok.listed,
    DecisionQueue.waits_shuffle hr.ok.waits.numVars rand _, hr.ok.marks⟩, hr.settled, hr.ground⟩

theorem Stands.setPolarity (h : s.Stands n F) (polarity : Polarity) :
    (s.setPolarity polarity).Stands n F := by
  refine ⟨h.numVars, h.concerns, fun hcon => ?_, h.contradicted⟩
  have hr := h.resting hcon
  have hw := hr.ok.waits
  exact ⟨⟨hr.ok.numVars, hr.ok.inOrder, hr.ok.sound, hr.ok.complete, hr.ok.listed,
    ⟨hw.heap, hw.numVars, hw.bound, hw.mem⟩, hr.ok.marks⟩, hr.settled, hr.ground⟩

theorem Stands.withBudget (h : s.Stands n F) (change : Budget → Budget) :
    (s.withBudget change).Stands n F := h.congr rfl rfl rfl rfl rfl

theorem Stands.takeEvents (h : s.Stands n F) : s.takeEvents.2.Stands n F :=
  h.congr rfl rfl rfl rfl rfl

end Solver

end ConfigSampler
