import ConfigSampler.Proofs.ReachableStates

/-!
# The turns of an attempt

A `Rule` chooses the free decisions of a search.  `Search.attemptBy` is an attempt under any rule, and
an attempt as the solver makes it is the one under the rule of its queue (`Search.attempt_eq`).

Rounds of propagation, opened levels and whole turns take no steps but those of `Search.Reachable`,
and what these steps keep of the trail (`Trail.Kept`) holds after them (`stabilise_keeps`,
`turn_spec`).  So every solver is in a reachable state between its operations
(`Solver.reaches_after`).
-/

set_option autoImplicit false

namespace ConfigSampler

/-- What propagation, jumps to a lower level and levels for true assumptions keep of a trail; the
    names of the reasons play no part in it. -/
structure Trail.Kept (assumptions : Array Lit) (P : Trail → Prop) : Prop where
  extend : ∀ {t u : Trail}, t.Ok → u.Ok → t.Extends u → P t → P u
  jump : ∀ {t u : Trail}, t.Ok → t.Jumps u → P t → P u
  openLevel : ∀ {t : Trail}, t.level < assumptions.size → P t → P t.newLevel
  rename : ∀ {t : Trail} (reasons : Array (Option ClauseRef)), P t → P { t with reasons := reasons }

namespace Search

variable {s s' : Search} {n : Nat} {F : Assignment → Prop} {assumptions : Array Lit}
  {limit limit' : LearntLimit} {query : Query} {conflictLimit : Nat} {P : Trail → Prop}

/-! ## Rules for free decisions -/

/-- A rule for free decisions: the literal to decide, if any, and the queue afterwards. -/
abbrev Rule := Search → Trail → Option Lit × DecisionQueue

/-- The rule of the queue: active variables first, under the polarity of its settings. -/
def byActivity : Rule := fun s t => s.queue.pickLit t

namespace Rule

/-- While all variables without a value wait in the queue, the rule decides one of them in any
    polarity, and the others still wait; it decides none only if all variables have a value. -/
def Lawful (rule : Rule) : Prop :=
  ∀ (s : Search) (t : Trail) (n : Nat), (s.queue.Waits n fun v => t.isFree v = true) →
    DecisionQueue.Chooses t n ((rule s t).1.map Lit.var) (rule s t).2

/-- The rule that decides what `choose` says, and fills the queue anew. -/
def ofChoice (choose : Search → Trail → Option Lit) : Rule :=
  fun s t => (choose s t, s.queue.rebuild t)

theorem lawful_byActivity : Lawful byActivity := fun _ _ _ hwaits =>
  DecisionQueue.pickLit_spec hwaits

/-- Every way to choose among the variables without a value is a lawful rule. -/
theorem lawful_ofChoice {choose : Search → Trail → Option Lit}
    (hnone : ∀ s t, choose s t = none → ∀ v < s.queue.numVars, t.isFree v = false)
    (hsome : ∀ s t l, choose s t = some l → l.var < s.queue.numVars ∧ t.isFree l.var = true) :
    Lawful (ofChoice choose) := by
  intro s t n hwaits
  have hnew := DecisionQueue.waits_rebuild hwaits.numVars t
  obtain rfl := hwaits.numVars
  show DecisionQueue.Chooses t _ ((choose s t).map Lit.var) (s.queue.rebuild t)
  cases hchoice : choose s t with
  | none => exact ⟨hnone s t hchoice, hnew⟩
  | some l =>
    obtain ⟨hlt, hfree⟩ := hsome s t l hchoice
    exact ⟨hlt, hfree, hnew.mono fun _ _ hv => hv.2⟩

/-- The rule that makes the first variable without a value true. -/
def firstFree : Rule :=
  ofChoice fun s t =>
    ((List.range s.queue.numVars).find? fun v => t.isFree v).map fun v => Lit.ofVar v false

theorem lawful_firstFree : Lawful firstFree := by
  refine lawful_ofChoice (fun s t hnone v hv => ?_) fun s t l hsome => ?_
  · rw [Option.map_eq_none_iff, List.find?_eq_none] at hnone
    simpa using hnone v (List.mem_range.2 hv)
  · obtain ⟨v, hv, rfl⟩ := Option.map_eq_some_iff.1 hsome
    rw [Lit.var_ofVar]
    exact ⟨List.mem_range.1 (List.mem_of_find?_eq_some hv), List.find?_some hv⟩

end Rule

/-- The next assumption without a value, or else the choice of the rule. -/
def nextDecisionBy (rule : Rule) (s : Search) (assumptions : Array Lit) : Decision × Search :=
  let p := s.propagator
  match nextAssumption assumptions (assumptions.size - p.trail.level) p.trail with
  | (some decision, trail) => (decision, { s with propagator := { p with trail := trail } })
  | (none, trail) =>
    let (choice, queue) := rule s trail
    let s := { s with
      propagator := { p with trail := trail }
      queue := queue
      decisions := s.decisions + 1 }
    match choice with
    | none => (.allAssigned, s)
    | some l => (.decide l, s)

/-- Simplifies at ground level, and deletes learnt clauses if there are too many. -/
def tidied (s : Search) (limit : LearntLimit) : Search :=
  if s.simplify.isOverfull limit then s.simplify.reduceLearnts else s.simplify

/-- One turn of an attempt: the outcome, or the state to go on with. -/
def turn (rule : Rule) (query : Query) (conflictLimit : Nat) (limit : LearntLimit) (s : Search) :
    (Attempt × LearntLimit × Search) ⊕ (LearntLimit × Search) :=
  match stabilise (s.propagator.trail.level + 2) limit s with
  | (.outOfSteps, limit, s) => .inl (.outOfSteps, limit, s)
  | (.contradiction, limit, s) => .inl (.unsatisfiable, limit, s)
  | (.stable, limit, s) =>
    let goesOn := s.affords query
    let s := s.looked
    if !goesOn then .inl (.interrupted s.propagator.trail.progress, limit, s.backtrack 0)
    else if conflictLimit ≤ s.conflicts then .inl (.restart, limit, s.backtrack 0)
    else
      match (s.tidied limit).nextDecisionBy rule query.assumptions with
      | (.assumptionFails, s) => .inl (.assumptionsFail, limit, s)
      | (.allAssigned, s) => .inl (.satisfiable, limit, s)
      | (.decide l, s) => .inr (limit, s.decided l)

/-- An attempt under a rule. -/
def attemptBy (rule : Rule) (query : Query) (conflictLimit : Nat) :
    Nat → LearntLimit → Search → Attempt × LearntLimit × Search
  | 0, limit, s => (.outOfSteps, limit, s)
  | steps + 1, limit, s =>
    match turn rule query conflictLimit limit s with
    | .inl outcome => outcome
    | .inr (limit, s) => attemptBy rule query conflictLimit steps limit s

theorem nextDecision_eq (s : Search) (assumptions : Array Lit) :
    s.nextDecision assumptions = s.nextDecisionBy byActivity assumptions := rfl

theorem attemptBy_of_inl {rule : Rule} {outcome : Attempt × LearntLimit × Search}
    (h : turn rule query conflictLimit limit s = .inl outcome) (steps : Nat) :
    attemptBy rule query conflictLimit (steps + 1) limit s = outcome := by
  rw [attemptBy, h]

theorem attemptBy_of_inr {rule : Rule}
    (h : turn rule query conflictLimit limit s = .inr (limit', s')) (steps : Nat) :
    attemptBy rule query conflictLimit (steps + 1) limit s =
      attemptBy rule query conflictLimit steps limit' s' := by
  rw [attemptBy, h]

/-- **The solver's attempt** is the one under the rule of its queue. -/
theorem attempt_eq (query : Query) (conflictLimit : Nat) : ∀ (steps : Nat) (limit : LearntLimit)
    (s : Search), attempt query conflictLimit steps limit s =
      attemptBy byActivity query conflictLimit steps limit s
  | 0, _, _ => rfl
  | steps + 1, limit, s => by
    unfold attempt attemptBy turn
    generalize stabilise (s.propagator.trail.level + 2) limit s = round
    obtain ⟨round, limit₁, s₁⟩ := round
    cases round with
    | outOfSteps => rfl
    | contradiction => rfl
    | stable =>
      dsimp only
      split
      · rfl
      split
      · rfl
      simp only [nextDecision_eq, tidied]
      generalize nextDecisionBy byActivity _ query.assumptions = next
      obtain ⟨decision, s₂⟩ := next
      cases decision with
      | assumptionFails => rfl
      | allAssigned => rfl
      | decide l => exact attempt_eq query conflictLimit steps limit₁ (s₂.decided l)

/-! ## The loops take reachable steps -/

/-- Rounds of propagation and learning come to an end. -/
theorem stabilise_keeps (hP : Trail.Kept assumptions P) :
    ∀ (rounds : Nat) {limit : LearntLimit} {s : Search} {round : Round},
      Reachable n .ready s → P s.propagator.trail → s.propagator.trail.level < rounds →
      stabilise rounds limit s = (round, limit', s') →
      round ≠ .outOfSteps ∧ (round = .stable → Reachable n .stable s' ∧ P s'.propagator.trail)
  | 0, _, _, _, _, _, hlt, _ => absurd hlt (Nat.not_lt_zero _)
  | rounds + 1, limit, s, round, h, hs, hlt, he => by
    obtain ⟨hok, hsettled⟩ := h.poised
    unfold stabilise at he
    split at he
    · rename_i q hq
      obtain ⟨hin, hg, -⟩ := Propagator.propagate_spec hok.inOrder hsettled hq
      cases he
      exact ⟨by decide, fun _ =>
        ⟨h.propagate hq, hP.extend hok.inOrder.ok.trail hin.ok.trail hg.trail hs⟩⟩
    · rename_i conflict q hq
      obtain ⟨hin, hg, -⟩ := Propagator.propagate_spec hok.inOrder hsettled hq
      have hgrown := hP.extend hok.inOrder.ok.trail hin.ok.trail hg.trail hs
      have hfail := h.fail hq
      split at he
      · cases he
        exact ⟨by decide, fun hstable => by cases hstable⟩
      · rename_i hlearn
        obtain ⟨-, -, hmore⟩ := hfail.ok.learn hfail.isConflict hlearn
        obtain ⟨-, hjump⟩ := hmore rfl
        have hlower := hjump.level_lt hin.ok.trail
        have hlevel : q.trail.level = s.propagator.trail.level := hg.trail.level
        have hlower' := Nat.lt_of_lt_of_le hlower (Nat.le_of_eq hlevel)
        exact stabilise_keeps hP rounds (hfail.learn hlearn) (hP.jump hin.ok.trail hjump hgrown)
          (by omega) he

theorem Reachable.tidied (h : Reachable n .stable s) (limit : LearntLimit) :
    Reachable n .stable (s.tidied limit) := by
  unfold Search.tidied
  split
  · exact h.simplify.reduce
  · exact h.simplify

/-- Housekeeping gives clauses new names, and leaves the literals of the trail as they are. -/
theorem trail_tidied (h : Reachable n .stable s) (limit : LearntLimit) :
    (s.tidied limit).propagator.trail =
      { s.propagator.trail with reasons := (s.tidied limit).propagator.trail.reasons } := by
  obtain ⟨-, hsimplified⟩ := h.ok.simplify
  unfold Search.tidied
  split
  · obtain ⟨-, hreduced⟩ := h.simplify.ok.reduceLearnts
    exact (hsimplified.trans hreduced).trail
  · exact hsimplified.trail

/-- What is relied on after a decision under a lawful rule. -/
def Reaches (n : Nat) (P : Trail → Prop) (s : Search) : Decision → Prop
  | .assumptionFails => Reachable n .stable s
  | .allAssigned => Reachable n .stable s
  | .decide l => Reachable n .ready (s.decided l) ∧ s.propagator.trail.Ok ∧
      s.propagator.trail.numVars = n ∧ P s.propagator.trail ∧ l.var < n ∧
      s.propagator.trail.isFree l.var = true

theorem nextDecisionBy_keeps {rule : Rule} (hrule : rule.Lawful) (hP : Trail.Kept assumptions P)
    (hvars : ∀ l ∈ assumptions, l.var < n) (h : Reachable n .stable s)
    (hs : P s.propagator.trail) :
    Reaches n P (s.nextDecisionBy rule assumptions).2 (s.nextDecisionBy rule assumptions).1 := by
  obtain ⟨⟨hreach, hkept⟩, hawaits⟩ := Propagator.nextAssumption_keeps
    (P := fun t => Reachable n .stable { s with propagator := { s.propagator with trail := t } } ∧ P t)
    (fun t ht => ht.1.ok.inOrder.ok.trail)
    (fun t ht hlevel _ => ⟨ht.1.openLevel, hP.openLevel hlevel ht.2⟩)
    (assumptions.size - s.propagator.trail.level) s.propagator.trail ⟨h, hs⟩ rfl
  unfold nextDecisionBy
  simp only
  generalize nextAssumption assumptions _ s.propagator.trail = out at *
  obtain ⟨next, t⟩ := out
  dsimp only at hreach hkept hawaits ⊢
  have hwaits := hreach.ok.waits
  have ht := hreach.ok.inOrder.ok.trail
  have hnum := hreach.ok.numVars
  cases next with
  | some decision =>
    cases decision with
    | assumptionFails => exact hreach
    | allAssigned => exact hawaits.elim
    | decide l =>
      obtain ⟨hlevel, hfree, rfl⟩ := hawaits
      have hmem : assumptions.getD t.level default ∈ assumptions := by
        simp only [Array.getD, hlevel, dite_true]
        exact Array.getElem_mem _
      have hl := hvars _ hmem
      exact ⟨hreach.decided hl hfree, ht, hnum, hkept, hl, hfree⟩
  | none =>
    have hpick := hrule s t n hwaits
    dsimp only
    generalize rule s t = picked at *
    obtain ⟨choice, queue⟩ := picked
    cases choice with
    | none => exact (hreach.requeue hpick.2).note rfl rfl rfl rfl
    | some l =>
      obtain ⟨hl, hfree, hwaits'⟩ := hpick
      exact ⟨(hreach.decide hl hfree hwaits').note rfl rfl rfl rfl, ht, hnum, hkept, hl, hfree⟩

/-- What is relied on after a turn: an outcome and a state to rest in, or another decision. -/
def Turned (n : Nat) (P : Trail → Prop) (query : Query) :
    (Attempt × LearntLimit × Search) ⊕ (LearntLimit × Search) → Prop
  | .inl (outcome, _, s) => outcome ≠ .outOfSteps ∧
      (∀ progress, outcome = .interrupted progress → ∃ s' : Search, s'.affords query = false) ∧
      (outcome ≠ .unsatisfiable → Reachable n .ready s)
  | .inr (_, s) => Reachable n .ready s ∧ ∃ (t : Trail) (l : Lit), t.Ok ∧ t.numVars = n ∧ P t ∧
      l.var < n ∧ t.isFree l.var = true ∧ s.propagator.trail = t.newLevel.assign l none

theorem turn_spec {rule : Rule} (hrule : rule.Lawful) (hP : Trail.Kept query.assumptions P)
    (hvars : ∀ l ∈ query.assumptions, l.var < n) (h : Reachable n .ready s)
    (hs : P s.propagator.trail) (conflictLimit : Nat) (limit : LearntLimit) :
    Turned n P query (turn rule query conflictLimit limit s) := by
  unfold turn
  split <;> rename_i limit₁ s₁ hround <;>
    obtain ⟨hsteps, hstable⟩ := stabilise_keeps hP _ h hs (by omega) hround
  · exact absurd rfl hsteps
  · exact ⟨nofun, nofun, fun hne => absurd rfl hne⟩
  obtain ⟨hready, hs₁⟩ := hstable rfl
  have h₁ : Reachable n .stable s₁.looked := hready.note rfl rfl rfl rfl
  dsimp only
  split
  · rename_i hbudget
    rw [Bool.not_eq_true'] at hbudget
    exact ⟨nofun, fun _ _ => ⟨s₁, hbudget⟩, fun _ => h₁.pause.backtrack 0⟩
  split
  · exact ⟨nofun, nofun, fun _ => h₁.pause.backtrack 0⟩
  have hs₂ : P (s₁.looked.tidied limit₁).propagator.trail := by
    rw [trail_tidied h₁ limit₁]
    exact hP.rename _ hs₁
  have hnext := nextDecisionBy_keeps hrule hP hvars (h₁.tidied limit₁) hs₂
  generalize (s₁.looked.tidied limit₁).nextDecisionBy rule query.assumptions = next at hnext
  obtain ⟨decision, s₃⟩ := next
  cases decision with
  | assumptionFails => exact ⟨nofun, nofun, fun _ => hnext.pause⟩
  | allAssigned => exact ⟨nofun, nofun, fun _ => hnext.pause⟩
  | decide l =>
    obtain ⟨hreach, ht, hnum, hkept, hl, hfree⟩ := hnext
    exact ⟨hreach, _, l, ht, hnum, hkept, hl, hfree, rfl⟩

theorem kept_true : Trail.Kept assumptions fun _ => True :=
  ⟨fun _ _ _ _ => trivial, fun _ _ _ => trivial, fun _ _ => trivial, fun _ _ => trivial⟩

theorem Reachable.attemptBy {rule : Rule} (hrule : rule.Lawful)
    (hvars : ∀ l ∈ query.assumptions, l.var < n) :
    ∀ (steps : Nat) {limit : LearntLimit} {s : Search} {outcome : Attempt}, Reachable n .ready s →
      attemptBy rule query conflictLimit steps limit s = (outcome, limit', s') →
      outcome ≠ .unsatisfiable → Reachable n .ready s'
  | 0, _, _, _, h, he, _ => by
    cases he
    exact h
  | steps + 1, limit, s, outcome, h, he, hne => by
    unfold Search.attemptBy at he
    have hturn := turn_spec hrule kept_true hvars h trivial conflictLimit limit
    split at he <;> rename_i hout <;> rw [hout] at hturn
    · rw [he] at hturn
      exact hturn.2.2 hne
    · exact Reachable.attemptBy hrule hvars steps hturn.1 he hne

theorem Reachable.attempts (hvars : ∀ l ∈ query.assumptions, l.var < n) :
    ∀ (steps : Nat) (restarts : UInt32) {limit : LearntLimit} {s : Search} {verdict : Verdict},
      Reachable n .ready s → attempts query steps restarts limit s = (verdict, s') →
      verdict ≠ .unsatisfiable → Reachable n .ready s'
  | 0, _, _, _, _, h, he, _ => by
    cases he
    exact h
  | steps + 1, restarts, limit, s, verdict, h, he, hne => by
    unfold Search.attempts at he
    dsimp only at he
    have hstart : Reachable n .ready { s with starts := s.starts + 1 } := h.note rfl rfl rfl rfl
    have hattempt : ∀ {outcome : Attempt} {limit' : LearntLimit} {s' : Search},
        attempt query (s.conflictLimit restarts) s.settings.stepLimit limit
          { s with starts := s.starts + 1 } = (outcome, limit', s') →
        outcome ≠ .unsatisfiable → Reachable n .ready s' := by
      intro outcome limit' s' hrun hne
      rw [attempt_eq] at hrun
      exact Reachable.attemptBy Rule.lawful_byActivity hvars _ hstart hrun hne
    split at he <;> rename_i hout
    · exact Reachable.attempts hvars steps (restarts + 1) (hattempt hout nofun) he hne
    all_goals cases he
    · exact hattempt hout nofun
    · exact absurd rfl hne
    · exact hattempt hout nofun
    · exact hattempt hout nofun
    · exact hattempt hout nofun

/-- A search ends at ground level. -/
theorem Reachable.run (h : Reachable n .ready s) (hvars : ∀ l ∈ assumptions, l.var < n)
    (budget : Budget) (hne : (s.run budget assumptions).1 ≠ .unsatisfiable) :
    Reachable n .ready (s.run budget assumptions).2 ∧
    (s.run budget assumptions).2.propagator.trail.level = 0 := by
  unfold Search.run at hne ⊢
  dsimp only at hne ⊢
  generalize hout : Search.attempts _ _ _ _ _ = out at *
  obtain ⟨verdict, s'⟩ := out
  have hstart : Reachable n .ready { s.report (.searchStarted assumptions.size s.lists.learnts.size)
      with solves := s.solves + 1 } := h.note rfl rfl rfl rfl
  have hend := hstart.attempts hvars _ _ hout hne
  exact ⟨hend.backtrack 0, hend.ok.inOrder.ok.trail.level_rewindTo (Nat.zero_le _)⟩

/-- A clause that is added takes reachable steps. -/
theorem Reachable.addClause (h : Reachable n .ready s) (hground : s.propagator.trail.level = 0)
    {lits : List Lit} (hvars : ∀ l ∈ lits, l.var < n) {addition : Addition}
    (he : s.addClause lits = (addition, s')) (hne : addition ≠ .contradiction) :
    Reachable n .ready s' ∧ s'.propagator.trail.level = 0 := by
  have hadd := he
  unfold Search.addClause at he
  dsimp only at he
  rw [show (sortLits lits).filter (fun l => !s.propagator.trail.isFalse l) =
    openLits s.propagator.trail lits from rfl] at he
  split at he
  · cases he
    exact ⟨h, hground⟩
  · rename_i hnot
    have hunset := holdsAlready_eq_false _ _ (by simpa using hnot)
    split at he
    · cases he
      exact absurd rfl hne
    · rename_i l hopen
      have hl : l ∈ openLits s.propagator.trail lits := by
        rw [hopen]
        exact List.mem_singleton_self l
      obtain ⟨hmem, hfalse⟩ := mem_openLits.1 hl
      have hfree := (h.ok.inOrder.ok.trail.isFree_iff _).2 ⟨hunset l hl, hfalse⟩
      have hassert := h.assert hground (hvars l hmem) hfree
      split at he
      · rename_i q hq
        obtain ⟨hok, hsettled⟩ := hassert.poised
        obtain ⟨-, hg, -⟩ := Propagator.propagate_spec hok.inOrder hsettled hq
        cases he
        exact ⟨(hassert.propagate hq).pause, hg.trail.level.trans hground⟩
      · cases he
        exact absurd rfl hne
    · cases he
      exact ⟨h.store hground hvars hadd, hground⟩

end Search

/-! ## Solvers between their operations -/

namespace Solver

variable {s : Solver} {n : Nat}

/-- Unless the clauses are contradictory, the search rests at ground level in a reachable state. -/
def Reaches (s : Solver) (n : Nat) : Prop :=
  s.consistent = true → Search.Reachable n .ready s.search ∧ s.search.propagator.trail.level = 0

theorem Reaches.insert (h : s.Reaches n) {clause : List Lit} (hvars : ∀ l ∈ clause, l.var < n) :
    (s.insert clause).Reaches n := by
  unfold Solver.insert
  split
  · rename_i hcon
    obtain ⟨hreach, hground⟩ := h hcon
    split <;> rename_i he
    · exact nofun
    · rename_i hne
      exact fun _ => hreach.addClause hground hvars he hne
  · exact h

/-- What holds of a solver without clauses, and is kept when a clause is inserted, holds of the solver
    of a formula. -/
theorem ofCnf_rule {P : Solver → Prop} {cnf : Cnf} (hcnf : cnf.WellFormed)
    (settings : SolverSettings)
    (hstart : P ⟨true, Search.newVars cnf.size (Search.empty settings), {}⟩)
    (hinsert : ∀ (s : Solver) (clause : List Lit), P s → (∀ l ∈ clause, l.var < cnf.size) →
      P (s.insert clause)) :
    P (ofCnf cnf settings) := by
  have hfold : ∀ (clauses : List LiteralSet) (s : Solver),
      (∀ clause ∈ clauses, ∀ x ∈ clause.literals, x.natAbs ≤ cnf.size) → P s →
      P (clauses.foldl (fun s clause => s.insert (clause.literals.map Lit.ofInt)) s) := by
    intro clauses
    induction clauses with
    | nil => exact fun s _ h => h
    | cons clause rest ih =>
      intro s hwf h
      refine ih _ (fun c hc => hwf c (List.mem_cons_of_mem _ hc)) (hinsert _ _ h ?_)
      apply Lit.var_lt_of_mem_map_ofInt
      exact fun x hx => ⟨LiteralSet.ne_zero_of_mem_literals hx, hwf clause (by simp) x hx⟩
  exact hfold _ _ (fun clause hc => hcnf clause (by simpa using hc)) hstart

theorem reaches_newVars (n : Nat) (settings : SolverSettings) :
    Reaches ⟨true, Search.newVars n (Search.empty settings), {}⟩ n := by
  refine fun _ => ⟨.start settings, ?_⟩
  have hblank := Search.Blank.newVars n (Search.blank_empty settings)
  show (Search.newVars n (Search.empty settings)).propagator.trail.level = 0
  rw [Trail.level, hblank.limits]
  rfl

theorem reaches_ofCnf {cnf : Cnf} (hcnf : cnf.WellFormed) (settings : SolverSettings) :
    (ofCnf cnf settings).Reaches cnf.size :=
  ofCnf_rule (P := fun s => s.Reaches cnf.size) hcnf settings (reaches_newVars cnf.size settings)
    fun _ _ h hvars => h.insert hvars

theorem Reaches.toLits (h : s.Reaches n) (hcon : s.consistent = true) {lits : List Int}
    {lits' : List Lit} (he : s.toLits lits = .ok lits') : ∀ l ∈ lits', l.var < n := by
  have hnum : s.numVars = n := (h hcon).1.ok.numVars
  unfold Solver.toLits at he
  rw [hnum] at he
  split at he
  · rename_i hok
    cases he
    exact Lit.var_lt_of_mem_map_ofInt (Cnf.checkLiteralsWithin_eq_ok.1 hok)
  · cases he

theorem Reaches.addClause (h : s.Reaches n) (lits : List Int) : (s.addClause lits).2.Reaches n := by
  unfold Solver.addClause
  split
  · exact h
  · rename_i clause he
    have hinsert : (s.insert clause).Reaches n := by
      by_cases hcon : s.consistent = true
      · exact h.insert (h.toLits hcon he)
      · rw [Solver.insert, if_neg hcon]
        exact h
    dsimp only
    split
    · exact hinsert
    · rename_i hcon
      exact fun hcon' => absurd hcon' hcon

theorem Reaches.solve (h : s.Reaches n) (assumptions : List Int) :
    (s.solve assumptions).2.Reaches n := by
  unfold Solver.solve
  split
  · exact h
  · rename_i lits he
    split
    · exact h
    · rename_i hcon
      have htrue : s.consistent = true := by simpa using hcon
      have hvars : ∀ l ∈ lits.toArray, l.var < n := by simpa using h.toLits htrue he
      obtain ⟨consistent, search, budget⟩ := s
      have hrun := (h htrue).1.run hvars budget
      dsimp only
      generalize search.run budget lits.toArray = out at *
      obtain ⟨verdict, search'⟩ := out
      cases verdict with
      | satisfiable model => exact fun _ => hrun nofun
      | unsatisfiable => exact nofun
      | assumptionsFail => exact fun _ => hrun nofun
      | interrupted progress =>
        exact fun _ => ⟨(hrun nofun).1.note rfl rfl rfl rfl, (hrun nofun).2⟩
      | outOfSteps => exact fun _ => hrun nofun

theorem Reaches.perform (h : s.Reaches n) (call : Call) : (call.perform s).Reaches n := by
  cases call with
  | addClause lits => exact h.addClause lits
  | solve assumptions => exact h.solve assumptions
  | shuffle rand =>
    intro hcon
    obtain ⟨hreach, hground⟩ := h hcon
    exact ⟨hreach.requeue (DecisionQueue.waits_shuffle hreach.ok.waits.numVars rand _), hground⟩
  | setPolarity polarity =>
    intro hcon
    obtain ⟨hreach, hground⟩ := h hcon
    have hwaits := hreach.ok.waits
    exact ⟨hreach.requeue ⟨hwaits.heap, hwaits.numVars, hwaits.bound, hwaits.mem⟩, hground⟩
  | withBudget change => exact h
  | takeEvents =>
    intro hcon
    obtain ⟨hreach, hground⟩ := h hcon
    exact ⟨hreach.note rfl rfl rfl rfl, hground⟩

/-- **Between its operations a solver is in a reachable state**, unless its clauses were found to be
    contradictory. -/
theorem reaches_after {cnf : Cnf} (hcnf : cnf.WellFormed) (settings : SolverSettings)
    (calls : List Call) : ((ofCnf cnf settings).after calls).Reaches cnf.size := by
  have hcalls : ∀ (calls : List Call) (s : Solver), s.Reaches cnf.size →
      (s.after calls).Reaches cnf.size := by
    intro calls
    induction calls with
    | nil => exact fun s h => h
    | cons call calls ih => exact fun s h => ih _ (h.perform call)
  exact hcalls calls _ (reaches_ofCnf hcnf settings)

end Solver

end ConfigSampler
