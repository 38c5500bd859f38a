import ConfigSampler.Proofs.CoveringLedger
import ConfigSampler.Proofs.HandingOut
import ConfigSampler.Proofs.Solutions

/-!
# States of covering runs

The solver of a covering run may fail, be interrupted or miss models as it likes; only the models that
it gives have to be right (`SatSolver.Truthful`).  A solve can be cut off after its candidate was taken
and counted, at any place of the attempts to cover it.  In every state that steps lead to, the
candidates that were decided, the one that waits and the ones ahead still are those of the fresh
cursor, in order, and every working configuration has a model for all that it keeps
(`Covering.Standing`).

Principal result: `Covering.standing_of_steps`.
-/

set_option autoImplicit false

namespace ConfigSampler

open LiteralSet

/-! ## Solvers whose models are right -/

namespace SatSolver

variable {S : Type} [SatSolver S]

/-- Solves, each with any flag to look at, lead from one state of a solver to another; the events may
    be taken out in between. -/
inductive Leads : S → S → Prop
  | refl (s : S) : Leads s s
  | solve {s s' : S} (flag? : Option Flag) (assumptions : List Int) (h : Leads s s') :
      Leads s (SatSolver.solve s' flag? assumptions).2
  | takeEvents {s s' : S} (h : Leads s s') : Leads s (SatSolver.takeEvents s').2

theorem Leads.trans {s s' s'' : S} (h : Leads s s') (h' : Leads s' s'') : Leads s s'' := by
  induction h' with
  | refl => exact h
  | solve flag? assumptions _ ih => exact ih.solve flag? assumptions
  | takeEvents _ ih => exact ih.takeEvents

/-- Every model that the solver gives, now or after other solves, is a full assignment that satisfies
    the formula and contains the assumptions.  Nothing is said of its other answers. -/
def Truthful (s : S) (cnf : Cnf) : Prop :=
  ∀ s', Leads s s' → ∀ flag? assumptions config,
    (SatSolver.solve s' flag? assumptions).1 = .ok (.model config) →
    config.IsFull cnf.size ∧ cnf.isSatisfiedBy config = true ∧
      ∀ x ∈ assumptions, config.contains x = true

variable {s s' : S} {cnf : Cnf}

theorem Truthful.of_leads (h : Truthful s cnf) (hl : Leads s s') : Truthful s' cnf :=
  fun s'' hl' => h s'' (hl.trans hl')

theorem Leads.stands [LawfulSatSolver S] {n : Nat} {F : Assignment → Prop} (hl : Leads s s')
    (h : LawfulSatSolver.Stands s n F) : LawfulSatSolver.Stands s' n F := by
  induction hl with
  | refl => exact h
  | solve flag? assumptions _ ih => exact LawfulSatSolver.solve_stands flag? assumptions ih
  | takeEvents _ ih => exact LawfulSatSolver.takeEvents ih

/-- A lawful solver is truthful about a formula that its clauses imply. -/
theorem truthful_of_stands [LawfulSatSolver S] (hcnf : cnf.WellFormed) {F : Assignment → Prop}
    (hF : ∀ α, F α → cnf.Models α) (h : LawfulSatSolver.Stands s cnf.size F) : Truthful s cnf := by
  intro s' hl flag? assumptions config hmodel
  obtain ⟨hfull, hmodels, hcontains⟩ :=
    LawfulSatSolver.solve_model (hl.stands h) (Prod.ext hmodel rfl)
  exact ⟨hfull, (hcnf.isSatisfiedBy_iff hfull).2 (hF _ hmodels), hcontains⟩

end SatSolver

/-- The full set of the assignment satisfies the formula. -/
def Cnf.Satisfied (cnf : Cnf) (α : Assignment) : Prop :=
  cnf.isSatisfiedBy (ofAssignment cnf.size α) = true

theorem LiteralSet.IsFull.satisfied_iff {cnf : Cnf} {config : LiteralSet}
    (h : config.IsFull cnf.size) :
    cnf.Satisfied config.assignment ↔ cnf.isSatisfiedBy config = true := by
  rw [Cnf.Satisfied, ← h.eq_ofAssignment]

/-- The working configuration is consistent, and its model satisfies the formula and contains what is
    kept. -/
structure Working.Sound (w : Working) (cnf : Cnf) : Prop where
  consistent : w.kept.isContradictory = false
  includes : w.witness.Includes w.kept
  full : w.witness.IsFull cnf.size
  satisfied : cnf.isSatisfiedBy w.witness = true

namespace Answers

/-- Models are right about the assignments that `F` accepts; of the other answers nothing is known. -/
def truthful (n : Nat) (F : Assignment → Prop) : Answers :=
  { unknown with Model := (right True n F).Model }

theorem truthful_truthful (n : Nat) (F : Assignment → Prop) : (truthful n F).Truthful n F :=
  fun _ _ hmodel => hmodel

variable {S σ : Type} [SatSolver S] [Monitor σ] {cx : Context S σ} {cnf : Cnf}

theorem leads_ask (cx : Context S σ) (assumptions : List Int) :
    SatSolver.Leads cx.solver (cx.ask assumptions).2.solver :=
  ((SatSolver.Leads.refl _).solve _ assumptions).takeEvents

/-- A truthful solver answers so. -/
theorem governs_truthful (cnf : Cnf) : (truthful cnf.size cnf.Satisfied).Governs
    fun cx : Context S σ => SatSolver.Truthful cx.solver cnf where
  solve {cx} assumptions h := by
    have hafter := leads_ask cx assumptions
    have hmodel : ∀ config, (cx.ask assumptions).1 = .ok (.model config) →
        config.IsFull cnf.size ∧ cnf.isSatisfiedBy config = true ∧
          ∀ x ∈ assumptions, config.contains x = true :=
      h _ (.refl _) (Monitor.sharedFlag cx.monitor) assumptions
    unfold Context.solve
    generalize cx.ask assumptions = out at hafter hmodel ⊢
    obtain ⟨result, cx'⟩ := out
    cases result with
    | error e => exact ⟨h.of_leads hafter, trivial⟩
    | ok answer =>
      cases answer with
      | model config =>
        obtain ⟨hfull, hsat, hcontains⟩ := hmodel config rfl
        exact ⟨h.of_leads hafter, hfull, hfull.satisfied_iff.2 hsat, hcontains⟩
      | noModel => exact ⟨h.of_leads hafter, trivial⟩
      | outOfSteps => exact ⟨h.of_leads hafter, trivial⟩
      | interrupted =>
        -- to ask the monitor leaves the solver as it is
        have hpolled : SatSolver.Truthful cx'.poll.2.solver cnf := h.of_leads hafter
        dsimp only
        split <;> rename_i hpoll <;> rw [hpoll] at hpolled <;> exact ⟨hpolled, trivial⟩
  contradicted _ _ := trivial
  redraw _ h := h
  report _ h := h
  announce _ h := h
  worked _ h := h

end Answers

/-! ## Cursors -/

/-- Requests for candidates yield exactly these, in this order. -/
def Cursor.Enumerates (c : Cursor) (unions : List LiteralSet) : Prop :=
  c.take (unions.length + 1) = (unions, true)

theorem Cursor.Stands.enumerates {c : Cursor} {t : Nat}
    {choices : List (ExpressionGroup × List Nat)} (ht : 0 < t) (h : c.Stands t choices) :
    c.Enumerates (consistentUnions choices) := by
  rw [Enumerates, take_of_stands ht h, List.take_of_length_le (Nat.le_succ _),
    decide_eq_true (Nat.lt_succ_self _)]

namespace Covering

variable {g g' fresh : Covering} {A : Answers} {n t maxConfigs : Nat} {F : Assignment → Prop}
  {groups : List ExpressionGroup} {verdicts : List Judged} {waiting : Option LiteralSet}
  {u : LiteralSet} {cnf : Cnf} {outcome : Except SampleError Outcome}

/-! ## Working configurations -/

/-- The working configurations: all that were opened, and while they are handed out those that are
    left. -/
def held (g : Covering) : List Working :=
  match g.phase with
  | .covering => g.working.toList
  | .emitting queue => queue

/-- The working configurations fit, and those that are left to be handed out are the last of them. -/
structure Supplied (g : Covering) (n : Nat) (F : Assignment → Prop) : Prop where
  stocked : g.Stocked n F
  queue : ∀ queue, g.phase = .emitting queue → queue <:+ g.working.toList

theorem Supplied.held_suffix (h : g.Supplied n F) : g.held <:+ g.working.toList := by
  unfold held
  split
  · exact List.suffix_refl _
  · rename_i queue hphase
    exact h.queue queue hphase

/-- A state that is still covering has nothing to hand out. -/
theorem supplied_of_covering (h : g.Stocked n F) (hphase : g.phase = .covering) :
    g.Supplied n F := by
  exact ⟨h, fun queue hqueue => absurd hqueue (not_emitting hphase queue)⟩

/-- **Every step leaves models for what is kept**, if the models it gets are right. -/
theorem Supplied.step {settings : SampleSettings} {accepted : Array LiteralSet}
    {result : Except SampleError Step} (h : g.Supplied n F) (hA : A.Truthful n F)
    (hmoves : Moves A settings accepted g result g') : g'.Supplied n F := by
  -- the state while a candidate is covered
  have hcovers : ∀ {u : LiteralSet} {g₁ g₂ : Covering} {outcome : Except SampleError Outcome},
      g.phase = .covering → g.takeCandidate = (some u, g₁) → Move A g₁ u outcome g₂ →
      g₂.Stocked n F ∧ g₂.phase = .covering := by
    intro u g₁ g₂ outcome hphase htake hmove
    refine ⟨hmove.stocked_of_truthful hA (stocked_of_takeCandidate h.stocked htake), ?_⟩
    rw [hmove.extends.phase, (takeCandidate_same htake).2.2, hphase]
  -- the state while configurations are handed out
  have hhands : ∀ {w : Working} {rest : List Working}, g.phase = .emitting (w :: rest) →
      Supplied { g with phase := .emitting rest } n F := by
    intro w rest hphase
    refine ⟨⟨h.stocked.room, h.stocked.fits⟩, fun queue hqueue => ?_⟩
    obtain rfl := CoveringPhase.emitting.inj hqueue
    exact (List.suffix_cons w rest).trans (h.queue _ hphase)
  cases hmoves with
  | done => exact h
  | exhausted => exact h
  | finished =>
    refine ⟨⟨h.stocked.room, h.stocked.fits⟩, fun queue hqueue => ?_⟩
    obtain rfl := CoveringPhase.emitting.inj hqueue
    exact List.suffix_refl _
  | settled hphase _ htake hmove =>
    obtain ⟨hstocked, hphase'⟩ := hcovers hphase htake hmove
    exact supplied_of_covering ⟨hstocked.room, hstocked.fits⟩ hphase'
  | retained hphase _ htake hmove =>
    obtain ⟨hstocked, hphase'⟩ := hcovers hphase htake hmove
    exact supplied_of_covering hstocked hphase'
  | handed hphase => exact hhands hphase
  | dropped hphase => exact hhands hphase
  | held => exact h

/-! ## Reachable states -/

/-- Steps lead from one state of a covering run to another, each of them with any solver whose models
    are right, any monitor and any sample. -/
inductive Steps (cnf : Cnf) (fresh : Covering) : Covering → Prop
  | refl : Steps cnf fresh fresh
  | step {S σ : Type} [SatSolver S] [Monitor σ] {g : Covering} (settings : SampleSettings)
    (accepted : Array LiteralSet) (cx : Context S σ) (htruthful : SatSolver.Truthful cx.solver cnf)
    (h : Steps cnf fresh g) : Steps cnf fresh (g.step settings accepted cx).2.1

/-- What is known of the state of a covering run, whose fresh cursor was `start`. -/
structure Standing (g : Covering) (cnf : Cnf) (start : Cursor) (maxConfigs : Nat)
    (verdicts : List Judged) (waiting : Option LiteralSet) (ahead : List LiteralSet) : Prop where
  /-- Every candidate was taken once, in order: those with a verdict, and the one that waits. -/
  taken : start.Enumerates (verdicts.map Judged.union ++ waiting.toList ++ ahead)
  ahead : g.cursor.Enumerates ahead
  covered : g.coverage.covered = verdicts.countP Judged.covered
  infeasible : g.coverage.infeasible = verdicts.countP fun v => !v.covered
  /-- If nothing may be yielded at all, the candidates are counted at the start. -/
  counted : g.phase = .covering → maxConfigs ≠ 0 →
    g.coverage.candidates = verdicts.length + waiting.toList.length
  inProgress : g.truncated = false → waiting = g.pending
  /-- The candidate that found no room waits, and there is none if nothing may be yielded at all. -/
  blocked : g.truncated = true → g.pending = none ∧ g.working.size = maxConfigs ∧
    (waiting = none → maxConfigs = 0 ∧ verdicts = [])
  sound : ∀ w ∈ g.held, w.Sound cnf
  kept : g.phase = .covering → ∀ v ∈ verdicts, v.covered = true →
    ∃ w ∈ g.held, w.kept.Includes v.union
  room : g.held.length ≤ maxConfigs

/-- The ledger and the working configurations give all that is known. -/
theorem Ledger.standing (ht : 0 < t)
    (h : g.Ledger A t groups verdicts waiting) (hs : g.Supplied cnf.size cnf.Satisfied)
    (hmax : g.maxConfigs = maxConfigs) :
    ∃ ahead, g.Standing cnf (Cursor.start groups t) maxConfigs verdicts waiting ahead := by
  obtain ⟨choices, hstands, hlist⟩ := h.listed
  have hheld : ∀ w ∈ g.held, w ∈ g.working := fun w hw =>
    Array.mem_toList_iff.1 (hs.held_suffix.subset hw)
  refine ⟨consistentUnions choices, ?_⟩
  exact {
    taken := hlist ▸ (Cursor.stands_start ht groups).enumerates ht
    ahead := hstands.enumerates ht
    covered := h.covered
    infeasible := h.infeasible
    counted := fun hphase hne => by
      rw [h.candidates hphase, h.counted_eq, if_neg (hmax ▸ hne)]
    inProgress := h.inProgress
    blocked := fun htruncated => by
      obtain ⟨hpending, hfull⟩ := h.blocked htruncated
      have hroom := hs.stocked.room
      rw [hmax] at hfull hroom
      refine ⟨hpending, ?_, fun hnone => ?_⟩
      · rcases hfull with hzero | ⟨u, -, hfull, -⟩ <;> omega
      · rcases hfull with hzero | ⟨u, hu, -⟩
        · exact ⟨hzero, (h.idle (hmax.trans hzero)).1⟩
        · rw [hnone] at hu
          cases hu
    sound := fun w hw => by
      have hfit := hs.stocked.fits w (hheld w hw)
      exact ⟨hfit.feasible.not_contradictory, hfit.includes, hfit.full,
        hfit.full.satisfied_iff.1 hfit.accepted⟩
    kept := fun hphase v hv hc => by
      obtain ⟨w, hw, hincludes⟩ := h.kept v hv hc
      refine ⟨w, ?_, hincludes⟩
      simpa [held, hphase] using hw
    room := by
      have hlength := hs.held_suffix.length_le
      rw [Array.length_toList] at hlength
      exact hmax ▸ Nat.le_trans hlength hs.stocked.room }

theorem cursor_start {policy : ExtensionPolicy} {given : Option (List ExpressionGroup)}
    (h : start cnf t policy given maxConfigs = .ok fresh) :
    fresh.cursor = Cursor.start fresh.groups t := by
  unfold start at h
  split at h
  · cases h
  split at h
  · cases h
  cases h
  rfl

/-- **In every state of a covering run**, whatever the solver answers as long as its models are right,
    each candidate was taken once and in order, and only the one in progress or the one that found no
    room has no verdict; what is kept is consistent and part of a model; no candidate that counts as
    covered is lost before configurations are handed out; and there is room for all working
    configurations. -/
theorem standing_of_steps {policy : ExtensionPolicy} {given : Option (List ExpressionGroup)}
    (hstart : start cnf t policy given maxConfigs = .ok fresh) (hsteps : Steps cnf fresh g) :
    ∃ verdicts waiting ahead,
      g.Standing cnf fresh.cursor maxConfigs verdicts waiting ahead := by
  obtain ⟨ht, hledger, hphase, hworking, hmax⟩ :=
    ledger_start hstart (.truthful cnf.size cnf.Satisfied)
  have hsupplied : fresh.Supplied cnf.size cnf.Satisfied := by
    refine supplied_of_covering ⟨?_, ?_⟩ hphase
    · simp [hworking]
    · simp [hworking]
  have hinv : ∃ verdicts waiting,
      g.Ledger (.truthful cnf.size cnf.Satisfied) t fresh.groups verdicts waiting ∧
      g.Supplied cnf.size cnf.Satisfied ∧ g.maxConfigs = maxConfigs := by
    induction hsteps with
    | refl => exact ⟨_, _, hledger, hsupplied, hmax⟩
    | step settings accepted cx htruthful _ ih =>
      obtain ⟨verdicts, waiting, hledger, hsupplied, hmax⟩ := ih
      obtain ⟨-, hmoves⟩ :=
        step_moves settings accepted (Answers.governs_truthful cnf) htruthful
      obtain ⟨verdicts', waiting', hledger', -⟩ := hledger.step ht hmoves fun _ => rfl
      exact ⟨verdicts', waiting', hledger',
        hsupplied.step (Answers.truthful_truthful _ _) hmoves, hmoves.maxConfigs.trans hmax⟩
  obtain ⟨verdicts, waiting, hledger, hsupplied, hmax⟩ := hinv
  obtain ⟨ahead, hstanding⟩ := hledger.standing ht hsupplied hmax
  exact ⟨verdicts, waiting, ahead, cursor_start hstart ▸ hstanding⟩

/-- The context of a step with a new solver, where the run is cancelled or not. -/
def newContext (cnf : Cnf) (cancelled : Bool) : Context Solver ProgressLog :=
  ⟨Solver.ofCnf cnf {}, Random.ofSeed 0, ProgressLog.start cancelled, #[]⟩

/-- A candidate is taken and its solve is cut off, it is covered by the next step, and the step after
    that takes one that finds no room. -/
theorem standing_of_steps_cut_off : ∃ fresh g,
    start Cnf.firstSelected 1 .firstFit none 1 = .ok fresh ∧ Steps Cnf.firstSelected fresh g ∧
    g.coverage.candidates = 2 ∧ g.coverage.covered = 1 ∧ g.truncated = true ∧
    ∃ verdicts waiting ahead,
      g.Standing Cnf.firstSelected fresh.cursor 1 verdicts waiting ahead := by
  have htruthful : ∀ cancelled, SatSolver.Truthful (newContext Cnf.firstSelected cancelled).solver
      Cnf.firstSelected := fun _ =>
    SatSolver.truthful_of_stands (by decide) (fun _ hmodels => hmodels)
      (Solver.stands_ofCnf (by decide) {})
  have hcut := fun fresh : Covering =>
    Steps.step {} #[] _ (htruthful true) (.refl : Steps _ fresh fresh)
  have hcovered := fun fresh => (hcut fresh).step {} #[] _ (htruthful false)
  have hblocked := fun fresh => (hcovered fresh).step {} #[] _ (htruthful false)
  have hstart : start Cnf.firstSelected 1 .firstFit none 1 = .ok _ := rfl
  exact ⟨_, _, hstart, hblocked _, by decide +kernel, by decide +kernel, by decide +kernel,
    standing_of_steps hstart (hblocked _)⟩

end Covering

end ConfigSampler
