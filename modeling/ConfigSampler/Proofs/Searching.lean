import ConfigSampler.Proofs.Looks
import ConfigSampler.Proofs.SearchInvariant

/-!
# The loops of a search

Each loop is given by what holds of its state at every way out: rounds of propagation end with an
empty queue or a contradiction (`Search.stabilise_spec`), an attempt ends with all variables
assigned, a refuted assumption, a contradiction, a restart or an interruption
(`Search.attempt_spec`), and a whole search ends at ground level with a verdict that is right
(`Search.run_spec`).
-/

set_option autoImplicit false

namespace ConfigSampler

namespace Search

open Propagator

variable {s s' : Search} {n : Nat} {F : Assignment → Prop} {assumptions : Array Lit}
  {polarity : Polarity} {l : Lit}
  {limit limit' : LearntLimit} {query : Query}

/-! ## Rounds of propagation -/

/-- Every literal on the trail was propagated. -/
structure Stable (s : Search) (assumptions : Array Lit) (polarity : Polarity) (n : Nat)
    (F : Assignment → Prop) : Prop
    extends s.Steady assumptions polarity n F where
  queueHead : s.propagator.trail.queueHead = s.propagator.trail.size

theorem Stable.idle (h : s.Stable assumptions polarity n F) : s.propagator.Idle :=
  ⟨h.ok.inOrder, h.settled, h.queueHead⟩

theorem Steady.congr (h : s.Steady assumptions polarity n F) (hp : s'.propagator = s.propagator)
    (hl : s'.lists = s.lists) (hq : s'.queue = s.queue) (hm : s'.marks = s.marks) :
    s'.Steady assumptions polarity n F :=
  ⟨h.ok.congr hp hl hq hm, by rw [hp]; exact h.settled, by rw [hp]; exact h.follows,
    by rw [hq]; exact h.rule⟩

/-- A look at the flag changes nothing else. -/
theorem Stable.looked (h : s.Stable assumptions polarity n F) :
    s.looked.Stable assumptions polarity n F :=
  ⟨h.toSteady.congr rfl rfl rfl rfl, h.queueHead⟩

theorem Steady.poised (h : s.Steady assumptions polarity n F) : s.Poised n F := ⟨h.ok, h.settled⟩

theorem Steady.backtrack (h : s.Steady assumptions polarity n F) (target : Nat) :
    (s.backtrack target).Steady assumptions polarity n F := by
  obtain ⟨hok, hsettled⟩ := h.poised.backtrack target
  refine ⟨hok, hsettled, ?_, (congrArg _ (settings_backtrack s target)).trans h.rule⟩
  have ht := h.ok.inOrder.ok.trail
  rw [propagator_backtrack]
  rcases Nat.lt_or_ge target s.propagator.trail.level with hlt | hge
  · exact h.follows.rewindTo ht (Nat.le_of_lt hlt)
  · rw [Propagator.rewindTo, ht.rewindTo_of_le hge]
    exact h.follows

/-- Every conflict but one at ground level goes to a lower level, so the rounds suffice. -/
theorem stabilise_spec : ∀ (rounds : Nat) {limit : LearntLimit} {s : Search} {round : Round},
    s.Steady assumptions polarity n F → s.propagator.trail.level < rounds →
    stabilise rounds limit s = (round, limit', s') →
    s'.Ok n F ∧ round ≠ .outOfSteps ∧ (round = .contradiction → ∀ α, ¬ F α) ∧
      (round = .stable → s'.Stable assumptions polarity n F)
  | 0, _, _, _, _, hlt, _ => absurd hlt (Nat.not_lt_zero _)
  | rounds + 1, limit, s, round, h, hlt, he => by
    unfold stabilise at he
    split at he
    · rename_i q hp
      obtain ⟨hin, hg, hqueue, hsettled, -⟩ := propagate_spec h.ok.inOrder h.settled hp
      cases he
      have hok := h.ok.grow hin hg
      exact ⟨hok, by decide, (fun hc => by cases hc), fun _ =>
        ⟨⟨hok, hsettled rfl, hg.follows h.follows, h.rule⟩, hqueue⟩⟩
    · rename_i conflict q hp
      obtain ⟨hin, hg, -, -, hconflict⟩ := propagate_spec h.ok.inOrder h.settled hp
      have hok := h.ok.grow hin hg
      have hfollows := hg.follows h.follows
      split at he
      · rename_i hlearn
        cases he
        obtain ⟨hok', hcon, -⟩ := hok.learn (hconflict _ rfl) hlearn
        exact ⟨hok', by decide, fun _ => hcon rfl, fun hc => by cases hc⟩
      · rename_i hlearn
        obtain ⟨-, -, hmore⟩ := hok.learn (hconflict _ rfl) hlearn
        obtain ⟨hpoised, hjump⟩ := hmore rfl
        have hlevel : q.trail.level = s.propagator.trail.level := hg.trail.level
        have hlower := Nat.lt_of_lt_of_le (hjump.level_lt hin.ok.trail) (Nat.le_of_eq hlevel)
        exact stabilise_spec rounds ⟨hpoised.ok, hpoised.settled, hfollows.jump hin.ok.trail hjump,
          (congrArg _ (settings_learn hlearn)).trans h.rule⟩ (by omega) he

/-! ## Decisions -/

theorem settings_collectGarbage (s : Search) :
    s.collectGarbage.queue.settings = s.queue.settings := by
  unfold collectGarbage
  split <;> rfl

theorem settings_reduceLearnts (s : Search) :
    s.reduceLearnts.queue.settings = s.queue.settings :=
  settings_collectGarbage _

theorem settings_simplify (s : Search) : s.simplify.queue.settings = s.queue.settings := by
  unfold simplify
  split
  · rfl
  · exact settings_collectGarbage _

theorem Stable.tidy (h : s.Stable assumptions polarity n F) (hok : s'.Ok n F)
    (ht : Tidied s.propagator s'.propagator) (hsettings : s'.queue.settings = s.queue.settings) :
    s'.Stable assumptions polarity n F := by
  refine ⟨⟨hok, ht.settled h.settled, ht.follows h.follows, (congrArg _ hsettings).trans h.rule⟩, ?_⟩
  rw [ht.trail]
  exact h.queueHead

theorem Stable.simplify (h : s.Stable assumptions polarity n F) :
    s.simplify.Stable assumptions polarity n F := by
  obtain ⟨hok, ht⟩ := h.ok.simplify
  exact h.tidy hok ht (settings_simplify s)

theorem Stable.reduceLearnts (h : s.Stable assumptions polarity n F) :
    s.reduceLearnts.Stable assumptions polarity n F := by
  obtain ⟨hok, ht⟩ := h.ok.reduceLearnts
  exact h.tidy hok ht (settings_reduceLearnts s)

/-- Opening levels changes neither values nor clauses. -/
theorem Poised.withLimits (h : s.Poised n F) {limits : Array Nat}
    (hidle : (s.propagator.withLimits limits).Idle) :
    Poised { s with propagator := s.propagator.withLimits limits } n F :=
  ⟨⟨h.ok.numVars, hidle.inOrder, fun α hα => ⟨(h.ok.sound α hα).clause, (h.ok.sound α hα).ground⟩,
    fun α hα => h.ok.complete α ⟨hα.clause, hα.ground⟩, h.ok.listed, h.ok.waits, h.ok.marks⟩,
    hidle.settled⟩

theorem Stable.withLimits (h : s.Stable assumptions polarity n F) {limits : Array Nat}
    (hidle : (s.propagator.withLimits limits).Idle)
    (hfollows : (s.propagator.withLimits limits).trail.Follows assumptions polarity) :
    Stable { s with propagator := s.propagator.withLimits limits } assumptions polarity n F :=
  have hopened := h.poised.withLimits hidle
  ⟨⟨hopened.ok, hopened.settled, hfollows, h.rule⟩, hidle.queueHead⟩

/-- A decision may take any literal without a value. -/
theorem Poised.decide (h : s.Poised n F) (hidle : s.propagator.Idle) (hl : l.var < n)
    (hfree : s.propagator.trail.isFree l.var = true)
    (hqueue : s'.queue.Waits n fun v => v ≠ l.var ∧ s.propagator.trail.isFree v = true)
    (hp : s'.propagator = { s.propagator with trail := s.propagator.trail.newLevel.assign l none })
    (hlists : s'.lists = s.lists) (hmarks : s'.marks = s.marks) : s'.Poised n F := by
  have ht := h.ok.inOrder.ok.trail
  have hlt : l.var < s.propagator.trail.numVars := by rw [h.ok.numVars]; exact hl
  obtain ⟨hin, hsettled⟩ := hidle.decide hlt hfree
  have hext : s.propagator.trail.newLevel.Extends (s.propagator.trail.newLevel.assign l none) :=
    .assign ht.newLevel hfree none
  have hlevel : (s.propagator.trail.newLevel.assign l none).levelOf l ≠ 0 := by
    rw [ht.newLevel.levelOf_assign hlt, Trail.level_newLevel]
    exact Nat.succ_ne_zero _
  refine ⟨⟨?_, ?_, fun α hα => ?_, fun α hα => h.ok.complete α ?_, ?_, ?_, ?_⟩, ?_⟩
  · rw [hp]
    exact (Trail.numVars_assign ..).trans h.ok.numVars
  · rw [hp]
    exact hin
  · rw [hp]
    have hm := h.ok.sound α hα
    refine ⟨hm.clause, fun m hmem h0 => ?_⟩
    rcases Trail.mem_assign.1 hmem with hold | rfl
    · exact hm.ground m hold ((hext.levelOf m hold).symm.trans h0)
    · exact absurd h0 hlevel
  · rw [hp] at hα
    exact ⟨hα.clause, fun m hm h0 => hα.ground m (hext.mem hm) ((hext.levelOf m hm).trans h0)⟩
  · rw [hp, hlists]
    exact h.ok.listed
  · rw [hp]
    refine hqueue.mono fun v _ hv => ⟨?_, ?_⟩
    · rintro rfl
      have hv' := ((ht.newLevel.assign hlt hfree none).isFree_iff l).1 hv
      rw [(ht.newLevel.isTrue_assign hlt hfree none).2 (.inl rfl)] at hv'
      cases hv'.1
    · exact ht.newLevel.isFree_of_isTrue (ht.newLevel.assign hlt hfree none)
        (fun m hm => (ht.newLevel.isTrue_assign hlt hfree none).2 (.inr hm)) hv
  · rw [hmarks]
    exact h.ok.marks
  · rw [hp]
    exact hsettled

/-- A decision may take any allowed literal without a value, or the assumption of the level. -/
theorem Stable.decide (h : s.Stable assumptions polarity n F) (hl : l.var < n)
    (hfree : s.propagator.trail.isFree l.var = true)
    (hassumption : s.propagator.trail.level < assumptions.size →
      l = assumptions.getD s.propagator.trail.level default)
    (hallowed : assumptions.size ≤ s.propagator.trail.level → polarity.Allows l)
    (hqueue : s'.queue.Waits n fun v => v ≠ l.var ∧ s.propagator.trail.isFree v = true)
    (hp : s'.propagator = { s.propagator with trail := s.propagator.trail.newLevel.assign l none })
    (hlists : s'.lists = s.lists) (hmarks : s'.marks = s.marks)
    (hsettings : s'.queue.settings = s.queue.settings) : s'.Steady assumptions polarity n F := by
  have hlt : l.var < s.propagator.trail.numVars := by rw [h.ok.numVars]; exact hl
  obtain ⟨hok, hsettled⟩ := h.poised.decide h.idle hl hfree hqueue hp hlists hmarks
  refine ⟨hok, hsettled, ?_, (congrArg _ hsettings).trans h.rule⟩
  rw [hp]
  exact h.follows.decide h.ok.inOrder.ok.trail hlt hfree hassumption hallowed

/-- What is relied on after a decision. -/
def Decides (assumptions : Array Lit) (polarity : Polarity) (n : Nat) (F : Assignment → Prop)
    (s : Search) : Decision → Prop
  | .assumptionFails => s.Steady assumptions polarity n F ∧
      ∀ α, F α → ∃ l ∈ assumptions, ¬ l.Holds α
  | .allAssigned => s.Stable assumptions polarity n F ∧
      assumptions.size ≤ s.propagator.trail.level ∧ ∀ v < n, s.propagator.trail.isFree v = false
  | .decide l => Steady { s with propagator := { s.propagator with
      trail := s.propagator.trail.newLevel.assign l none } } assumptions polarity n F

theorem nextDecision_spec (h : s.Stable assumptions polarity n F)
    (hvars : ∀ l ∈ assumptions, l.var < n) :
    Decides assumptions polarity n F (s.nextDecision assumptions).2 (s.nextDecision assumptions).1 := by
  obtain ⟨limits, htrail, hidle, hfollows, hawaits⟩ :=
    nextAssumption_spec _ s.propagator h.idle h.follows rfl
  have hopened := h.withLimits hidle hfollows
  unfold nextDecision
  simp only
  generalize nextAssumption assumptions _ s.propagator.trail = out at *
  obtain ⟨next, trail⟩ := out
  dsimp only at htrail hawaits ⊢
  subst htrail
  cases next with
  | some decision =>
    cases decision with
    | assumptionFails =>
      obtain ⟨hlevel, hfalse⟩ := hawaits
      exact ⟨hopened.toSteady, fun α hα =>
        hidle.inOrder.ok.not_holds_of_follows hfollows hlevel hfalse (hopened.ok.sound α hα)⟩
    | allAssigned => exact hawaits.elim
    | decide l =>
      obtain ⟨hlevel, hfree, rfl⟩ := hawaits
      have hmem : assumptions.getD (s.propagator.withLimits limits).trail.level default ∈
          assumptions := by
        simp only [Array.getD, hlevel, dite_true]
        exact Array.getElem_mem _
      exact hopened.decide (hvars _ hmem) hfree (fun _ => rfl)
        (fun hle => absurd hlevel (Nat.not_lt.2 hle))
        (hopened.ok.waits.mono fun _ _ hv => hv.2) rfl rfl rfl rfl
  | none =>
    have hpick := DecisionQueue.pickLit_spec (q := s.queue)
      (t := { s.propagator.trail with limits := limits }) hopened.ok.waits
    have hsettings := s.queue.settings_pickLit { s.propagator.trail with limits := limits }
    have hallowed : ∀ l, (s.queue.pickLit { s.propagator.trail with limits := limits }).1 = some l →
        polarity.Allows l := fun l hl => h.rule ▸ DecisionQueue.allows_of_pickLit hl
    dsimp only
    generalize DecisionQueue.pickLit s.queue _ = picked at *
    obtain ⟨choice, queue⟩ := picked
    cases choice with
    | none =>
      obtain ⟨hall, hwaits⟩ := hpick
      refine ⟨⟨⟨⟨hopened.ok.numVars, hidle.inOrder, hopened.ok.sound, hopened.ok.complete,
        hopened.ok.listed, hwaits, hopened.ok.marks⟩, hidle.settled, hfollows,
        (congrArg _ hsettings).trans h.rule⟩, hidle.queueHead⟩, hawaits, hall⟩
    | some l =>
      obtain ⟨hlt, hfree, hwaits⟩ := hpick
      exact hopened.decide hlt hfree (fun hlevel => absurd hawaits (Nat.not_le.2 hlevel))
        (fun _ => hallowed l rfl) hwaits rfl rfl rfl hsettings

/-! ## Attempts -/

/-- What is relied on after an attempt. -/
def Ends (query : Query) (polarity : Polarity) (n : Nat) (F : Assignment → Prop) (s : Search) :
    Attempt → Prop
  | .satisfiable => s.Stable query.assumptions polarity n F ∧
      query.assumptions.size ≤ s.propagator.trail.level ∧
      ∀ v < n, s.propagator.trail.isFree v = false
  | .unsatisfiable => s.Ok n F ∧ ∀ α, ¬ F α
  | .assumptionsFail => s.Steady query.assumptions polarity n F ∧
      ∀ α, F α → ∃ l ∈ query.assumptions, ¬ l.Holds α
  | .restart => s.Steady query.assumptions polarity n F
  | .interrupted _ => s.Steady query.assumptions polarity n F
  | .outOfSteps => s.Steady query.assumptions polarity n F

theorem attempt_spec (hvars : ∀ l ∈ query.assumptions, l.var < n) (conflictLimit : Nat) :
    ∀ (steps : Nat) {limit : LearntLimit} {s : Search} {out : Attempt},
      s.Steady query.assumptions polarity n F →
      attempt query conflictLimit steps limit s = (out, limit', s') → s'.Ends query polarity n F out
  | 0, _, _, _, h, he => by
    cases he
    exact h
  | steps + 1, limit, s, out, h, he => by
    unfold attempt at he
    split at he
    · rename_i hround
      exact absurd rfl (stabilise_spec _ h (by omega) hround).2.1
    · rename_i hround
      obtain ⟨hok, -, hcon, -⟩ := stabilise_spec _ h (by omega) hround
      cases he
      exact ⟨hok, hcon rfl⟩
    · rename_i limit₁ s₁ hround
      obtain ⟨-, -, -, hstable⟩ := stabilise_spec _ h (by omega) hround
      have h₁ := (hstable rfl).looked
      dsimp only at he
      generalize s₁.looked = s₁ at h₁ he
      split at he
      · cases he
        exact h₁.backtrack 0
      split at he
      · cases he
        exact h₁.backtrack 0
      -- housekeeping keeps the search stable whether or not learnt clauses are deleted
      have h₂ : Stable (if s₁.simplify.isOverfull limit₁ then s₁.simplify.reduceLearnts
          else s₁.simplify) query.assumptions polarity n F := by
        split
        · exact h₁.simplify.reduceLearnts
        · exact h₁.simplify
      generalize (if s₁.simplify.isOverfull limit₁ then s₁.simplify.reduceLearnts
          else s₁.simplify) = s₂ at h₂ he
      have hdecides := nextDecision_spec h₂ hvars
      split at he
      · rename_i hnext
        rw [hnext] at hdecides
        cases he
        exact hdecides
      · rename_i hnext
        rw [hnext] at hdecides
        cases he
        exact hdecides
      · rename_i hnext
        rw [hnext] at hdecides
        exact attempt_spec hvars conflictLimit steps hdecides he

/-! ## Whole searches -/

/-- Between searches: at ground level, with a guard for every literal that was propagated. -/
structure Resting (s : Search) (n : Nat) (F : Assignment → Prop) : Prop where
  ok : s.Ok n F
  settled : s.propagator.IsSettled
  ground : s.propagator.trail.level = 0

theorem Resting.congr (h : s.Resting n F) (hp : s'.propagator = s.propagator)
    (hl : s'.lists = s.lists) (hq : s'.queue = s.queue) (hm : s'.marks = s.marks) :
    s'.Resting n F :=
  ⟨h.ok.congr hp hl hq hm, by rw [hp]; exact h.settled, by rw [hp]; exact h.ground⟩

theorem Resting.steady (h : s.Resting n F) :
    s.Steady assumptions s.queue.settings.polarity n F :=
  ⟨h.ok, h.settled, Trail.follows_of_ground h.ok.inOrder.ok.trail h.ground, rfl⟩

theorem Steady.resting (h : s.Steady assumptions polarity n F) : (s.backtrack 0).Resting n F :=
  have hback := h.backtrack 0
  ⟨hback.ok, hback.settled, h.ok.inOrder.ok.trail.level_rewindTo (Nat.zero_le _)⟩

/-- The literals are those of an accepted assignment of `n` variables that makes the assumptions
    true, an extreme one under the polarity rule. -/
def IsModel (assumptions : Array Lit) (polarity : Polarity) (n : Nat) (F : Assignment → Prop)
    (model : List Lit) : Prop :=
  ∃ t : Trail, model = t.model ∧ t.Ok ∧ t.numVars = n ∧ (∀ v < n, t.isFree v = false) ∧
    F t.assignment ∧ (∀ l ∈ assumptions, l.Holds t.assignment) ∧
    t.assignment.IsExtreme polarity n fun α => F α ∧ ∀ l ∈ assumptions, l.Holds α

/-- A verdict that is right about the assignments that `F` accepts, and the state after it. -/
def Concludes (query : Query) (polarity : Polarity) (n : Nat) (F : Assignment → Prop) (s : Search) :
    Verdict → Prop
  | .satisfiable model => s.Resting n F ∧ IsModel query.assumptions polarity n F model
  | .unsatisfiable => s.Ok n F ∧ ∀ α, ¬ F α
  | .assumptionsFail => s.Resting n F ∧ ∀ α, F α → ∃ l ∈ query.assumptions, ¬ l.Holds α
  | .interrupted _ => s.Resting n F
  | .outOfSteps => s.Resting n F

/-- A stable search with a value for every variable and a level for every assumption has found a
    model. -/
theorem Stable.isModel (h : s.Stable assumptions polarity n F)
    (hlevel : assumptions.size ≤ s.propagator.trail.level)
    (hall : ∀ v < n, s.propagator.trail.isFree v = false) :
    IsModel assumptions polarity n F s.propagator.trail.model := by
  have hall' : ∀ v < s.propagator.trail.numVars, s.propagator.trail.isFree v = false := by
    rw [h.ok.numVars]; exact hall
  have ht := h.ok.inOrder.ok.trail
  have hmem : ∀ {l : Lit}, l.var < n → (l.Holds s.propagator.trail.assignment ↔
      l ∈ s.propagator.trail.lits) := fun hl =>
    (ht.holds_assignment (hall _ hl)).trans (ht.isTrue_iff _)
  have hvar : ∀ l ∈ s.propagator.trail.lits, l.var < n := fun l hl =>
    Nat.lt_of_lt_of_eq (ht.var_lt l hl) h.ok.numVars
  refine ⟨_, rfl, ht, h.ok.numVars, hall,
    h.ok.complete _ (h.ok.inOrder.models h.settled h.queueHead hall').problem, fun l hl => ?_, ?_⟩
  · obtain ⟨k, hk, rfl⟩ := Array.mem_iff_getElem.1 hl
    obtain ⟨hlits, -⟩ := h.follows.holds k hk (by omega)
    simp only [Array.getD, hk, dite_true] at hlits
    exact (hmem (hvar _ hlits)).2 hlits
  · -- the trail is settled by the assumptions and by the free decisions, which are allowed
    rintro α ⟨hα, hassumed⟩ hkept l hl hholds
    refine h.ok.inOrder.ok.holds_of_follows h.follows (h.ok.sound α hα) hassumed (fun k m hk hm => ?_)
      l ((hmem hl).1 hholds)
    have hm' := hvar m hm.mem
    exact hkept m hm' (h.follows.allowed k m hk hm) ((hmem hm').2 hm.mem)

theorem attempts_spec (hvars : ∀ l ∈ query.assumptions, l.var < n) :
    ∀ (steps : Nat) (restarts : UInt32) {limit : LearntLimit} {s : Search} {verdict : Verdict},
      s.Steady query.assumptions polarity n F →
      attempts query steps restarts limit s = (verdict, s') →
      (s'.backtrack 0).Concludes query polarity n F verdict
  | 0, _, _, _, _, h, he => by
    cases he
    exact h.resting
  | steps + 1, restarts, limit, s, verdict, h, he => by
    unfold attempts at he
    dsimp only at he
    have hstart : Steady { s with starts := s.starts + 1 } query.assumptions polarity n F :=
      h.congr rfl rfl rfl rfl
    split at he <;> rename_i hattempt <;> have hends := attempt_spec hvars _ _ hstart hattempt
    · exact attempts_spec hvars steps (restarts + 1) hends he
    all_goals cases he
    · exact ⟨hends.1.toSteady.resting, hends.1.isModel hends.2.1 hends.2.2⟩
    · exact ⟨hends.1.backtrack 0, hends.2⟩
    · exact ⟨hends.1.resting, hends.2⟩
    · exact hends.resting
    · exact hends.resting

/-- **A search comes to a right verdict** about the assignments its state stands for, and leaves the
    state ready for the next one. -/
theorem run_spec (h : s.Resting n F) (hvars : ∀ l ∈ assumptions, l.var < n) (budget : Budget) :
    (s.run budget assumptions).2.Concludes (s.question budget assumptions)
      s.queue.settings.polarity n F (s.run budget assumptions).1 := by
  unfold run
  dsimp only
  generalize hattempts : attempts _ _ _ _ _ = out
  obtain ⟨verdict, s'⟩ := out
  have hstart : Steady { s.report (.searchStarted assumptions.size s.lists.learnts.size) with
      solves := s.solves + 1 } assumptions s.queue.settings.polarity n F :=
    h.steady.congr rfl rfl rfl rfl
  have hquery : ∀ l ∈ (s.question budget assumptions).assumptions, l.var < n := hvars
  exact attempts_spec hquery _ _ hstart hattempts

end Search

end ConfigSampler
