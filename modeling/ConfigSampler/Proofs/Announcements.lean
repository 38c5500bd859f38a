import ConfigSampler.Proofs.CoveringLedger
import ConfigSampler.Proofs.HandingOut
import ConfigSampler.Proofs.Recording
import ConfigSampler.Proofs.RequestedCandidates

/-!
# Announced work

The random strategy leaves all reports to the driver.  A covering run reports one unit of work for each
candidate that gets its verdict, and announces what is left when it turns to handing out
(`Covering.step_told`).  The verdicts are no more than the estimated candidates and the configurations
no more than the working configurations, so both strategies keep books, whatever the solver answers
(`RandomStrategy.bookkeeping`, `Covering.bookkeeping`).

Principal result: `work_within_announced`.
-/

set_option autoImplicit false

namespace ConfigSampler

open Monitor Sampler

/-! ## The random strategy -/

namespace RandomStrategy

variable {S σ : Type} [SatSolver S]

theorem messages_prepare (cx : Context S (Recorder σ)) : (prepare cx).messages = cx.messages := rfl

/-- The books of a run for `count` configurations: all work that is reported is the driver's. -/
structure Books (settings : SampleSettings) (count : Nat) (g : RandomStrategy)
    (accepted : Array LiteralSet) (messages : List Message) : Prop where
  count_eq : g.count = count
  neverAhead : NeverAhead messages
  work : workOf messages = ⟨accepted.size, min count settings.maxSize⟩
  found : accepted.size ≤ g.found

/-- **The random strategy keeps books.** -/
theorem bookkeeping (settings : SampleSettings) (count : Nat) :
    Bookkeeping settings (fun _ => Books settings count) (fun _ => True) where
  neverAhead h := h.neverAhead
  step {S σ} _ _ left g accepted cx h hroom := by
    have hmessages : ((prepare cx).solve []).2.messages = cx.messages :=
      (Context.messages_solve (prepare cx) []).trans (messages_prepare cx)
    show Sampler.Books _ _ _ (step g cx)
    unfold step
    split
    · exact ⟨h, trivial⟩
    rename_i hmore
    split <;> rename_i hsolve <;> rw [hsolve] at hmessages <;> dsimp only at hmessages
    · show NeverAhead _
      rw [hmessages]
      exact h.neverAhead
    · rename_i config cx'
      have hle : accepted.size + 1 ≤ min count settings.maxSize := by
        have := h.found
        have := h.count_eq
        omega
      refine ⟨config, rfl, ?_, ?_⟩ <;> rw [hmessages]
      · exact ⟨h.count_eq, h.neverAhead, h.work, Nat.le_succ_of_le h.found⟩
      · refine ⟨h.count_eq, h.neverAhead.worked h.work hle, ?_, ?_⟩
        · rw [workOf_worked h.work, Array.size_push]
        · rw [Array.size_push]
          exact Nat.succ_le_succ h.found
    · show Books _ _ _ _ _
      rw [hmessages]
      exact h
    · show Books _ _ _ _ _
      rw [hmessages]
      exact h

end RandomStrategy

/-! ## Covering runs -/

namespace Covering

variable {S σ : Type} {g g' : Covering} {u : LiteralSet} {settings : SampleSettings}
  {accepted : Array LiteralSet}

theorem messages_extensionOrder (cx : Context S (Recorder σ)) :
    (g.extensionOrder cx).2.messages = cx.messages := by
  unfold extensionOrder
  dsimp only
  split <;> rfl

variable [SatSolver S] [Monitor σ]

theorem messages_extendAny (order : List Nat) : ∀ cx : Context S (Recorder σ),
    (extendAny u order g cx).2.2.messages = cx.messages := by
  induction order with
  | nil => exact fun _ => rfl
  | cons i rest ih =>
    intro cx
    have hsolve := cx.messages_solve ((g.workingAt i).kept.union u).literals
    unfold extendAny
    dsimp only
    split
    · exact ih cx
    · split <;> rename_i he <;> rw [he] at hsolve
      · exact hsolve
      · exact hsolve
      · exact (ih _).trans hsolve
      · exact hsolve

theorem messages_openWorking (cx : Context S (Recorder σ)) :
    (g.openWorking cx u).2.2.messages = cx.messages := by
  have hsolve := cx.messages_solve u.literals
  unfold openWorking
  split
  · rfl
  · split <;> rename_i he <;> rw [he] at hsolve <;> exact hsolve

/-- To cover a candidate is no work of its own. -/
theorem messages_cover (cx : Context S (Recorder σ)) :
    (g.cover cx u).2.2.messages = cx.messages := by
  have horder := messages_extensionOrder (g := g) cx
  unfold cover
  split
  · rfl
  unfold coverNew
  dsimp only
  split
  · exact horder
  · have hextend := messages_extendAny (g := g) (u := u) (g.extensionOrder cx).1
      (g.extensionOrder cx).2
    split <;> rename_i he <;> rw [he] at hextend
    · exact hextend.trans horder
    · exact hextend.trans horder
    · exact hextend.trans horder
    · exact (messages_openWorking _).trans (hextend.trans horder)

/-- The candidates that are counted as covered or infeasible. -/
def decidedCount (g : Covering) : Nat := g.coverage.covered + g.coverage.infeasible

/-- What the monitor is told when a step leads from one state to another. -/
def told (g g' : Covering) : List Message :=
  match g.phase, g'.phase with
  | .covering, .covering => List.replicate (g'.decidedCount - g.decidedCount) (.worked 1)
  | .covering, .emitting _ => [.announced g.working.size]
  | .emitting _, _ => []

omit [SatSolver S] [Monitor σ]

theorem told_of_covering (h : g.phase = .covering) (h' : g'.phase = .covering) :
    g.told g' = List.replicate (g'.decidedCount - g.decidedCount) (.worked 1) := by
  simp [told, h, h']

theorem told_of_emitting {queue : List Working} (h : g.phase = .emitting queue) (g' : Covering) :
    g.told g' = [] := by
  simp [told, h]

theorem told_self (g : Covering) : g.told g = [] := by
  cases h : g.phase with
  | covering => simp [told_of_covering h h]
  | emitting queue => exact told_of_emitting h g

/-- To take a candidate decides nothing. -/
theorem takeCandidate_decidedCount (h : g.takeCandidate = (some u, g')) :
    g'.decidedCount = g.decidedCount ∧ g'.truncated = g.truncated := by
  unfold takeCandidate at h
  split at h
  · cases h
    exact ⟨rfl, rfl⟩
  · split at h
    · cases h
    · cases h
      exact ⟨rfl, rfl⟩

/-- A candidate that is settled is counted, unless it finds no room. -/
theorem Move.decidedCount_settled {A : Answers} (h : Move A g u (.ok .settled) g')
    (hopen : g.truncated = false) :
    g'.decidedCount = g.decidedCount + if g'.truncated then 0 else 1 := by
  cases h with
  | kept =>
    simp only [decidedCount, countCovered, hopen, Bool.false_eq_true, if_false]
    omega
  | joined =>
    simp only [decidedCount, countCovered, setWorking, hopen, Bool.false_eq_true, if_false]
    omega
  | opened =>
    simp only [decidedCount, countCovered, hopen, Bool.false_eq_true, if_false]
    omega
  | infeasible =>
    simp only [decidedCount, countInfeasible, hopen, Bool.false_eq_true, if_false]
    omega
  | unplaced => rfl

/-- A candidate that is not settled changes nothing. -/
theorem Move.eq_of_not_settled {A : Answers} {outcome : Except SampleError Outcome}
    (h : Move A g u outcome g') (hne : outcome ≠ .ok .settled) : g' = g := by
  cases h with
  | failed => rfl
  | interrupted => rfl
  | _ => exact absurd rfl hne

variable [SatSolver S] [Monitor σ]

theorem coverStep_told (cx : Context S (Recorder σ)) (hphase : g.phase = .covering) :
    (g.coverStep cx).2.2.messages = cx.messages ++ g.told (g.coverStep cx).2.1 := by
  unfold coverStep
  split
  · rename_i g' hnone
    obtain rfl : g' = g := by
      split at hnone
      · cases hnone
        rfl
      · exact (takeCandidate_eq_none_iff.1 hnone).1
    simp [finishCovering, told, hphase]
  · rename_i u g' hsome
    obtain ⟨htake, hopen⟩ : g.takeCandidate = (some u, g') ∧ g.truncated = false := by
      split at hsome
      · cases hsome
      · rename_i htruncated
        exact ⟨hsome, by simpa using htruncated⟩
    obtain ⟨hcount, htruncated⟩ := takeCandidate_decidedCount htake
    have hphase' : g'.phase = .covering := (takeCandidate_same htake).2.2.trans hphase
    have hmessages := messages_cover (g := g') (u := u) cx
    have hmove : Move .unknown g' u (g'.cover cx u).1 (g'.cover cx u).2.1 :=
      (cover_move Answers.governs_unknown trivial).2
    have hunsettled : ∀ {outcome : Except SampleError Outcome} {g'' : Covering},
        Move .unknown g' u outcome g'' → outcome ≠ .ok .settled → g.told g'' = [] := by
      intro outcome g'' hmove hne
      rw [hmove.eq_of_not_settled hne, told_of_covering hphase hphase', hcount, Nat.sub_self]
      rfl
    split <;> rename_i he <;> rw [he] at hmessages hmove <;> dsimp only at hmessages hmove ⊢
    · rw [hunsettled hmove (nomatch ·), List.append_nil]
      exact hmessages
    · rw [hunsettled hmove (nomatch ·), List.append_nil]
      exact hmessages
    · rename_i g'' cx'
      have hsettled := hmove.decidedCount_settled (htruncated.trans hopen)
      have hstays : g''.phase = .covering := hmove.extends.phase.trans hphase'
      have htold : g.told { g'' with pending := none } =
          List.replicate (g''.decidedCount - g.decidedCount) (.worked 1) :=
        told_of_covering hphase hstays
      rw [htold, hsettled, hcount, Nat.add_sub_cancel_left]
      split
      · rename_i htrue
        simpa [htrue] using hmessages
      · rename_i hfalse
        simpa [hfalse] using hmessages

theorem emitStep_told (cx : Context S (Recorder σ)) {w : Working} {rest : List Working}
    (hphase : g.phase = .emitting (w :: rest)) :
    (g.emitStep settings accepted cx w rest).2.2.messages =
      cx.messages ++ g.told (g.emitStep settings accepted cx w rest).2.1 := by
  rw [told_of_emitting hphase, List.append_nil]
  have hsolve := cx.messages_solve w.kept.literals
  unfold emitStep
  dsimp only
  split
  · rfl
  · split <;> rename_i he <;> rw [he] at hsolve <;> exact hsolve

/-- **What a step tells** follows from the states it leads from and to. -/
theorem step_told (cx : Context S (Recorder σ)) :
    (g.step settings accepted cx).2.2.messages =
      cx.messages ++ g.told (g.step settings accepted cx).2.1 := by
  unfold step
  split
  · rw [told_self, List.append_nil]
  · rename_i hne
    split
    · rw [told_self, List.append_nil]
    · split
      · rename_i hphase
        exact coverStep_told cx hphase
      · rename_i hphase
        exact absurd hphase hne
      · rename_i hphase
        exact emitStep_told cx hphase

/-! ### Books -/

omit [SatSolver S] [Monitor σ]

variable {A A' : Answers} {t left : Nat} {groups : List ExpressionGroup} {verdicts : List Judged}
  {waiting : Option LiteralSet} {messages : List Message} {result : Except SampleError Step}
  {queue rest : List Working} {w : Working}

/-- The estimate has room for all candidates with a verdict. -/
theorem Ledger.decidedCount_le (h : g.Ledger A t groups verdicts waiting)
    (hsteps : verdicts.length ≤ maxCount) (k : Nat) :
    g.decidedCount ≤ satAdd (candidateTotal groups t) k := by
  obtain ⟨choices, -, hlist⟩ := h.listed
  have htotal := candidateTotal_atLeast t groups
  rw [hlist, List.length_append, List.length_append, List.length_map] at htotal
  have hlength : g.decidedCount = verdicts.length := h.length_eq
  unfold AtLeast at htotal
  unfold satAdd
  omega

/-- The books of a covering run.  While candidates are covered, the work done is that of the verdicts
    and the total is the estimate; then it is that of all verdicts and of the sample, and the total has
    one unit for each working configuration. -/
structure Books (settings : SampleSettings) (t : Nat) (groups : List ExpressionGroup) (left : Nat)
    (g : Covering) (accepted : Array LiteralSet) (messages : List Message) : Prop where
  limit : g.maxConfigs = settings.maxSize
  ledger : ∃ verdicts waiting, g.Ledger .unknown t groups verdicts waiting ∧
    verdicts.length + waiting.toList.length + left ≤ settings.stepLimit
  neverAhead : NeverAhead messages
  covering : g.phase = .covering → accepted = #[] ∧ workOf messages = ⟨g.decidedCount,
    satAdd (candidateTotal groups t) (min (candidateTotal groups t) settings.maxSize)⟩
  emitting : ∀ queue, g.phase = .emitting queue → accepted.size + queue.length ≤ g.working.size ∧
    workOf messages = ⟨g.decidedCount + accepted.size, g.decidedCount + g.working.size⟩

/-- A step that comes to nothing. -/
theorem Books.later (h : Books settings t groups (left + 1) g accepted messages) :
    Books settings t groups left g accepted messages := by
  obtain ⟨verdicts, waiting, hledger, hleft⟩ := h.ledger
  exact { h with ledger := ⟨verdicts, waiting, hledger, by omega⟩ }

/-- No step takes back a verdict. -/
theorem decidedCount_mono {u : LiteralSet} {g'' : Covering} {outcome : Except SampleError Outcome}
    (hopen : g.truncated = false) (htake : g.takeCandidate = (some u, g'))
    (hmove : Move A g' u outcome g'') : g.decidedCount ≤ g''.decidedCount := by
  obtain ⟨hcount, htruncated⟩ := takeCandidate_decidedCount htake
  by_cases houtcome : outcome = .ok .settled
  · subst houtcome
    have hsettled := hmove.decidedCount_settled (htruncated.trans hopen)
    omega
  · rw [hmove.eq_of_not_settled houtcome]
    exact Nat.le_of_eq hcount.symm

/-- New verdicts are paid from the estimate. -/
theorem Books.cover (h : Books settings t groups (left + 1) g accepted messages)
    (hphase : g.phase = .covering) (hphase' : g'.phase = .covering)
    (hlimit : g'.maxConfigs = settings.maxSize) (hmono : g.decidedCount ≤ g'.decidedCount)
    (hsteps : settings.stepLimit ≤ maxCount)
    (hledger : g'.Ledger .unknown t groups verdicts waiting)
    (hleft : verdicts.length + waiting.toList.length + left ≤ settings.stepLimit) :
    Books settings t groups left g' accepted (messages ++ g.told g') := by
  obtain ⟨hempty, hwork⟩ := h.covering hphase
  have hle := hledger.decidedCount_le (by omega) (min (candidateTotal groups t) settings.maxSize)
  have hsum : g.decidedCount + (g'.decidedCount - g.decidedCount) = g'.decidedCount := by omega
  obtain ⟨hahead, hwork'⟩ :=
    h.neverAhead.units (k := g'.decidedCount - g.decidedCount) hwork (by omega)
  rw [hsum] at hwork'
  rw [told_of_covering hphase hphase']
  exact ⟨hlimit, ⟨verdicts, waiting, hledger, hleft⟩, hahead, fun _ => ⟨hempty, hwork'⟩,
    fun queue hqueue => absurd hqueue (not_emitting hphase' queue)⟩

/-- At the end of covering the working configurations are announced. -/
theorem Books.handOver (h : Books settings t groups (left + 1) g accepted messages)
    (hphase : g.phase = .covering) (hledger : g.handOver.Ledger .unknown t groups verdicts waiting)
    (hleft : verdicts.length + waiting.toList.length + left ≤ settings.stepLimit) :
    Books settings t groups left g.handOver accepted (messages ++ g.told g.handOver) := by
  obtain ⟨rfl, hwork⟩ := h.covering hphase
  have htold : g.told g.handOver = [.announced g.working.size] := by
    simp [told, hphase, Covering.handOver]
  rw [htold]
  refine ⟨h.limit, ⟨verdicts, waiting, hledger, hleft⟩, h.neverAhead.announced _, (nomatch ·), ?_⟩
  intro queue hqueue
  obtain rfl : g.working.toList = queue := CoveringPhase.emitting.inj hqueue
  refine ⟨?_, workOf_announced hwork _⟩
  rw [Array.length_toList]
  exact Nat.le_of_eq (Nat.zero_add _)

/-- To take a working configuration from the queue is no work of its own. -/
theorem Books.leaveQueue (h : Books settings t groups (left + 1) g accepted messages)
    (hphase : g.phase = .emitting (w :: rest))
    (hledger : Ledger { g with phase := .emitting rest } .unknown t groups verdicts waiting)
    (hleft : verdicts.length + waiting.toList.length + left ≤ settings.stepLimit) :
    Books settings t groups left { g with phase := .emitting rest } accepted messages := by
  obtain ⟨hroom, hwork⟩ := h.emitting _ hphase
  refine ⟨h.limit, ⟨verdicts, waiting, hledger, hleft⟩, h.neverAhead, (nomatch ·), ?_⟩
  intro queue hqueue
  obtain rfl : rest = queue := CoveringPhase.emitting.inj hqueue
  rw [List.length_cons] at hroom
  exact ⟨Nat.le_trans (by omega) hroom, hwork⟩

/-- One unit of work pays for a configuration as long as there is one in the queue. -/
theorem Books.accept (h : Books settings t groups left g accepted messages)
    (hphase : g.phase = .emitting queue) (hroom : accepted.size + queue.length + 1 ≤ g.working.size)
    (config : LiteralSet) :
    Books settings t groups left g (accepted.push config) (messages ++ [.worked 1]) := by
  obtain ⟨-, hwork⟩ := h.emitting _ hphase
  refine ⟨h.limit, h.ledger, h.neverAhead.worked hwork (by omega),
    fun hcovering => absurd hphase (not_emitting hcovering queue), fun queue' hqueue' => ?_⟩
  obtain rfl : queue = queue' := CoveringPhase.emitting.inj (hphase.symm.trans hqueue')
  rw [workOf_worked hwork, Array.size_push]
  exact ⟨by omega, rfl⟩

/-- **Every step keeps the books.** -/
theorem Books.step (ht : 0 < t) (hsteps : settings.stepLimit ≤ maxCount)
    (h : Books settings t groups (left + 1) g accepted messages)
    (hmoves : Moves .unknown settings accepted g result g') :
    Books settings t groups left g' accepted (messages ++ g.told g') := by
  obtain ⟨verdicts, waiting, hledger, hleft⟩ := h.ledger
  obtain ⟨verdicts', waiting', hledger', hlength⟩ := hledger.step ht hmoves fun _ => rfl
  have hlimit := hmoves.maxConfigs.trans h.limit
  have hleft' : verdicts'.length + waiting'.toList.length + left ≤ settings.stepLimit := by omega
  have hsame : Books settings t groups left g accepted (messages ++ g.told g) := by
    rw [told_self, List.append_nil]
    exact h.later
  cases hmoves with
  | done => exact hsame
  | exhausted => exact hsame
  | finished hphase => exact h.handOver hphase hledger' hleft'
  | settled hphase hopen htake hmove =>
    have hstays := hmove.extends.phase.trans ((takeCandidate_same htake).2.2.trans hphase)
    have hmono := decidedCount_mono hopen htake hmove
    exact h.cover hphase hstays hlimit hmono hsteps hledger' hleft'
  | retained hphase hopen htake hmove =>
    have hstays := hmove.extends.phase.trans ((takeCandidate_same htake).2.2.trans hphase)
    have hmono := decidedCount_mono hopen htake hmove
    exact h.cover hphase hstays hlimit hmono hsteps hledger' hleft'
  | handed hphase =>
    rw [told_of_emitting hphase, List.append_nil]
    exact h.leaveQueue hphase hledger' hleft'
  | dropped hphase =>
    rw [told_of_emitting hphase, List.append_nil]
    exact h.leaveQueue hphase hledger' hleft'
  | held => exact hsame

/-- **The covering strategy keeps books.** -/
theorem bookkeeping (ht : 0 < t) (groups : List ExpressionGroup)
    (hsteps : settings.stepLimit ≤ maxCount) :
    Bookkeeping settings (Books settings t groups) fun g => g.phase = .emitting [] where
  neverAhead h := h.neverAhead
  step {S σ} _ _ left g accepted cx h hroom := by
    obtain ⟨-, hmoves⟩ : True ∧ Moves .unknown settings accepted g
        (g.step settings accepted cx).1 (g.step settings accepted cx).2.1 :=
      step_moves settings accepted Answers.governs_unknown trivial
    have hbooks := h.step ht hsteps hmoves
    rw [← step_told cx] at hbooks
    show Sampler.Books _ _ _ (g.step settings accepted cx)
    generalize g.step settings accepted cx = out at hmoves hbooks ⊢
    obtain ⟨result, g', cx'⟩ := out
    dsimp only at hmoves hbooks
    cases result with
    | error e => exact hbooks.neverAhead
    | ok step =>
      cases step with
      | batch configs =>
        obtain ⟨w, rest, config, rfl, hphase, rfl⟩ := hmoves.exists_of_batch
        have hqueue := (h.emitting _ hphase).1
        rw [List.length_cons, ← Nat.add_assoc] at hqueue
        exact ⟨config, rfl, hbooks, hbooks.accept rfl hqueue config⟩
      | pending => exact hbooks
      | done => exact ⟨hbooks, hmoves.phase_of_done⟩
      | exhausted => exact hbooks

/-- The books at the start. -/
theorem books_start {cnf : Cnf} {policy : ExtensionPolicy} {given : Option (List ExpressionGroup)}
    (h : start cnf t policy given settings.maxSize = .ok g) :
    Books settings t g.groups settings.stepLimit g #[]
      [.announced (g.workEstimate settings.maxSize)] := by
  obtain ⟨-, hledger, hphase, -, hlimit⟩ := ledger_start h .unknown
  have hnone : g.decidedCount = 0 := hledger.length_eq
  refine ⟨hlimit, ⟨[], none, hledger, Nat.le_of_eq (Nat.zero_add _)⟩, neverAhead_nil.announced _,
    fun _ => ⟨rfl, ?_⟩, fun queue hqueue => absurd hqueue (not_emitting hphase queue)⟩
  rw [workOf_start, hnone, ← hledger.strength_eq]
  rfl

/-- A run that is complete did one unit of work for each candidate and each configuration. -/
theorem Books.done_eq (h : Books settings t groups left g accepted messages)
    (hopen : g.truncated = false)
    (hend : settings.maxSize ≤ accepted.size ∨ g.phase = .emitting []) :
    (workOf messages).done = g.coverage.candidates + accepted.size := by
  obtain ⟨verdicts, waiting, hledger, -⟩ := h.ledger
  have hlength : g.decidedCount = verdicts.length := hledger.length_eq
  cases hphase : g.phase with
  | covering =>
    -- the sample is full while it is empty, so there are no candidates
    obtain ⟨rfl, hwork⟩ := h.covering hphase
    have hfull := hend.resolve_right (not_emitting hphase [])
    have hmax : g.maxConfigs = 0 := h.limit.trans (Nat.le_zero.1 hfull)
    obtain ⟨rfl, -⟩ := hledger.idle hmax
    rw [hwork, hledger.candidates hphase, hledger.counted_eq, if_pos hmax,
      hledger.empty hmax hopen]
    exact hlength
  | emitting queue =>
    obtain ⟨-, hwork⟩ := h.emitting queue hphase
    rw [hwork, hledger.candidates_of_ended hopen (hledger.ended queue hphase hopen), ← hlength]

end Covering

/-! ## Requests -/

/-- A complete sample has candidate counts, and one unit of work was done for each candidate and each
    configuration. -/
def PaidInFull (result : Except SampleError Sample) (messages : List Message) : Prop :=
  ∀ sample, result = .ok sample → sample.completion = .complete →
    ∃ coverage, sample.coverage = some coverage ∧
      (workOf messages).done = coverage.candidates + sample.configurations.size

section Requests

variable {σ : Type} [Monitor σ] {cnf : Cnf} {policy : ExtensionPolicy} {monitor monitor' : σ}
  {result : Except SampleError Sample} {recorder : Recorder σ} {journal : Journal}

/-- A run with a new solver of the formula is never ahead, if its strategy keeps books. -/
theorem sampleWith_told {G : Type} [Strategy G] {settings : SampleSettings} {strategy : G}
    {I : Nat → G → Array LiteralSet → List Message → Prop} {D : G → Prop}
    (hkeeps : Bookkeeping settings I D)
    (hstart : I settings.stepLimit strategy #[]
      [.announced (Strategy.workEstimate strategy settings.maxSize)])
    (h : sampleWith cnf strategy settings (Recorder.fresh monitor) = (result, recorder, journal)) :
    NeverAhead recorder.messages ∧ ∀ sample, result = .ok sample →
      sample.completion ≠ .cancelled → sample.completion ≠ .exhausted →
      ∃ g left, sample.completion = Strategy.finished g ∧ sample.coverage = Strategy.coverage g ∧
        I left g sample.configurations recorder.messages ∧
        (settings.maxSize ≤ sample.configurations.size ∨ D g) := by
  unfold sampleWith at h
  dsimp only at h
  generalize hrun : (Sampler.start (Solver.ofCnf cnf {}) strategy settings).run
    (Recorder.fresh monitor) = out at h
  obtain ⟨result, sampler, recorder, journal⟩ := out
  cases h
  exact hkeeps.run hstart hrun

theorem sampleRandom_told (settings : SampleSettings) {count : Nat}
    (h : sampleWith cnf (RandomStrategy.start count) settings (Recorder.fresh monitor) =
      (result, recorder, journal)) : NeverAhead recorder.messages := by
  have hstart : RandomStrategy.Books settings count (RandomStrategy.start count) #[]
      [.announced (min count settings.maxSize)] :=
    ⟨rfl, neverAhead_nil.announced _, workOf_start _, Nat.le_refl 0⟩
  exact (sampleWith_told (RandomStrategy.bookkeeping settings count) hstart h).1

theorem sampleCovering_told (settings : SampleSettings) (hsteps : settings.stepLimit ≤ maxCount)
    {t : Nat} {given : Option (List ExpressionGroup)}
    (h : sampleCovering cnf t policy given settings (Recorder.fresh monitor) =
      (result, recorder, journal)) :
    NeverAhead recorder.messages ∧ PaidInFull result recorder.messages := by
  unfold sampleCovering at h
  split at h
  · cases h
    exact ⟨neverAhead_nil, fun _ hs => nomatch hs⟩
  rename_i strategy hstart
  obtain ⟨ht, -⟩ := Covering.ledger_start hstart .unknown
  obtain ⟨hahead, hends⟩ := sampleWith_told (Covering.bookkeeping ht strategy.groups hsteps)
    (Covering.books_start hstart) h
  refine ⟨hahead, fun sample hs hcomplete => ?_⟩
  obtain ⟨g, left, hfinished, hcounts, hbooks, hend⟩ :=
    hends sample hs (by simp [hcomplete]) (by simp [hcomplete])
  have hopen := not_truncated_of_finished (.inl hcomplete) hfinished
  exact ⟨g.counts, hcounts, hbooks.done_eq hopen hend⟩

/-- **A run never reports more work than it announced**, whatever the monitor makes of it, and a run for
    coverage that is complete did one unit of work for each candidate and each configuration.  The
    estimate is cut off at `maxCount`, so a run may not take more candidates than that. -/
theorem work_within_announced (request : Request) (settings : SampleSettings)
    (hsteps : settings.stepLimit ≤ maxCount)
    (h : generate cnf request settings policy monitor = (result, monitor', journal)) :
    ∃ messages, generate cnf request settings policy (Recorder.fresh monitor) =
        (result, ⟨monitor', messages⟩, journal) ∧
      NeverAhead messages ∧ ((request.plan cnf).isSome → PaidInFull result messages) := by
  have hrecorded := generate_recorded cnf request settings policy (Recorder.fresh monitor)
  rw [show (Recorder.fresh monitor).inner = monitor from rfl, h] at hrecorded
  generalize hrun : generate cnf request settings policy (Recorder.fresh monitor) = out
    at hrecorded
  obtain ⟨result', ⟨inner, messages⟩, journal'⟩ := out
  obtain ⟨rfl, rfl, rfl⟩ : result = result' ∧ monitor' = inner ∧ journal = journal' := by
    simpa using hrecorded
  refine ⟨messages, rfl, ?_⟩
  cases request with
  | random count => exact ⟨sampleRandom_told _ hrun, (nomatch ·)⟩
  | covering strength groups limit =>
    obtain ⟨hahead, hpaid⟩ := sampleCovering_told
      { settings with maxSize := min limit settings.maxSize } hsteps hrun
    exact ⟨hahead, fun _ => hpaid⟩
  | feature name =>
    unfold generate at hrun
    dsimp only at hrun
    split at hrun
    · cases hrun
      exact ⟨neverAhead_nil, fun _ _ hs => nomatch hs⟩
    · obtain ⟨hahead, hpaid⟩ := sampleCovering_told settings hsteps hrun
      exact ⟨hahead, fun _ => hpaid⟩

end Requests

/-- Four candidates and two configurations are six units of work. -/
theorem work_within_announced_firstSelected : unboundedSteps ≤ maxCount ∧
    ((Request.covering 2 none 10).plan Cnf.firstSelected).isSome ∧ ∃ sample messages journal,
      generate Cnf.firstSelected (.covering 2 none 10) { allowDuplicates := true } .firstFit
        Silent.silent = (.ok sample, .silent, journal) ∧
      generate Cnf.firstSelected (.covering 2 none 10) { allowDuplicates := true } .firstFit
        (Recorder.fresh Silent.silent) = (.ok sample, ⟨.silent, messages⟩, journal) ∧
      NeverAhead messages ∧ sample.completion = .complete ∧ sample.configurations.size = 2 ∧
      sample.coverage = some ⟨4, 2, 2, 0⟩ ∧ (workOf messages).done = 6 := by
  have hsteps : unboundedSteps ≤ maxCount := by decide
  obtain ⟨sample, hs, hp⟩ := exists_of_comesTo (fun sample => sample.completion == .complete &&
      sample.configurations.size == 2 && sample.coverage == some ⟨4, 2, 2, 0⟩)
    (generate Cnf.firstSelected (.covering 2 none 10) { allowDuplicates := true } .firstFit
      Silent.silent).1 (by decide +kernel)
  simp only [Bool.and_eq_true, beq_iff_eq] at hp
  obtain ⟨⟨hcomplete, hsize⟩, hcoverage⟩ := hp
  obtain ⟨messages, hrecorded, hahead, hpaid⟩ := work_within_announced (.covering 2 none 10)
    { allowDuplicates := true } hsteps
    (Prod.ext hs rfl : generate Cnf.firstSelected (.covering 2 none 10)
      { allowDuplicates := true } .firstFit Silent.silent = (.ok sample, .silent, _))
  obtain ⟨coverage, hcoverage', hdone⟩ := hpaid rfl sample rfl hcomplete
  obtain rfl : ⟨4, 2, 2, 0⟩ = coverage := Option.some.inj (hcoverage.symm.trans hcoverage')
  rw [hsize] at hdone
  exact ⟨hsteps, rfl, sample, messages, _, Prod.ext hs rfl, hrecorded, hahead, hcomplete, hsize,
    hcoverage, hdone⟩

end ConfigSampler
