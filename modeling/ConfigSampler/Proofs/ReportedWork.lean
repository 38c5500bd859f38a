import ConfigSampler.Proofs.Passes

/-!
# Reported work

A `Monitor.Recorder` writes down what it is told about work, an accepted configuration being one
unit, and passes everything on to another monitor.  The work reported should never be more than the
total last announced (`Monitor.NeverAhead`).  A strategy keeps books if it accounts for its own
messages and for the one unit of work that the driver reports for each configuration
(`Sampler.Bookkeeping`); then no run with it is ever ahead, however it ends
(`Sampler.Bookkeeping.run`).
-/

set_option autoImplicit false

namespace ConfigSampler

namespace Monitor

variable {σ : Type}

/-- What a monitor is told about work. -/
inductive Message where
  | announced (work : Nat)
  | worked (work : Nat)
deriving DecidableEq, Repr

/-- The work that was done, and the total that was last announced. -/
structure Work where
  done : Nat
  total : Nat
deriving DecidableEq, Repr

/-- An announcement is about the work that is left. -/
def Work.after (w : Work) : Message → Work
  | .announced work => { w with total := w.done + work }
  | .worked work => { w with done := w.done + work }

/-- What a new monitor knows after these messages. -/
def workOf (messages : List Message) : Work := messages.foldl Work.after ⟨0, 0⟩

/-- At no moment was more work reported than announced. -/
def NeverAhead (messages : List Message) : Prop :=
  ∀ before, before <+: messages → (workOf before).done ≤ (workOf before).total

variable {messages : List Message} {work done total k : Nat}

theorem workOf_append (messages : List Message) (m : Message) :
    workOf (messages ++ [m]) = (workOf messages).after m := by
  simp [workOf]

theorem workOf_announced (h : workOf messages = ⟨done, total⟩) (work : Nat) :
    workOf (messages ++ [.announced work]) = ⟨done, done + work⟩ := by
  rw [workOf_append, h]
  rfl

theorem workOf_worked (h : workOf messages = ⟨done, total⟩) (work : Nat) :
    workOf (messages ++ [.worked work]) = ⟨done + work, total⟩ := by
  rw [workOf_append, h]
  rfl

@[simp]
theorem workOf_start (work : Nat) : workOf [.announced work] = ⟨0, work⟩ := by
  simp [workOf, Work.after]

theorem neverAhead_nil : NeverAhead [] := by
  intro before hbefore
  obtain rfl := List.prefix_nil.1 hbefore
  exact Nat.le_refl 0

theorem NeverAhead.append (h : NeverAhead messages) {m : Message}
    (hm : (workOf (messages ++ [m])).done ≤ (workOf (messages ++ [m])).total) :
    NeverAhead (messages ++ [m]) := by
  intro before hbefore
  rcases List.prefix_concat_iff.1 hbefore with rfl | hbefore
  · exact hm
  · exact h before hbefore

/-- An announcement is never wrong. -/
theorem NeverAhead.announced (h : NeverAhead messages) (work : Nat) :
    NeverAhead (messages ++ [.announced work]) := by
  apply h.append
  rw [workOf_append]
  exact Nat.le_add_right _ work

/-- Work may be reported as long as some is left. -/
theorem NeverAhead.worked (h : NeverAhead messages) (hwork : workOf messages = ⟨done, total⟩)
    (hle : done + work ≤ total) : NeverAhead (messages ++ [.worked work]) := by
  apply h.append
  rw [workOf_worked hwork]
  exact hle

/-- Units of work that are reported one by one. -/
theorem NeverAhead.units (h : NeverAhead messages) (hwork : workOf messages = ⟨done, total⟩)
    (hle : done + k ≤ total) : NeverAhead (messages ++ List.replicate k (.worked 1)) ∧
      workOf (messages ++ List.replicate k (.worked 1)) = ⟨done + k, total⟩ := by
  induction k with
  | zero => simpa using ⟨h, hwork⟩
  | succ k ih =>
    obtain ⟨hahead, hdone⟩ := ih (by omega)
    rw [List.replicate_succ', ← List.append_assoc]
    exact ⟨hahead.worked hdone hle, workOf_worked hdone 1⟩

/-! ## Recorders -/

/-- A monitor together with what it was told about work. -/
structure Recorder (σ : Type) where
  inner : σ
  messages : List Message

/-- A recorder that was told nothing yet. -/
def Recorder.fresh (monitor : σ) : Recorder σ := ⟨monitor, []⟩

variable [Monitor σ]

instance : Monitor (Recorder σ) where
  announce m work :=
    let (inner, journal) := Monitor.announce m.inner work
    (⟨inner, m.messages ++ [.announced work]⟩, journal)
  worked m work :=
    let (inner, journal) := Monitor.worked m.inner work
    (⟨inner, m.messages ++ [.worked work]⟩, journal)
  step m :=
    let (inner, journal) := Monitor.step m.inner
    (⟨inner, m.messages ++ [.worked 1]⟩, journal)
  poll m :=
    let (stop, inner) := Monitor.poll m.inner
    (stop, ⟨inner, m.messages⟩)
  flag? m := Monitor.flag? m.inner
  elapse m looks := ⟨Monitor.elapse m.inner looks, m.messages⟩

end Monitor

open Monitor

namespace Context

variable {S σ : Type}

/-- What the monitor of the run was told about work. -/
def messages (cx : Context S (Recorder σ)) : List Message := cx.monitor.messages

@[simp]
theorem messages_report (cx : Context S (Recorder σ)) (event : Event) :
    (cx.report event).messages = cx.messages := rfl

section

variable [Monitor σ]

@[simp]
theorem messages_announce (cx : Context S (Recorder σ)) (work : Nat) :
    (cx.announce work).messages = cx.messages ++ [.announced work] := rfl

@[simp]
theorem messages_worked (cx : Context S (Recorder σ)) (work : Nat) :
    (cx.worked work).messages = cx.messages ++ [.worked work] := rfl

@[simp]
theorem messages_step (cx : Context S (Recorder σ)) :
    cx.step.messages = cx.messages ++ [.worked 1] := rfl

@[simp]
theorem messages_poll (cx : Context S (Recorder σ)) : cx.poll.2.messages = cx.messages := rfl

end

variable [SatSolver S]

@[simp]
theorem messages_addClause (cx : Context S (Recorder σ)) (lits : List Int) :
    (cx.addClause lits).2.messages = cx.messages := rfl

variable [Monitor σ]

@[simp]
theorem messages_ask (cx : Context S (Recorder σ)) (assumptions : List Int) :
    (cx.ask assumptions).2.messages = cx.messages := rfl

@[simp]
theorem messages_solve (cx : Context S (Recorder σ)) (assumptions : List Int) :
    (cx.solve assumptions).2.messages = cx.messages := by
  have hasked := cx.messages_ask assumptions
  unfold solve
  generalize cx.ask assumptions = out at hasked ⊢
  obtain ⟨result, cx'⟩ := out
  rw [← hasked]
  rcases result with e | answer
  · rfl
  · cases answer with
    | interrupted =>
      dsimp only
      split <;> rename_i hpoll
      all_goals
        have hpolled := congrArg (fun out => messages out.2) hpoll
        exact hpolled.symm
    | _ => rfl

end Context

namespace Sampler

variable {S G σ : Type} [Strategy G] {settings : SampleSettings}
  {I : Nat → G → Array LiteralSet → List Message → Prop} {D : G → Prop}

/-- The books after a step are in order, and stay so when the configuration that it yields is
    accepted. -/
def Books (I : G → Array LiteralSet → List Message → Prop) (D : G → Prop)
    (accepted : Array LiteralSet) :
    Except SampleError Step × G × Context S (Recorder σ) → Prop
  | (.error _, _, cx) => NeverAhead cx.messages
  | (.ok (.batch configs), g, cx) => ∃ config, configs = [config] ∧ I g accepted cx.messages ∧
      I g (accepted.push config) (cx.messages ++ [.worked 1])
  | (.ok .done, g, cx) => I g accepted cx.messages ∧ D g
  | (.ok _, g, cx) => I g accepted cx.messages

/-- The strategy keeps books: so many steps may still be made, and it is done in some states only. -/
structure Bookkeeping (settings : SampleSettings)
    (I : Nat → G → Array LiteralSet → List Message → Prop) (D : G → Prop) : Prop where
  neverAhead {left : Nat} {g : G} {accepted : Array LiteralSet} {messages : List Message} :
    I left g accepted messages → NeverAhead messages
  step {S σ : Type} [SatSolver S] [Monitor σ] {left : Nat} {g : G} {accepted : Array LiteralSet}
    {cx : Context S (Recorder σ)} : I (left + 1) g accepted cx.messages →
    accepted.size < settings.maxSize →
    Books (I left) D accepted (Strategy.step g settings accepted cx)

/-- The run was never ahead, and where the strategy decided the status the books are in order. -/
structure Balanced (settings : SampleSettings)
    (I : Nat → G → Array LiteralSet → List Message → Prop) (D : G → Prop)
    (result : Except SampleError Completion) (r : Progress S G (Recorder σ)) : Prop where
  neverAhead : NeverAhead r.context.messages
  finished : ∀ completion, result = .ok completion → completion ≠ .cancelled →
    completion ≠ .exhausted → completion = Strategy.finished r.strategy ∧
      (∃ left, I left r.strategy r.accepted r.context.messages) ∧
      (settings.maxSize ≤ r.accepted.size ∨ D r.strategy)

variable {strategy : G} {cx : Context S (Recorder σ)} {accepted : Array LiteralSet} {left : Nat}

theorem balanced_error (h : NeverAhead cx.messages) (e : SampleError) :
    Balanced settings I D (.error e) ⟨strategy, cx, accepted⟩ :=
  ⟨h, fun _ he => nomatch he⟩

theorem balanced_cancelled (h : NeverAhead cx.messages) :
    Balanced settings I D (.ok .cancelled) ⟨strategy, cx, accepted⟩ := by
  refine ⟨h, fun completion he hne => ?_⟩
  cases he
  exact absurd rfl hne

theorem balanced_exhausted (h : NeverAhead cx.messages) :
    Balanced settings I D (.ok .exhausted) ⟨strategy, cx, accepted⟩ := by
  refine ⟨h, fun completion he _ hne => ?_⟩
  cases he
  exact absurd rfl hne

theorem Bookkeeping.balanced_finished (hkeeps : Bookkeeping settings I D)
    (h : I left strategy accepted cx.messages)
    (hend : settings.maxSize ≤ accepted.size ∨ D strategy) :
    Balanced settings I D (.ok (Strategy.finished strategy)) ⟨strategy, cx, accepted⟩ := by
  refine ⟨hkeeps.neverAhead h, fun completion he _ _ => ?_⟩
  cases he
  exact ⟨rfl, ⟨left, h⟩, hend⟩

variable [SatSolver S] [Monitor σ]

/-- A configuration is accepted, and one unit of work is reported. -/
theorem Bookkeeping.accept (hkeeps : Bookkeeping settings I D) {config : LiteralSet}
    (hpush : I left strategy (accepted.push config) (cx.messages ++ [.worked 1])) :
    Turns (fun r => I left r.strategy r.accepted r.context.messages) (Balanced settings I D)
      (exclude settings (take (⟨strategy, cx, accepted⟩ : Progress S G (Recorder σ)) config)
        config) := by
  have hadded := Context.messages_addClause (cx.report (.accepted config)).step
    config.negate.literals
  unfold exclude take
  dsimp only
  split
  · exact hpush
  generalize (cx.report (.accepted config)).step.addClause config.negate.literals = out
    at hadded ⊢
  obtain ⟨result, cx'⟩ := out
  have hpush' : I left strategy (accepted.push config) cx'.messages := hadded ▸ hpush
  cases result with
  | error e => exact balanced_error (hkeeps.neverAhead hpush') e
  | ok effect =>
    cases effect with
    | consistent => exact hpush'
    | contradiction =>
      -- the sample may have become full
      dsimp only
      split
      · rename_i hfull
        exact hkeeps.balanced_finished hpush' (.inl (by simpa [isFull] using hfull))
      · exact balanced_exhausted (hkeeps.neverAhead hpush')

/-- A batch of one configuration, which is accepted unless the run is cancelled. -/
theorem Bookkeeping.acceptAll (hkeeps : Bookkeeping settings I D) {config : LiteralSet}
    (hroom : accepted.size < settings.maxSize) (h : I left strategy accepted cx.messages)
    (hpush : I left strategy (accepted.push config) (cx.messages ++ [.worked 1])) :
    Turns (fun r => I left r.strategy r.accepted r.context.messages) (Balanced settings I D)
      (acceptAll settings [config]
        (⟨strategy, cx, accepted⟩ : Progress S G (Recorder σ))) := by
  have hpolled := cx.messages_poll
  unfold Sampler.acceptAll
  dsimp only
  split <;> rename_i cx' hpoll <;> rw [hpoll] at hpolled
  · apply balanced_cancelled
    rw [hpolled]
    exact hkeeps.neverAhead h
  rw [if_neg (by simpa [isFull] using hroom)]
  rw [← hpolled] at hpush
  have haccept := hkeeps.accept hpush
  split <;> rename_i he <;> rw [he] at haccept
  · exact haccept
  · exact haccept

/-- **A pass keeps the books.** -/
theorem Bookkeeping.pass (hkeeps : Bookkeeping settings I D)
    (r : Progress S G (Recorder σ))
    (h : I (left + 1) r.strategy r.accepted r.context.messages) :
    Turns (fun r => I left r.strategy r.accepted r.context.messages) (Balanced settings I D)
      (pass settings r) := by
  obtain ⟨strategy, cx, accepted⟩ := r
  have hpolled := cx.messages_poll
  unfold Sampler.pass
  dsimp only
  split <;> rename_i cx' hpoll <;> rw [hpoll] at hpolled
  · apply balanced_cancelled
    rw [hpolled]
    exact hkeeps.neverAhead h
  have h' : I (left + 1) strategy accepted cx'.messages := hpolled ▸ h
  split
  · rename_i hfull
    exact hkeeps.balanced_finished h' (.inl hfull)
  rename_i hroom
  have hbooks := hkeeps.step h' (Nat.lt_of_not_le hroom)
  split <;> rename_i hstep <;> rw [hstep] at hbooks
  · exact balanced_error hbooks _
  · exact hbooks
  · exact hkeeps.balanced_finished hbooks.1 (.inr hbooks.2)
  · exact balanced_exhausted (hkeeps.neverAhead hbooks)
  · obtain ⟨config, rfl, hyielded, hpush⟩ := hbooks
    exact hkeeps.acceptAll (Nat.lt_of_not_le hroom) hyielded hpush

/-- **A run whose strategy keeps books is never ahead**, whatever the solver answers and the monitor
    asks for, and also if it fails. -/
theorem Bookkeeping.run (hkeeps : Bookkeeping settings I D) {solver : S}
    {monitor : σ} {result : Except SampleError Sample} {sampler : Sampler S G}
    {recorder : Recorder σ} {journal : Journal}
    (hstart : I settings.stepLimit strategy #[]
      [.announced (Strategy.workEstimate strategy settings.maxSize)])
    (h : (Sampler.start solver strategy settings).run (Recorder.fresh monitor) =
      (result, sampler, recorder, journal)) :
    NeverAhead recorder.messages ∧ ∀ sample, result = .ok sample →
      sample.completion ≠ .cancelled → sample.completion ≠ .exhausted →
      ∃ g left, sample.completion = Strategy.finished g ∧ sample.coverage = Strategy.coverage g ∧
        I left g sample.configurations recorder.messages ∧
        (settings.maxSize ≤ sample.configurations.size ∨ D g) := by
  have hloop := loop_rule
    (I := fun left (r : Progress S G (Recorder σ)) => I left r.strategy r.accepted r.context.messages)
    (E := Balanced settings I D)
    (fun r hr => balanced_error (hkeeps.neverAhead hr) _) (fun _ r hr => hkeeps.pass r hr)
    settings.stepLimit ⟨strategy, Context.announce ⟨solver, Random.ofSeed settings.seed,
      Recorder.fresh monitor, #[]⟩ (Strategy.workEstimate strategy settings.maxSize), #[]⟩ hstart
  unfold Sampler.run start at h
  dsimp only at h
  split at h <;> rename_i he <;> rw [he] at hloop
  · cases h
    exact ⟨hloop.neverAhead, fun _ hs => nomatch hs⟩
  · cases h
    refine ⟨hloop.neverAhead, fun sample hs hcancelled hexhausted => ?_⟩
    cases hs
    obtain ⟨hfinished, ⟨left, hI⟩, hend⟩ := hloop.finished _ rfl hcancelled hexhausted
    exact ⟨_, left, hfinished, rfl, hI, hend⟩

end Sampler

end ConfigSampler
