import ConfigSampler.Proofs.Passes
import ConfigSampler.Proofs.RunContext

/-!
# The sampling loop

A strategy is described by a `Contract`: an invariant of its state and the sample so far, and a goal
that holds when it is done.  If every step keeps the contract, then so does the whole run
(`Sampler.run_spec`): the sample consists of models of the formula, without repetition unless
duplicates are allowed, and how the run ended says what was reached.
-/

set_option autoImplicit false

namespace ConfigSampler

open LiteralSet

/-- The assignments that are still to be found: all that `F` accepts, without the sample so far
    unless duplicates are allowed. -/
def SampleSettings.Left (settings : SampleSettings) (n : Nat) (F : Assignment → Prop)
    (accepted : Array LiteralSet) (α : Assignment) : Prop :=
  F α ∧ (settings.allowDuplicates = false → ofAssignment n α ∉ accepted)

namespace SampleSettings

variable {settings : SampleSettings} {n : Nat} {F : Assignment → Prop} {α : Assignment}
  {accepted : Array LiteralSet} {config : LiteralSet}

/-- The sample so far: models that `F` accepts, no more than may be, and each once unless duplicates
    are allowed. -/
structure Holds (settings : SampleSettings) (n : Nat) (F : Assignment → Prop)
    (accepted : Array LiteralSet) : Prop where
  valid : ∀ config ∈ accepted, config.IsFull n ∧ F config.assignment
  distinct : settings.allowDuplicates = false → accepted.toList.Nodup
  fits : accepted.size ≤ settings.maxSize

theorem holds_empty : settings.Holds n F #[] :=
  ⟨fun config hc => by simp at hc, fun _ => by simp, Nat.zero_le _⟩

theorem Holds.push (h : settings.Holds n F accepted) (hroom : accepted.size < settings.maxSize)
    (hfull : config.IsFull n) (hleft : settings.Left n F accepted config.assignment) :
    settings.Holds n F (accepted.push config) where
  valid := by
    intro c hc
    rcases Array.mem_push.1 hc with hc | rfl
    · exact h.valid c hc
    · exact ⟨hfull, hleft.1⟩
  distinct := by
    intro hd
    have hnew : config ∉ accepted := by
      have := hleft.2 hd
      rwa [← hfull.eq_ofAssignment] at this
    rw [Array.toList_push, List.nodup_append]
    refine ⟨h.distinct hd, by simp, fun c hc c' hc' he => hnew ?_⟩
    obtain rfl : c' = config := by simpa using hc'
    rw [← he]
    simpa using hc
  fits := by
    rw [Array.size_push]
    exact hroom

/-- A model that was taken and excluded is not left. -/
theorem left_push (hfull : config.IsFull n) (hd : settings.allowDuplicates = false) :
    settings.Left n F (accepted.push config) α ↔
      settings.Left n F accepted α ∧ α.Satisfies config.negate.literals := by
  rw [hfull.satisfies_negate]
  unfold Left
  simp only [hd, Array.mem_push, not_or, true_implies]
  exact and_assoc.symm

/-- With duplicates allowed, all assignments are left. -/
theorem left_iff (hd : settings.allowDuplicates = true) : settings.Left n F accepted α ↔ F α := by
  simp [Left, hd]

theorem left_empty : settings.Left n F #[] α ↔ F α := by simp [Left]

end SampleSettings

/-- What a strategy keeps from step to step, and what it reaches when it is done, in terms of its
    state and the sample so far. -/
structure Contract (G : Type) where
  Inv : G → Array LiteralSet → Prop
  Goal : G → Array LiteralSet → Prop

namespace Contract

variable {S G σ : Type} [SatSolver S] [LawfulSatSolver S] [Strategy G] [Monitor σ]

/-- What a step promises. -/
def Promises (C : Contract G) (calm : Prop) (settings : SampleSettings) (n : Nat)
    (F : Assignment → Prop) (accepted : Array LiteralSet) :
    Except SampleError Step × G × Context S σ → Prop
  | (.error e, _, _) => calm → e = .stepLimitReached
  | (.ok .pending, g, cx) => cx.Serves calm n (settings.Left n F accepted) ∧ C.Inv g accepted
  | (.ok .done, g, _) => C.Goal g accepted
  | (.ok .exhausted, _, _) => ∀ α, ¬ settings.Left n F accepted α
  | (.ok (.batch configs), g, cx) => ∃ config, configs = [config] ∧ config.IsFull n ∧
      settings.Left n F accepted config.assignment ∧
      cx.Serves calm n (settings.Left n F accepted) ∧ C.Inv g (accepted.push config)

/-- Every step keeps the contract, as long as the sample is not full. -/
def Kept (C : Contract G) (settings : SampleSettings) (n : Nat) (F : Assignment → Prop) : Prop :=
  ∀ {S σ : Type} [SatSolver S] [LawfulSatSolver S] [Monitor σ] (calm : Prop) (g : G)
    (accepted : Array LiteralSet) (cx : Context S σ),
    cx.Serves calm n (settings.Left n F accepted) → settings.Holds n F accepted →
    C.Inv g accepted → accepted.size < settings.maxSize →
    C.Promises calm settings n F accepted (Strategy.step g settings accepted cx)

/-- How a run ends, with the strategy and the sample at its end. -/
inductive Ends (C : Contract G) (calm : Prop) (settings : SampleSettings) (n : Nat)
    (F : Assignment → Prop) (g : G) (accepted : Array LiteralSet) :
    Except SampleError Completion → Prop
  | failed {e : SampleError} (he : calm → e = .stepLimitReached) :
    Ends C calm settings n F g accepted (.error e)
  | cancelled (hnot : ¬ calm) (hholds : settings.Holds n F accepted) :
    Ends C calm settings n F g accepted (.ok .cancelled)
  | exhausted (hholds : settings.Holds n F accepted)
    (hnone : ∀ α, ¬ settings.Left n F accepted α) (hroom : accepted.size < settings.maxSize) :
    Ends C calm settings n F g accepted (.ok .exhausted)
  | full (hholds : settings.Holds n F accepted) (hinv : C.Inv g accepted)
    (hsize : accepted.size = settings.maxSize) :
    Ends C calm settings n F g accepted (.ok (Strategy.finished g))
  | done (hholds : settings.Holds n F accepted) (hgoal : C.Goal g accepted) :
    Ends C calm settings n F g accepted (.ok (Strategy.finished g))

/-- The ways in which a run comes to a sample. -/
theorem Ends.cases_ok {C : Contract G} {calm : Prop} {settings : SampleSettings} {n : Nat}
    {F : Assignment → Prop} {g : G} {accepted : Array LiteralSet} {completion : Completion}
    (h : C.Ends calm settings n F g accepted (.ok completion)) :
    settings.Holds n F accepted ∧ ((completion = .cancelled ∧ ¬ calm) ∨
      (completion = .exhausted ∧ (∀ α, ¬ settings.Left n F accepted α) ∧
        accepted.size < settings.maxSize) ∨
      (completion = Strategy.finished g ∧ C.Inv g accepted ∧ accepted.size = settings.maxSize) ∨
      (completion = Strategy.finished g ∧ C.Goal g accepted)) := by
  generalize hr : Except.ok completion = result at h
  cases h with
  | failed he => cases hr
  | cancelled hnot hholds =>
    cases hr
    exact ⟨hholds, .inl ⟨rfl, hnot⟩⟩
  | exhausted hholds hnone hroom =>
    cases hr
    exact ⟨hholds, .inr (.inl ⟨rfl, hnone, hroom⟩)⟩
  | full hholds hinv hsize =>
    cases hr
    exact ⟨hholds, .inr (.inr (.inl ⟨rfl, hinv, hsize⟩))⟩
  | done hholds hgoal =>
    cases hr
    exact ⟨hholds, .inr (.inr (.inr ⟨rfl, hgoal⟩))⟩

end Contract

namespace Sampler

variable {S G σ : Type} [SatSolver S] [LawfulSatSolver S] [Strategy G] [Monitor σ]
  {C : Contract G} {calm : Prop} {settings : SampleSettings} {n : Nat} {F : Assignment → Prop}
  {config : LiteralSet}

/-- What holds between two steps. -/
structure Goes (C : Contract G) (calm : Prop) (settings : SampleSettings) (n : Nat)
    (F : Assignment → Prop) (r : Progress S G σ) : Prop where
  serves : r.context.Serves calm n (settings.Left n F r.accepted)
  holds : settings.Holds n F r.accepted
  inv : C.Inv r.strategy r.accepted

/-- The run goes on, or it has ended. -/
def Proceeds (C : Contract G) (calm : Prop) (settings : SampleSettings) (n : Nat)
    (F : Assignment → Prop) :
    Option (Except SampleError Completion) × Progress S G σ → Prop
  | (none, r) => Goes C calm settings n F r
  | (some result, r) => C.Ends calm settings n F r.strategy r.accepted result

/-- Excluding a configuration that was taken leaves the other assignments, or ends the run if there
    are none. -/
theorem exclude_spec {r : Progress S G σ} {accepted : Array LiteralSet}
    (hserves : r.context.Serves calm n (settings.Left n F accepted))
    (hr : r.accepted = accepted.push config) (hholds : settings.Holds n F r.accepted)
    (hinv : C.Inv r.strategy r.accepted) (hfull : config.IsFull n) :
    Proceeds C calm settings n F (exclude settings r config) := by
  obtain ⟨strategy, context, all⟩ := r
  obtain rfl : all = accepted.push config := hr
  unfold exclude
  cases hd : settings.allowDuplicates with
  | true =>
    rw [if_pos rfl]
    exact ⟨hserves.change fun α => by rw [SampleSettings.left_iff hd, SampleSettings.left_iff hd],
      hholds, hinv⟩
  | false =>
    rw [if_neg (by simp)]
    have hadds := hserves.addClause config.negate.literals
    have hcheck : Cnf.checkLiteralsWithin n config.negate.literals = .ok () := by
      refine Cnf.checkLiteralsWithin_eq_ok.2 fun x hx => ?_
      obtain ⟨hne, hle, -⟩ := hfull.mem_literals.1 (mem_literals_negate.1 hx)
      exact ⟨by omega, by omega⟩
    dsimp only
    generalize context.addClause config.negate.literals = out at hadds ⊢
    obtain ⟨result, cx⟩ := out
    cases result with
    | error e =>
      rw [show Cnf.checkLiteralsWithin n config.negate.literals = .error e from hadds] at hcheck
      cases hcheck
    | ok effect =>
      obtain ⟨hserves', hnone⟩ := hadds
      cases effect with
      | consistent =>
        exact ⟨hserves'.change fun α => SampleSettings.left_push hfull hd, hholds, hinv⟩
      | contradiction =>
        have hno : ∀ α, ¬ settings.Left n F (accepted.push config) α := by
          intro α hα
          obtain ⟨hleft, hsat⟩ := (SampleSettings.left_push hfull hd).1 hα
          exact hnone rfl α hleft hsat
        -- the last configuration may have filled the sample
        dsimp only
        split
        · rename_i hmax
          have hmax' : settings.maxSize ≤ (accepted.push config).size := by simpa [isFull] using hmax
          exact .full hholds hinv (Nat.le_antisymm hholds.fits hmax')
        · rename_i hmax
          have hmax' : (accepted.push config).size < settings.maxSize := by
            simpa [isFull] using hmax
          exact .exhausted hholds hno hmax'

/-- Accepting a new model. -/
theorem acceptAll_spec {r : Progress S G σ}
    (hserves : r.context.Serves calm n (settings.Left n F r.accepted))
    (hholds : settings.Holds n F r.accepted) (hroom : r.accepted.size < settings.maxSize)
    (hinv : C.Inv r.strategy (r.accepted.push config)) (hfull : config.IsFull n)
    (hleft : settings.Left n F r.accepted config.assignment) :
    Proceeds C calm settings n F (acceptAll settings [config] r) := by
  obtain ⟨strategy, context, accepted⟩ := r
  unfold acceptAll
  dsimp only
  have hpolled := hserves.poll
  have hnot := hserves.not_calm
  split
  · rename_i hpoll
    exact .cancelled (hnot (by rw [hpoll])) hholds
  · rename_i cx hpoll
    rw [hpoll] at hpolled
    have hfit : isFull settings (⟨strategy, cx, accepted⟩ : Progress S G σ) = false := by
      simpa [isFull] using hroom
    rw [hfit, if_neg (by simp)]
    have hexcluded : Proceeds C calm settings n F
        (exclude settings (take ⟨strategy, cx, accepted⟩ config) config) := by
      refine exclude_spec (hpolled.report _).step rfl ?_ hinv hfull
      exact hholds.push hroom hfull hleft
    split
    · rename_i result r' he
      rw [he] at hexcluded
      exact hexcluded
    · rename_i r' he
      rw [he] at hexcluded
      exact hexcluded

/-! ## From pass to pass -/

/-- A pass keeps the contract, or the run has ended as it says. -/
theorem pass_spec (hkept : C.Kept settings n F) {r : Progress S G σ}
    (hr : Goes C calm settings n F r) : Turns (Goes C calm settings n F)
      (fun result r => C.Ends calm settings n F r.strategy r.accepted result)
      (pass settings r) := by
  obtain ⟨strategy, context, accepted⟩ := r
  unfold pass
  dsimp only
  have hpolled := hr.serves.poll
  have hnot := hr.serves.not_calm
  split
  · rename_i hpoll
    exact .cancelled (hnot (by rw [hpoll])) hr.holds
  · rename_i cx hpoll
    rw [hpoll] at hpolled
    split
    · rename_i hmax
      exact .full hr.holds hr.inv (Nat.le_antisymm hr.holds.fits hmax)
    · rename_i hmax
      have hroom : accepted.size < settings.maxSize := Nat.lt_of_not_le hmax
      have hstep := hkept calm strategy accepted cx hpolled hr.holds hr.inv hroom
      split <;> rename_i he <;> rw [he] at hstep
      · exact .failed hstep
      · exact ⟨hstep.1, hr.holds, hstep.2⟩
      · exact .done hr.holds hstep
      · exact .exhausted hr.holds hstep hroom
      · rename_i strategy' cx'
        obtain ⟨config, rfl, hfull, hleft, hserves, hinv⟩ := hstep
        have haccepted := acceptAll_spec (r := ⟨strategy', cx', accepted⟩) hserves hr.holds hroom
          hinv hfull hleft
        generalize acceptAll settings [config] ⟨strategy', cx', accepted⟩ = out at haccepted ⊢
        obtain ⟨result, r'⟩ := out
        cases result with
        | none => exact haccepted
        | some result => exact haccepted

/-- From step to step, until the run ends. -/
theorem loop_spec (hkept : C.Kept settings n F) (steps : Nat) :
    ∀ r : Progress S G σ, Goes C calm settings n F r →
      C.Ends calm settings n F (loop settings steps r).2.strategy (loop settings steps r).2.accepted
        (loop settings steps r).1 :=
  loop_rule (I := fun _ (r : Progress S G σ) => Goes C calm settings n F r)
    (E := fun result (r : Progress S G σ) =>
      C.Ends calm settings n F r.strategy r.accepted result)
    (fun _ _ => .failed fun _ => rfl) (fun _ _ hr => pass_spec hkept hr) steps

/-- What the result of a run says: with `calm`, only the step limit makes it fail. -/
def Concludes (C : Contract G) (calm : Prop) (settings : SampleSettings) (n : Nat)
    (F : Assignment → Prop) : Except SampleError Sample → Prop
  | .error e => calm → e = .stepLimitReached
  | .ok sample => ∃ g, sample.coverage = Strategy.coverage g ∧
      C.Ends calm settings n F g sample.configurations (.ok sample.completion)

/-- **A run keeps the contract of its strategy**, from a solver that stands for the assignments that
    `F` accepts. -/
theorem run_spec {solver : S} {strategy : G} {monitor : σ} (hkept : C.Kept settings n F)
    (hstands : LawfulSatSolver.Stands solver n F) (hfree : LawfulSatSolver.Unlimited solver)
    (hinv : C.Inv strategy #[]) :
    Concludes C (Monitor.NeverStops monitor) settings n F
      ((Sampler.start solver strategy settings).run monitor).1 := by
  have hserves : Context.Serves ⟨solver, Random.ofSeed settings.seed, monitor, #[]⟩
      (Monitor.NeverStops monitor) n F := ⟨hstands, fun _ => hfree, id⟩
  unfold run start
  dsimp only
  have hloop := loop_spec hkept settings.stepLimit
    ⟨strategy, Context.announce ⟨solver, Random.ofSeed settings.seed, monitor, #[]⟩
      (Strategy.workEstimate strategy settings.maxSize), #[]⟩
    ⟨(hserves.announce _).change fun α => SampleSettings.left_empty,
      SampleSettings.holds_empty, hinv⟩
  split <;> rename_i he <;> rw [he] at hloop
  · cases hloop with
    | failed he => exact he
  · exact ⟨_, rfl, hloop⟩

end Sampler

end ConfigSampler
