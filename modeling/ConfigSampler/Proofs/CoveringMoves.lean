import ConfigSampler.Proofs.RunContext
import ConfigSampler.Sampling.Covering

/-!
# Moves of a covering run

Of the answers to solves, more or less may be known (`Answers`): that they are right, or nothing at
all.  Given that, `Covering.Move` lists what can become of a candidate and `Covering.Moves` what a step
can do, with all conditions; `Covering.cover_move` and `Covering.step_moves` say that the lists are
complete.
-/

set_option autoImplicit false

namespace ConfigSampler

/-- What is known of the answers to solves. -/
structure Answers where
  Model : List Int → LiteralSet → Prop
  NoModel : List Int → Prop
  Fails : List Int → SampleError → Prop
  /-- The clauses are contradictory. -/
  Contradicted : Prop

namespace Answers

variable {S σ : Type} [SatSolver S] [Monitor σ]

/-- The answer is one of those that are known to be given. -/
def Admits (A : Answers) (assumptions : List Int) : Except SampleError Solved → Prop
  | .error e => A.Fails assumptions e
  | .ok (.model config) => A.Model assumptions config
  | .ok .noModel => A.NoModel assumptions
  | .ok .cancelled => True

/-- In contexts of a kind `K` the answers are known, whatever a strategy does. -/
structure Governs (A : Answers) (K : Context S σ → Prop) : Prop where
  solve {cx : Context S σ} (assumptions : List Int) (h : K cx) :
    K (cx.solve assumptions).2 ∧ A.Admits assumptions (cx.solve assumptions).1
  contradicted {cx : Context S σ} (h : K cx) (hc : SatSolver.isContradicted cx.solver = true) :
    A.Contradicted
  redraw {cx : Context S σ} (rand : Random) (h : K cx) : K { cx with rand := rand }
  report {cx : Context S σ} (event : Event) (h : K cx) : K (cx.report event)
  announce {cx : Context S σ} (work : Nat) (h : K cx) : K (cx.announce work)
  worked {cx : Context S σ} (work : Nat) (h : K cx) : K (cx.worked work)

/-- Nothing is known. -/
def unknown : Answers := ⟨fun _ _ => True, fun _ => True, fun _ _ => True, True⟩

theorem governs_unknown : unknown.Governs fun _ : Context S σ => True where
  solve {cx} assumptions _ := by
    refine ⟨trivial, ?_⟩
    rcases (cx.solve assumptions).1 with e | answer
    · trivial
    · cases answer <;> trivial
  contradicted _ _ := trivial
  redraw _ _ := trivial
  report _ _ := trivial
  announce _ _ := trivial
  worked _ _ := trivial

/-- The answers are right about the assignments that `F` accepts. -/
def right (calm : Prop) (n : Nat) (F : Assignment → Prop) : Answers where
  Model assumptions config := config.IsFull n ∧ F config.assignment ∧
    ∀ x ∈ assumptions, config.contains x = true
  NoModel assumptions := ∀ α, F α → ∃ x ∈ assumptions, ¬ α.Makes x
  Fails assumptions e := calm → e = .stepLimitReached ∨
    Cnf.checkLiteralsWithin n assumptions = .error e
  Contradicted := ∀ α, ¬ F α

/-- A solver that stands for these assignments answers so. -/
theorem governs_right [LawfulSatSolver S] (calm : Prop) (n : Nat) (F : Assignment → Prop) :
    (right calm n F).Governs fun cx : Context S σ => cx.Serves calm n F where
  solve {cx} assumptions h := by
    obtain ⟨hserves, hsolves⟩ := h.solve assumptions
    refine ⟨hserves, ?_⟩
    generalize (cx.solve assumptions).1 = result at hsolves ⊢
    rcases result with e | answer
    · exact hsolves
    · cases answer with
      | model config => exact hsolves
      | noModel => exact hsolves
      | cancelled => trivial
  contradicted h hc := LawfulSatSolver.contradicted h.stands hc
  redraw rand h := h.redraw rand
  report event h := h.report event
  announce work h := h.announce work
  worked work h := h.worked work

end Answers

namespace Covering

/-- No working configuration can keep the combination in addition. -/
def Stuck (g : Covering) (A : Answers) (u : LiteralSet) : Prop :=
  ∀ w ∈ g.working, w.kept.hasConflict u = true ∨ A.NoModel (w.kept.union u).literals

/-- What can become of a candidate. -/
inductive Move (A : Answers) (g : Covering) (u : LiteralSet) :
    Except SampleError Outcome → Covering → Prop
  | failed {e : SampleError}
    (hfails : A.Fails u.literals e ∨ ∃ w ∈ g.working, A.Fails (w.kept.union u).literals e) :
    Move A g u (.error e) g
  | interrupted : Move A g u (.ok .interrupted) g
  /-- It is kept already. -/
  | kept (hkept : g.isKept u = true) : Move A g u (.ok .settled) g.countCovered
  /-- A working configuration keeps it in addition, with its own model or with another one. -/
  | joined {i : Nat} {witness : LiteralSet} (hi : i < g.working.size)
    (hwitness : witness = (g.workingAt i).witness ∧ witness.containsAll u = true ∨
      A.Model ((g.workingAt i).kept.union u).literals witness) :
    Move A g u (.ok .settled)
      (g.setWorking i ⟨(g.workingAt i).kept.union u, witness⟩).countCovered
  /-- It gets a working configuration of its own. -/
  | opened {witness : LiteralSet} (hroom : g.working.size < g.maxConfigs) (hstuck : g.Stuck A u)
    (hmodel : A.Model u.literals witness) :
    Move A g u (.ok .settled)
      { g with working := g.working.push ⟨u, witness⟩ }.countCovered
  | infeasible (hnone : A.NoModel u.literals) : Move A g u (.ok .settled) g.countInfeasible
  /-- There is no room for it. -/
  | unplaced (hfull : g.maxConfigs ≤ g.working.size) (hstuck : g.Stuck A u) :
    Move A g u (.ok .settled) { g with truncated := true }

variable {S σ : Type} {A : Answers} {K : Context S σ → Prop} {g : Covering} {u : LiteralSet}
  {cx : Context S σ} {i : Nat}

theorem mem_working_of_lt (hi : i < g.working.size) : g.workingAt i ∈ g.working := by
  unfold workingAt
  rw [Array.getD_eq_getD_getElem?, Array.getElem?_eq_getElem hi, Option.getD_some]
  exact Array.getElem_mem hi

theorem exists_workingAt {w : Working} (hw : w ∈ g.working) :
    ∃ i < g.working.size, g.workingAt i = w := by
  obtain ⟨i, hi, rfl⟩ := Array.mem_iff_getElem.1 hw
  exact ⟨i, hi, by simp [workingAt, Array.getD_eq_getD_getElem?, hi]⟩

/-- What an attempt to extend working configurations at some places comes to. -/
def Tried (A : Answers) (g : Covering) (u : LiteralSet) (order : List Nat) :
    Except SampleError Extension × Covering × Context S σ → Prop
  | (.error e, g', _) => g' = g ∧ ∃ w ∈ g.working, A.Fails (w.kept.union u).literals e
  | (.ok .extended, g', _) => Move A g u (.ok .settled) g'
  | (.ok .impossible, g', _) => g' = g ∧ ∀ i ∈ order, (g.workingAt i).kept.hasConflict u = true ∨
      A.NoModel ((g.workingAt i).kept.union u).literals
  | (.ok .interrupted, g', _) => g' = g

theorem Tried.cons {rest : List Nat}
    {out : Except SampleError Extension × Covering × Context S σ}
    (hi : (g.workingAt i).kept.hasConflict u = true ∨
      A.NoModel ((g.workingAt i).kept.union u).literals)
    (h : Tried A g u rest out) : Tried A g u (i :: rest) out := by
  obtain ⟨result, g', cx⟩ := out
  cases result with
  | error e => exact h
  | ok outcome =>
    cases outcome with
    | extended => exact h
    | impossible =>
      obtain ⟨hsame, hrest⟩ := h
      refine ⟨hsame, fun j hj => ?_⟩
      rcases List.mem_cons.1 hj with rfl | hj
      · exact hi
      · exact hrest j hj
    | interrupted => exact h

variable [SatSolver S] [Monitor σ]

/-- All working configurations are tried, in some order. -/
theorem extensionOrder_spec (hA : A.Governs K) (h : K cx) :
    K (g.extensionOrder cx).2 ∧ ∀ i, i ∈ (g.extensionOrder cx).1 ↔ i < g.working.size := by
  unfold extensionOrder
  dsimp only
  split
  · exact ⟨h, fun i => List.mem_range⟩
  · exact ⟨h, fun i => by rw [List.mem_reverse, List.mem_range]⟩
  · refine ⟨hA.redraw _ h, fun i => ?_⟩
    rw [Array.mem_toList_iff, (Random.perm_shuffle _ _).mem_iff]
    simp

theorem extendAny_tried (hA : A.Governs K) :
    ∀ {order : List Nat} {cx : Context S σ}, (∀ i ∈ order, i < g.working.size) → K cx →
      K (extendAny u order g cx).2.2 ∧ Tried A g u order (extendAny u order g cx) := by
  intro order
  induction order with
  | nil =>
    intro cx _ h
    exact ⟨h, rfl, fun i hi => nomatch hi⟩
  | cons i rest ih =>
    intro cx horder h
    have hi := horder i List.mem_cons_self
    have hrest : ∀ j ∈ rest, j < g.working.size := fun j hj => horder j (List.mem_cons_of_mem _ hj)
    unfold extendAny
    dsimp only
    split
    · rename_i hconflict
      obtain ⟨hK, htried⟩ := ih hrest h
      exact ⟨hK, htried.cons (.inl hconflict)⟩
    · obtain ⟨hK, hadmits⟩ := hA.solve ((g.workingAt i).kept.union u).literals h
      split <;> rename_i he <;> rw [he] at hK hadmits
      · exact ⟨hK, rfl, _, mem_working_of_lt hi, hadmits⟩
      · exact ⟨hK, .joined hi (.inr hadmits)⟩
      · obtain ⟨hK', htried⟩ := ih hrest hK
        exact ⟨hK', htried.cons (.inr hadmits)⟩
      · exact ⟨hK, rfl⟩

theorem openWorking_move (hA : A.Governs K) (h : K cx) (hstuck : g.Stuck A u) :
    K (g.openWorking cx u).2.2 ∧
      Move A g u (g.openWorking cx u).1 (g.openWorking cx u).2.1 := by
  unfold openWorking
  split
  · rename_i hfull
    exact ⟨h, .unplaced hfull hstuck⟩
  · rename_i hroom
    obtain ⟨hK, hadmits⟩ := hA.solve u.literals h
    split <;> rename_i he <;> rw [he] at hK hadmits
    · exact ⟨hK, .failed (.inl hadmits)⟩
    · exact ⟨hA.report _ hK, .opened (Nat.lt_of_not_le hroom) hstuck hadmits⟩
    · exact ⟨hA.report _ hK, .infeasible hadmits⟩
    · exact ⟨hK, .interrupted⟩

theorem findWitness_spec {order : List Nat} (h : g.findWitness u order = some i) :
    i ∈ order ∧ (g.workingAt i).witness.containsAll u = true := by
  have hp := List.find?_some h
  simp only [Bool.and_eq_true] at hp
  exact ⟨List.mem_of_find?_eq_some h, hp.2⟩

/-- **Covering a candidate** is one of the moves. -/
theorem cover_move (hA : A.Governs K) (h : K cx) :
    K (g.cover cx u).2.2 ∧ Move A g u (g.cover cx u).1 (g.cover cx u).2.1 := by
  unfold cover
  split
  · rename_i hkept
    exact ⟨h, .kept hkept⟩
  unfold coverNew
  dsimp only
  obtain ⟨hK, horder⟩ := extensionOrder_spec (g := g) hA h
  split
  · rename_i i hfind
    obtain ⟨hmem, hcontains⟩ := findWitness_spec hfind
    exact ⟨hK, .joined ((horder i).1 hmem) (.inl ⟨rfl, hcontains⟩)⟩
  · obtain ⟨hK', htried⟩ := extendAny_tried (u := u) hA (fun i hi => (horder i).1 hi) hK
    split <;> rename_i he <;> rw [he] at hK' htried
    · obtain ⟨rfl, hfails⟩ := htried
      exact ⟨hK', .failed (.inr hfails)⟩
    · exact ⟨hK', htried⟩
    · obtain rfl := htried
      exact ⟨hK', .interrupted⟩
    · obtain ⟨rfl, hall⟩ := htried
      refine openWorking_move hA hK' fun w hw => ?_
      obtain ⟨i, hi, rfl⟩ := exists_workingAt hw
      exact hall i ((horder i).2 hi)

/-! ## Steps -/

/-- The state that starts to hand out the working configurations, with the counts of candidates. -/
def handOver (g : Covering) : Covering :=
  let counted := g.coverage.candidates
  let candidates :=
    if g.truncated then max counted (candidateTotal g.groups g.strength) else counted
  { g with
    coverage := { g.coverage with candidates := candidates }
    phase := .emitting g.working.toList }

/-- What a step can do. -/
inductive Moves (A : Answers) (settings : SampleSettings) (accepted : Array LiteralSet)
    (g : Covering) : Except SampleError Step → Covering → Prop
  | done (hphase : g.phase = .emitting []) : Moves A settings accepted g (.ok .done) g
  | exhausted (hnone : A.Contradicted) : Moves A settings accepted g (.ok .exhausted) g
  | finished (hphase : g.phase = .covering)
    (hend : g.truncated = true ∨ g.pending = none ∧ g.cursor.next? = none) :
    Moves A settings accepted g (.ok .pending) g.handOver
  /-- A candidate is settled. -/
  | settled {u : LiteralSet} {g' g'' : Covering} (hphase : g.phase = .covering)
    (hopen : g.truncated = false) (htake : g.takeCandidate = (some u, g'))
    (hmove : Move A g' u (.ok .settled) g'') :
    Moves A settings accepted g (.ok .pending) { g'' with pending := none }
  /-- A candidate stays in progress. -/
  | retained {u : LiteralSet} {g' g'' : Covering} {outcome : Except SampleError Outcome}
    {result : Except SampleError Step} (hphase : g.phase = .covering)
    (hopen : g.truncated = false) (htake : g.takeCandidate = (some u, g'))
    (hmove : Move A g' u outcome g'')
    (hresult : (∃ e, outcome = .error e ∧ result = .error e) ∨
      outcome = .ok .interrupted ∧ result = .ok .pending) :
    Moves A settings accepted g result g''
  /-- A working configuration is handed out. -/
  | handed {w : Working} {rest : List Working} {config : LiteralSet}
    (hphase : g.phase = .emitting (w :: rest))
    (hconfig : config = w.witness ∧ (settings.allowDuplicates = true ∨ config ∉ accepted) ∨
      A.Model w.kept.literals config) :
    Moves A settings accepted g (.ok (.batch [config])) { g with phase := .emitting rest }
  /-- The sample has its model already and there is no other one. -/
  | dropped {w : Working} {rest : List Working} (hphase : g.phase = .emitting (w :: rest))
    (hold : w.witness ∈ accepted) (hnone : A.NoModel w.kept.literals) :
    Moves A settings accepted g (.ok .pending) { g with phase := .emitting rest }
  /-- A working configuration stays to be handed out. -/
  | held {w : Working} {rest : List Working} {result : Except SampleError Step}
    (hphase : g.phase = .emitting (w :: rest))
    (hresult : (∃ e, A.Fails w.kept.literals e ∧ result = .error e) ∨ result = .ok .pending) :
    Moves A settings accepted g result g

variable {settings : SampleSettings} {accepted : Array LiteralSet}

/-- While candidates are covered nothing is handed out. -/
theorem not_emitting (h : g.phase = .covering) (queue : List Working) :
    g.phase ≠ .emitting queue := by
  simp [h]

theorem takeCandidate_eq_none_iff {g' : Covering} : g.takeCandidate = (none, g') ↔
    g' = g ∧ g.pending = none ∧ g.cursor.next? = none := by
  unfold takeCandidate
  split
  · rename_i hpending
    simp [hpending]
  · rename_i hpending
    split
    · rename_i hnext
      simp [hpending, hnext, eq_comm]
    · rename_i hnext
      simp [hnext]

theorem coverStep_moves (hA : A.Governs K) (h : K cx) (hphase : g.phase = .covering) :
    K (g.coverStep cx).2.2 ∧
      Moves A settings accepted g (g.coverStep cx).1 (g.coverStep cx).2.1 := by
  unfold coverStep
  split
  · rename_i g' hnone
    have hend : g' = g ∧ (g.truncated = true ∨ g.pending = none ∧ g.cursor.next? = none) := by
      split at hnone
      · rename_i htruncated
        cases hnone
        exact ⟨rfl, .inl htruncated⟩
      · obtain ⟨rfl, hend⟩ := takeCandidate_eq_none_iff.1 hnone
        exact ⟨rfl, .inr hend⟩
    obtain ⟨rfl, hend⟩ := hend
    exact ⟨hA.announce _ (hA.report _ h), .finished hphase hend⟩
  · rename_i u g' hsome
    obtain ⟨htake, hopen⟩ : g.takeCandidate = (some u, g') ∧ g.truncated = false := by
      split at hsome
      · cases hsome
      · rename_i htruncated
        exact ⟨hsome, by simpa using htruncated⟩
    obtain ⟨hK, hmove⟩ := cover_move (g := g') (u := u) hA h
    split <;> rename_i he <;> rw [he] at hK hmove
    · exact ⟨hK, .retained hphase hopen htake hmove (.inl ⟨_, rfl, rfl⟩)⟩
    · exact ⟨hK, .retained hphase hopen htake hmove (.inr ⟨rfl, rfl⟩)⟩
    · refine ⟨?_, .settled hphase hopen htake hmove⟩
      dsimp only
      split
      · exact hK
      · exact hA.worked 1 hK

theorem emitStep_moves (hA : A.Governs K) (h : K cx) {w : Working} {rest : List Working}
    (hphase : g.phase = .emitting (w :: rest)) :
    K (g.emitStep settings accepted cx w rest).2.2 ∧
      Moves A settings accepted g (g.emitStep settings accepted cx w rest).1
        (g.emitStep settings accepted cx w rest).2.1 := by
  unfold emitStep
  dsimp only
  split
  · rename_i hnew
    refine ⟨h, .handed hphase (.inl ⟨rfl, ?_⟩)⟩
    simpa using hnew
  · rename_i hold
    have hmem : w.witness ∈ accepted := by
      simp only [Bool.or_eq_true, not_or, Bool.not_eq_true', Bool.not_eq_false] at hold
      simpa using hold.2
    obtain ⟨hK, hadmits⟩ := hA.solve w.kept.literals h
    split <;> rename_i he <;> rw [he] at hK hadmits
    · exact ⟨hK, .held hphase (.inl ⟨_, hadmits, rfl⟩)⟩
    · exact ⟨hK, .handed hphase (.inr hadmits)⟩
    · exact ⟨hK, .dropped hphase hmem hadmits⟩
    · exact ⟨hK, .held hphase (.inr rfl)⟩

/-- **Every step** is one of the moves. -/
theorem step_moves (settings : SampleSettings) (accepted : Array LiteralSet) (hA : A.Governs K)
    (h : K cx) :
    K (g.step settings accepted cx).2.2 ∧
      Moves A settings accepted g (g.step settings accepted cx).1
        (g.step settings accepted cx).2.1 := by
  unfold step
  split
  · rename_i hphase
    exact ⟨h, .done hphase⟩
  · rename_i hne
    split
    · rename_i hcontradicted
      exact ⟨h, .exhausted (hA.contradicted h hcontradicted)⟩
    · split
      · rename_i hphase
        exact coverStep_moves hA h hphase
      · rename_i hphase
        exact absurd hphase hne
      · rename_i hphase
        exact emitStep_moves hA h hphase

variable {g' : Covering}

/-- What a step yields is one configuration, for the first of the queue. -/
theorem Moves.exists_of_batch {configs : List LiteralSet}
    (h : Moves A settings accepted g (.ok (.batch configs)) g') : ∃ w rest config,
      configs = [config] ∧ g.phase = .emitting (w :: rest) ∧ g' = { g with phase := .emitting rest } := by
  cases h with
  | retained _ _ _ _ hresult => rcases hresult with ⟨_, _, he⟩ | ⟨_, he⟩ <;> cases he
  | @handed w rest config hphase => exact ⟨w, rest, config, rfl, hphase, rfl⟩
  | held _ hresult => rcases hresult with ⟨_, _, he⟩ | he <;> cases he

/-- A run is done when the queue is empty. -/
theorem Moves.phase_of_done (h : Moves A settings accepted g (.ok .done) g') :
    g'.phase = .emitting [] := by
  cases h with
  | done hphase => exact hphase
  | retained _ _ _ _ hresult => rcases hresult with ⟨_, _, he⟩ | ⟨_, he⟩ <;> cases he
  | held _ hresult => rcases hresult with ⟨_, _, he⟩ | he <;> cases he

end Covering

end ConfigSampler
