import ConfigSampler.Proofs.Assumptions
import ConfigSampler.Proofs.Compaction
import ConfigSampler.Proofs.Lessons
import ConfigSampler.Proofs.NewClauses
import ConfigSampler.Proofs.Waiting

/-!
# The invariant of a search

`Search.Ok s n F` says that the search `s` over `n` variables stands for the assignments that `F`
accepts: its propagator is in order, every accepted assignment satisfies the stored clauses and the
ground literals, learnt ones included, and every assignment that satisfies the problem clauses and
the ground literals is accepted.  Everything a search does to its parts keeps it.
-/

set_option autoImplicit false

namespace ConfigSampler

namespace Search

variable {s s' : Search} {n : Nat} {F : Assignment → Prop} {q : Propagator} {lists : ClauseLists}
  {assumptions : Array Lit} {polarity : Polarity} {l : Lit} {limit : LearntLimit}

/-- The search over `n` variables stands for the assignments that `F` accepts. -/
structure Ok (s : Search) (n : Nat) (F : Assignment → Prop) : Prop where
  numVars : s.propagator.trail.numVars = n
  inOrder : s.propagator.InOrder
  sound : ∀ α, F α → s.propagator.Models α
  complete : ∀ α, s.propagator.ModelsProblem α → F α
  listed : s.lists.ListsLearnt s.propagator.arena
  waits : s.queue.Waits n fun v => s.propagator.trail.isFree v = true
  marks : s.marks.Clear n

/-- Counters, limits and the journal play no part in the invariant. -/
theorem Ok.congr (h : s.Ok n F) (hp : s'.propagator = s.propagator) (hl : s'.lists = s.lists)
    (hq : s'.queue = s.queue) (hm : s'.marks = s.marks) : s'.Ok n F where
  numVars := by rw [hp]; exact h.numVars
  inOrder := by rw [hp]; exact h.inOrder
  sound := by rw [hp]; exact h.sound
  complete := by rw [hp]; exact h.complete
  listed := by rw [hp, hl]; exact h.listed
  waits := by rw [hp, hq]; exact h.waits
  marks := by rw [hm]; exact h.marks

/-! ## The start -/

/-- There are variables, but no clauses and no values. -/
structure Blank (s : Search) (n : Nat) : Prop where
  trail : s.propagator.trail.Ok
  numVars : s.propagator.trail.numVars = n
  lits : s.propagator.trail.lits = #[]
  limits : s.propagator.trail.limits = #[]
  clauses : s.propagator.arena.clauses = #[]
  slots : s.propagator.watches.slots.size = 2 * n
  watchers : ∀ l, (s.propagator.watches.listOf l).watchers = #[]
  learnts : s.lists.learnts = #[]
  waits : s.queue.Waits n fun _ => True
  marks : s.marks.Clear n

theorem blank_empty (settings : SolverSettings) : Blank (empty settings) 0 where
  trail := Trail.ok_empty
  numVars := rfl
  lits := rfl
  limits := rfl
  clauses := rfl
  slots := rfl
  watchers _ := rfl
  learnts := rfl
  waits := DecisionQueue.waits_empty settings.decision
  marks := ⟨rfl, fun _ => rfl⟩

theorem Blank.newVar (h : s.Blank n) : s.newVar.Blank (n + 1) where
  trail := h.trail.newVar
  numVars := (Array.size_push _).trans (congrArg (· + 1) h.numVars)
  lits := h.lits
  limits := h.limits
  clauses := h.clauses
  slots := by
    have hn : s.propagator.trail.numVars = n := h.numVars
    simp only [Search.newVar, Propagator.newVar, WatchTable.newVar, DenseTable.grow, hn,
      Array.size_append, Array.size_replicate, h.slots]
    omega
  watchers l := by
    have hl := h.watchers l
    simp only [WatchTable.listOf, Search.newVar, Propagator.newVar, WatchTable.newVar,
      DenseTable.grow, Array.getD_eq_getD_getElem?, Array.getElem?_append,
      Array.getElem?_replicate] at hl ⊢
    split
    · split
      · exact hl
      · split <;> rfl
    · split <;> rfl
  learnts := h.learnts
  waits := h.waits.newVar.mono fun _ _ _ => .inr trivial
  marks := by
    refine ⟨by simp [Search.newVar, h.marks.size], fun v => ?_⟩
    have hv := h.marks.unseen v
    simp only [markOf, Array.getD_eq_getD_getElem?, Search.newVar, Array.getElem?_push] at hv ⊢
    split
    · rfl
    · exact hv

theorem Blank.newVars : ∀ (m : Nat) {n : Nat} {s : Search}, s.Blank n →
    (Search.newVars m s).Blank (n + m)
  | 0, _, _, h => h
  | m + 1, n, s, h => by
    have := Blank.newVars m h.newVar
    rwa [Nat.add_right_comm, Nat.add_assoc] at this

theorem Blank.not_isLive (h : s.Blank n) (r : ClauseRef) : ¬ s.propagator.arena.IsLive r := by
  intro hr
  have := hr.index_lt
  rw [h.clauses] at this
  exact absurd this (Nat.not_lt_zero _)

theorem Blank.idle (h : s.Blank n) : s.propagator.Idle := by
  have hsize : s.propagator.trail.size = 0 := by simp [Trail.size, h.lits]
  have hwatchers : ∀ l, s.propagator.watchersOf l = [] := by
    intro l
    simp [Propagator.watchersOf, h.watchers]
  refine ⟨⟨⟨h.trail, fun r hr => absurd hr (h.not_isLive r), ?_, ⟨fun l x hx => ?_,
    fun r hr => absurd hr (h.not_isLive r), fun l => ?_, fun l x hx => ?_⟩, fun i hi => ?_,
    fun i _ hi => ?_, fun r hr => absurd hr (h.not_isLive r)⟩, fun l x hx => ?_⟩,
    fun r hr => absurd hr (h.not_isLive r), ?_⟩
  · rw [h.slots, h.numVars]
  · simp [hwatchers] at hx
  · simp [hwatchers]
  · simp [hwatchers] at hx
  · omega
  · omega
  · simp [h.watchers] at hx
  · have := h.trail.queueHead_le
    omega

theorem Blank.ok (h : s.Blank n) : s.Ok n fun _ => True where
  numVars := h.numVars
  inOrder := h.idle.inOrder
  sound α _ := ⟨fun r hr => absurd hr (h.not_isLive r), by simp [h.lits]⟩
  complete _ _ := trivial
  listed := by simp [ClauseLists.ListsLearnt, h.learnts]
  waits := h.waits.mono fun _ _ _ => trivial
  marks := h.marks

/-! ## Propagation and housekeeping -/

theorem Ok.grow (h : s.Ok n F) (hq : q.InOrder) (hg : Propagator.Grows s.propagator q) :
    Ok { s with propagator := q } n F where
  numVars := hg.trail.numVars.trans h.numVars
  inOrder := hq
  sound α hα := hg.models h.inOrder.ok.trail hq.ok.trail (h.sound α hα)
  complete α hα := h.complete α (hg.modelsProblem hα)
  listed r hr := (h.listed r hr).of_same ⟨hg.arena.size, fun r => (hg.arena.clause r).learnt⟩
  waits := h.waits.mono fun _ _ hv =>
    h.inOrder.ok.trail.isFree_of_isTrue hq.ok.trail
      (fun _ => hg.trail.isTrue h.inOrder.ok.trail hq.ok.trail) hv
  marks := h.marks

theorem Ok.tidy (h : s.Ok n F) (ht : Propagator.Tidied s.propagator q)
    (hl : lists.ListsLearnt q.arena) : Ok { s with propagator := q, lists := lists } n F where
  numVars := by
    show q.trail.numVars = n
    rw [ht.trail]; exact h.numVars
  inOrder := ht.inOrder
  sound α hα := ht.models α (h.sound α hα)
  complete α hα := h.complete α (ht.modelsProblem α hα)
  listed := hl
  waits := h.waits.mono fun v _ hv => by
    have hv' : q.trail.isFree v = true := hv
    rw [ht.trail] at hv'
    exact hv'
  marks := h.marks

theorem Ok.collectGarbage (h : s.Ok n F) :
    s.collectGarbage.Ok n F ∧ Propagator.Tidied s.propagator s.collectGarbage.propagator := by
  unfold Search.collectGarbage
  split
  · obtain ⟨ht, hl⟩ := compact_spec h.inOrder h.listed
    exact ⟨(h.tidy ht hl).congr rfl rfl rfl rfl, ht⟩
  · exact ⟨h, .refl h.inOrder⟩

theorem Ok.reduceLearnts (h : s.Ok n F) :
    s.reduceLearnts.Ok n F ∧ Propagator.Tidied s.propagator s.reduceLearnts.propagator := by
  obtain ⟨ht, hl⟩ := ClauseLists.reduce_spec h.inOrder h.listed
  obtain ⟨hok, ht'⟩ := (h.tidy ht hl).collectGarbage
  exact ⟨hok, ht.trans ht'⟩

/-- Satisfied clauses are looked for on the ground only. -/
theorem level_of_simplifies (h : ¬(!s.propagator.trail.atGround || s.skipsSimplification) = true) :
    s.propagator.trail.level = 0 := by
  simp only [Bool.or_eq_true, Bool.not_eq_true', not_or, Bool.not_eq_false] at h
  simpa [Trail.atGround, Trail.level] using h.1

theorem Ok.simplify (h : s.Ok n F) :
    s.simplify.Ok n F ∧ Propagator.Tidied s.propagator s.simplify.propagator := by
  unfold Search.simplify
  split
  · exact ⟨h, .refl h.inOrder⟩
  · rename_i hskip
    have hground := level_of_simplifies hskip
    obtain ⟨ht, hl⟩ := ClauseLists.removeSatisfied_spec h.inOrder hground h.listed
    obtain ⟨hok, ht'⟩ := (h.tidy ht hl).collectGarbage
    have hwaits := DecisionQueue.waits_rebuild hok.waits.numVars
    exact ⟨⟨hok.numVars, hok.inOrder, hok.sound, hok.complete, hok.listed, hwaits _, hok.marks⟩,
      ht.trans ht'⟩

/-! ## Going back -/

theorem propagator_backtrack (s : Search) (level : Nat) :
    (s.backtrack level).propagator = s.propagator.rewindTo level := rfl

theorem mem_backtracked (ht : s.propagator.trail.Ok) {target v : Nat} :
    v ∈ (s.propagator.trail.rewindTo target).2.toList.map (fun e => e.2.var) ↔
      v ∈ s.propagator.trail.varsFrom (s.propagator.trail.top target) := by
  have hremoved := congrArg (List.map Lit.var) (Trail.cut_rewindTo ht target).2.2.2
  rw [List.map_map] at hremoved
  have hsame : (s.propagator.trail.rewindTo target).2.toList.map (fun e => e.2.var) =
      (s.propagator.trail.rewindTo target).2.toList.map (Lit.var ∘ Prod.snd) := rfl
  rw [hsame, hremoved, List.map_reverse, List.mem_reverse]
  rfl

/-- Going back loses no model, and the variables without a value wait again. -/
theorem Ok.backtrack (h : s.Ok n F) (target : Nat) : (s.backtrack target).Ok n F := by
  have ht := h.inOrder.ok.trail
  have hground : ∀ l, l ∈ (s.propagator.trail.rewindTo target).1.lits ∧
      (s.propagator.trail.rewindTo target).1.levelOf l = 0 ↔
      l ∈ s.propagator.trail.lits ∧ s.propagator.trail.levelOf l = 0 := by
    intro l
    rw [ht.mem_rewindTo, ht.levelOf_rewindTo]
    constructor
    · exact fun ⟨⟨hl, _⟩, h0⟩ => ⟨hl, h0⟩
    · exact fun ⟨hl, h0⟩ => ⟨⟨hl, by omega⟩, h0⟩
  refine ⟨(ht.numVars_rewindTo target).trans h.numVars, h.inOrder.rewindTo target, fun α hα => ?_,
    fun α hα => ?_, h.listed, ?_, h.marks⟩
  · have hm := h.sound α hα
    refine ⟨hm.clause, fun l hl h0 => ?_⟩
    obtain ⟨hl, h0⟩ := (hground l).1 ⟨hl, h0⟩
    exact hm.ground l hl h0
  · refine h.complete α ⟨hα.clause, fun l hl h0 => ?_⟩
    obtain ⟨hl, h0⟩ := (hground l).2 ⟨hl, h0⟩
    exact hα.ground l hl h0
  · have hbound : ∀ v ∈ (s.propagator.trail.rewindTo target).2.toList.map (fun e => e.2.var), v < n := by
      intro v hv
      obtain ⟨l, hl, rfl, -⟩ := ht.mem_varsFrom_top.1 ((mem_backtracked ht).1 hv)
      rw [← h.numVars]
      exact ht.var_lt l hl
    refine (h.waits.insertAll _ hbound).mono fun v _ hv => ?_
    rw [mem_backtracked ht]
    have hval := (Trail.cut_rewindTo ht target).1.valuesOf v
    by_cases hmem : v ∈ s.propagator.trail.varsFrom (s.propagator.trail.top target)
    · exact .inl hmem
    · right
      have hv' : (s.propagator.trail.rewindTo target).1.isFree v = true := hv
      rw [if_neg hmem] at hval
      rwa [Trail.isFree, hval] at hv'

/-! ## New clauses and ground literals -/

theorem Ok.reactivate (h : s.Ok n F) {a : Arena} (ha : s.propagator.arena.Reactivated a)
    (hl : lists.learnts = s.lists.learnts) :
    Ok { s with propagator := { s.propagator with arena := a }, lists := lists } n F := by
  have ht := Propagator.Transfer.reactivate h.inOrder ha
  refine ⟨h.numVars, ht.inOrder h.inOrder, fun α hα => ht.models h.inOrder (h.sound α hα),
    fun α hα => h.complete α (ht.modelsProblem h.inOrder (fun r hr _ => .inl (ha.isLive_iff.2 hr)) hα),
    fun r hr => ?_, h.waits, h.marks⟩
  have hr' : r ∈ lists.learnts := hr
  rw [hl] at hr'
  exact (h.listed r hr').of_same ha.sameLearnt

/-- A stored clause narrows the accepted assignments down to those that satisfy it, unless it is
    learnt and they all do. -/
theorem Ok.withClause (h : s.Ok n F) {lits : Array Lit} {learnt : Bool} {activity : Float}
    {first second : Lit} {F' : Assignment → Prop}
    (hin : (s.propagator.withClause lits learnt activity first second).InOrder)
    (hl : lists.ListsLearnt (s.propagator.withClause lits learnt activity first second).arena)
    (hsound : ∀ α, F' α → F α ∧ ∃ l ∈ lits, l.Holds α)
    (hcomplete : ∀ α, F α → (learnt = false → ∃ l ∈ lits, l.Holds α) → F' α) :
    Ok { s with
      propagator := s.propagator.withClause lits learnt activity first second
      lists := lists } n F' where
  numVars := h.numVars
  inOrder := hin
  sound α hα := (h.sound α (hsound α hα).1).withClause (hsound α hα).2
  complete α hα :=
    have hα' := Propagator.ModelsProblem.withClause hα
    hcomplete α (h.complete α hα'.1) hα'.2
  listed := hl
  waits := h.waits
  marks := h.marks

/-- A literal that is made true at ground level narrows the accepted assignments down to those that
    make it true. -/
theorem Ok.assignGround (h : s.Ok n F) {F' : Assignment → Prop} (hground : s.propagator.trail.level = 0)
    (hl : l.var < n) (hfree : s.propagator.trail.isFree l.var = true)
    (hF : ∀ α, F' α ↔ F α ∧ l.Holds α) :
    Ok { s with propagator := s.propagator.assign l none } n F' := by
  have ht := h.inOrder.ok.trail
  have hlt : l.var < s.propagator.trail.numVars := by rw [h.numVars]; exact hl
  have hext := Trail.Extends.assign ht hfree none
  refine ⟨(Trail.numVars_assign ..).trans h.numVars, ⟨h.inOrder.ok.assign hlt hfree fun hpos => ?_,
    h.inOrder.fresh⟩, fun α hα => ?_, fun α hα => (hF α).2 ⟨h.complete α ?_, ?_⟩, h.listed,
    h.waits.mono fun v _ hv => ?_, h.marks⟩
  · omega
  · obtain ⟨hα, hholds⟩ := (hF α).1 hα
    have hm := h.sound α hα
    refine ⟨hm.clause, fun m hmem h0 => ?_⟩
    rcases Trail.mem_assign.1 hmem with hold | rfl
    · exact hm.ground m hold ((hext.levelOf m hold).symm.trans h0)
    · exact hholds
  · exact ⟨hα.clause, fun m hm h0 => hα.ground m (hext.mem hm) ((hext.levelOf m hm).trans h0)⟩
  · exact hα.ground l (Trail.mem_assign.2 (.inr rfl))
      ((ht.levelOf_assign hlt none).trans hground)
  · exact ht.isFree_of_isTrue (ht.assign hlt hfree none)
      (fun m hm => (ht.isTrue_assign hlt hfree none).2 (.inr hm)) hv

/-! ## Learning -/

/-- Between two rounds of propagation: the invariant, and a guard for every literal that was
    propagated. -/
structure Poised (s : Search) (n : Nat) (F : Assignment → Prop) : Prop where
  ok : s.Ok n F
  settled : s.propagator.IsSettled

/-- Moreover the levels belong to the assumptions, and the queue works under the polarity rule. -/
structure Steady (s : Search) (assumptions : Array Lit) (polarity : Polarity) (n : Nat)
    (F : Assignment → Prop) : Prop where
  ok : s.Ok n F
  settled : s.propagator.IsSettled
  follows : s.propagator.trail.Follows assumptions polarity
  rule : s.queue.settings.polarity = polarity

theorem Poised.backtrack (h : s.Poised n F) (target : Nat) : (s.backtrack target).Poised n F := by
  refine ⟨h.ok.backtrack target, ?_⟩
  rw [propagator_backtrack]
  rcases Nat.lt_or_ge target s.propagator.trail.level with hlt | hge
  · exact h.ok.inOrder.isSettled_rewindTo hlt
  · rw [Propagator.rewindTo, h.ok.inOrder.ok.trail.rewindTo_of_le hge]
    exact h.settled

theorem settings_backtrack (s : Search) (target : Nat) :
    (s.backtrack target).queue.settings = s.queue.settings :=
  DecisionQueue.settings_insertAll _ _

theorem settings_absorb (s : Search) (a : Analysis) :
    (s.absorb a).queue.settings = s.queue.settings :=
  DecisionQueue.settings_bumpAll _ _

theorem Ok.absorb (h : s.Ok n F) (a : Analysis) (ha : a.marks.Clear n) (marks : Marks)
    (conflicts : Nat) : ({ s with marks := marks, conflicts := conflicts }.absorb a).Ok n F := by
  obtain ⟨hre, hl⟩ := ClauseLists.bumpAll_spec a.usedClauses s.lists s.propagator.arena
  have hok := h.reactivate hre hl
  exact ⟨hok.numVars, hok.inOrder, hok.sound, hok.complete, hok.listed,
    hok.waits.bumpAll a.seenVars, ha⟩

theorem Ok.var_lt_of_isFalse (h : s.Ok n F) (hfalse : s.propagator.trail.isFalse l = true) :
    l.var < n := by
  rw [← h.numVars, ← Lit.var_negate]
  exact h.inOrder.ok.trail.var_lt _ ((h.inOrder.ok.trail.isFalse_iff l).1 hfalse)

theorem Ok.follow_unit (h : s.Ok n F) (hpos : 0 < s.propagator.trail.level)
    (hfalse : s.propagator.trail.isFalse l = true)
    (hlevel : s.propagator.trail.levelOf l = s.propagator.trail.level)
    (hholds : ∀ α, F α → l.Holds α) :
    (s.follow (.unit l)).Poised n F ∧
    s.propagator.trail.Jumps (s.follow (.unit l)).propagator.trail := by
  have ht := h.inOrder.ok.trail
  have hlt : l.var < n := h.var_lt_of_isFalse hfalse
  have hground : (s.backtrack 0).propagator.trail.level = 0 := ht.level_rewindTo (Nat.zero_le _)
  have hfree := ht.isFree_rewindTo (Nat.lt_of_lt_of_eq hpos hlevel.symm)
  have hok := (h.backtrack 0).assignGround hground hlt hfree
    (fun α => ⟨fun hα => ⟨hα, hholds α hα⟩, And.left⟩)
  refine ⟨⟨hok, ?_⟩, 0, hpos, l, none, ?_, hfree, fun _ => rfl, rfl⟩
  · exact (h.inOrder.isSettled_rewindTo hpos).assign (h.backtrack 0).inOrder.ok.trail
      (Nat.lt_of_lt_of_eq hlt (h.backtrack 0).numVars.symm) hfree none
  · exact Nat.lt_of_lt_of_eq hlt h.numVars.symm

theorem learnClause_spec (d : ClauseLists) (a : Arena) (lits : Array Lit) :
    (d.learnClause a lits).1 = (a.push lits true 0).1 ∧
    (a.push lits true 0).2.Reactivated (d.learnClause a lits).2.2 ∧
    (d.learnClause a lits).2.1.learnts = d.learnts.push (a.push lits true 0).1 := by
  obtain ⟨ha, hl⟩ := ClauseLists.bump_spec
    { d.count true lits.size with learnts := (d.count true lits.size).learnts.push (a.push lits true 0).1 }
    (a.push lits true 0).2 (a.push lits true 0).1
  refine ⟨rfl, ha, hl.trans ?_⟩
  rw [ClauseLists.learnts_count]

theorem isLearnt_push (a : Arena) (lits : Array Lit) {learnt : Bool} {activity : Float}
    {r : ClauseRef} (hr : a.IsLearnt r) : (a.push lits learnt activity).2.IsLearnt r := by
  refine ⟨Nat.lt_of_lt_of_le hr.1 (by simp [Arena.push]), ?_⟩
  rw [Arena.view_push_of_ne]
  · exact hr.2
  · rintro rfl
    exact Nat.lt_irrefl _ hr.1

/-- Stores a learnt clause and makes its first literal true. -/
def storeLearnt (s : Search) (lits : Array Lit) : Search :=
  let first := lits.getD 0 default
  let second := lits.getD 1 default
  let p := s.propagator
  let (r, lists, arena) := s.lists.learnClause p.arena lits
  let p := { p with arena := arena, watches := WatchTable.attach p.watches r first second }
  { s with propagator := p.assign first (some r), lists := lists }

theorem follow_clause (s : Search) (level : Nat) (lits : Array Lit) :
    s.follow (.clause level lits) = (s.backtrack level).storeLearnt lits := rfl

theorem trail_storeLearnt (s : Search) (lits : Array Lit) :
    (s.storeLearnt lits).propagator.trail =
      s.propagator.trail.assign (lits.getD 0 default) (some s.propagator.nextName) := rfl

/-- A clause may be learnt if its first literal has no value and the others are false, the second
    one on the current level. -/
theorem Poised.storeLearnt (h : s.Poised n F) {lits : Array Lit}
    (hc : (Propagator.newClause lits true 0).Ok s.propagator.trail.numVars)
    (hfree : s.propagator.trail.isFree (lits.getD 0 default).var = true)
    (hothers : ∀ l ∈ lits, l ≠ lits.getD 0 default → s.propagator.trail.isFalse l = true)
    (hsecond : s.propagator.trail.levelOf (lits.getD 1 default) = s.propagator.trail.level)
    (hholds : ∀ α, F α → ∃ l ∈ lits, l.Holds α) :
    (s.storeLearnt lits).Poised n F := by
  have ht := h.ok.inOrder.ok.trail
  have hlt := hc.var_lt _ hc.head_mem
  have hwith := h.ok.inOrder.withClause hc fun w hw hfalse => by
    rcases hw with rfl | rfl
    · have hfalse' : s.propagator.trail.isFalse (lits.getD 0 default) = true := hfalse
      rw [((ht.isFree_iff _).1 hfree).2] at hfalse'
      cases hfalse'
    · exact Nat.le_of_eq hsecond.symm
  obtain ⟨hin, hsettled⟩ := h.ok.inOrder.learn h.settled hc hfree hothers hsecond
  obtain ⟨hname, hre, hlearnts⟩ := learnClause_spec s.lists s.propagator.arena lits
  -- the list of learnt clauses gains the new name
  have hlisted : ClauseLists.ListsLearnt
      { s.lists with learnts := s.lists.learnts.push s.propagator.nextName }
      (s.propagator.arena.push lits true 0).2 := by
    intro r hr
    rcases Array.mem_push.1 hr with hr | rfl
    · exact isLearnt_push _ _ (h.ok.listed r hr)
    · have hview := Arena.view_push_self s.propagator.arena lits true 0
      exact ⟨by simp [Arena.push, Propagator.nextName], congrArg Clause.learnt hview⟩
  have hstored : Ok _ n F := h.ok.withClause hwith hlisted (fun α hα => ⟨hα, hholds α hα⟩)
    fun α hα _ => hα
  have hgrown := hstored.grow hin (.assign ht hlt hfree (Propagator.isUnit_withClause hothers))
  have htidied := (Propagator.Transfer.reactivate hin hre).tidied hin
    fun r hr _ => .inl (hre.isLive_iff.2 hr)
  have hok := hgrown.reactivate hre hlearnts
  unfold Search.storeLearnt
  dsimp only
  generalize s.lists.learnClause s.propagator.arena lits = out at *
  obtain ⟨r, d, a⟩ := out
  dsimp only at hname
  subst hname
  exact ⟨hok.congr rfl rfl rfl rfl, htidied.settled hsettled⟩

/-- **Following a sound lesson** jumps to a lower level and keeps the invariant. -/
theorem Ok.follow (h : s.Ok n F) {p : Propagator} {lesson : Lesson}
    (htrail : s.propagator.trail = p.trail) (hmodels : ∀ α, F α → p.Models α)
    (hsound : lesson.Sound p) (hne : lesson ≠ .contradiction) :
    (s.follow lesson).Poised n F ∧
    s.propagator.trail.Jumps (s.follow lesson).propagator.trail := by
  have ht := h.inOrder.ok.trail
  cases lesson with
  | contradiction => exact absurd rfl hne
  | unit l =>
    obtain ⟨hpos, hfalse, hlevel, hholds⟩ := hsound
    rw [← htrail] at hpos hfalse hlevel
    exact h.follow_unit hpos hfalse hlevel fun α hα => hholds α (hmodels α hα)
  | clause level lits =>
    obtain ⟨hlt, hsize, hnodup, hfalse, hfirst, hsecond, hothers, hholds⟩ := hsound
    rw [← htrail] at hlt hfalse hfirst hsecond hothers
    have hlevel : (s.backtrack level).propagator.trail.level = level :=
      ht.level_rewindTo (Nat.le_of_lt hlt)
    have hvars : ∀ l ∈ lits, l.var < n := fun l hl => h.var_lt_of_isFalse (hfalse l hl)
    have hhead : lits.getD 0 default ∈ lits := by
      have hpos : 0 < lits.size := by omega
      simp only [Array.getD, hpos, dite_true]
      exact Array.getElem_mem _
    have hfree := ht.isFree_rewindTo (Nat.lt_of_lt_of_eq hlt hfirst.symm)
    have hpoised : (s.backtrack level).Poised n F :=
      ⟨h.backtrack level, h.inOrder.isSettled_rewindTo hlt⟩
    rw [follow_clause]
    refine ⟨hpoised.storeLearnt ⟨hsize, hnodup, fun l hl => ?_, rfl⟩ hfree (fun l hl hne => ?_) ?_
      fun α hα => hholds α (hmodels α hα), level, hlt, lits.getD 0 default,
      some (s.backtrack level).propagator.nextName, ?_, hfree, (nomatch ·), trail_storeLearnt _ _⟩
    · rw [(h.backtrack level).numVars]
      exact hvars l hl
    · exact ht.isFalse_rewindTo.2 ⟨hfalse l hl, hothers l hl hne⟩
    · exact (ht.levelOf_rewindTo level _).trans (hsecond.trans hlevel.symm)
    · rw [h.numVars]
      exact hvars _ hhead

theorem settings_follow (s : Search) (lesson : Lesson) :
    (s.follow lesson).queue.settings = s.queue.settings := by
  cases lesson with
  | contradiction => rfl
  | unit l => exact settings_backtrack s 0
  | clause level lits => exact settings_backtrack s level

theorem Poised.settle (h : s.Poised n F) (limit : LearntLimit) :
    (s.settle limit).2.Poised n F := by
  have hok : Ok { s with queue := s.queue.decay, lists := s.lists.decay } n F :=
    ⟨h.ok.numVars, h.ok.inOrder, h.ok.sound, h.ok.complete, h.ok.listed, h.ok.waits.decay, h.ok.marks⟩
  unfold Search.settle
  simp only
  split
  · exact ⟨hok.congr rfl rfl rfl rfl, h.settled⟩
  · exact ⟨hok, h.settled⟩

theorem trail_settle (s : Search) (limit : LearntLimit) :
    (s.settle limit).2.propagator = s.propagator := by
  unfold Search.settle
  simp only
  split <;> rfl

theorem settings_settle (s : Search) (limit : LearntLimit) :
    (s.settle limit).2.queue.settings = s.queue.settings := by
  unfold Search.settle
  simp only
  split <;> rfl

/-- **Learning from a conflict** jumps to a lower level, or shows that no assignment is accepted. -/
theorem Ok.learn (h : s.Ok n F) {conflict : ClauseRef}
    (hconflict : s.propagator.IsConflict conflict) {more : Bool} {limit' : LearntLimit}
    (he : s.learn limit conflict = (more, limit', s')) :
    s'.Ok n F ∧ (more = false → ∀ α, ¬ F α) ∧
    (more = true → s'.Poised n F ∧ s.propagator.trail.Jumps s'.propagator.trail) := by
  obtain ⟨hsound, hmarks⟩ := analyze_spec h.inOrder.ok hconflict
    (by rw [h.numVars]; exact h.marks) s.settings.minimisation
  rw [h.numVars] at hmarks
  have hok := h.absorb _ hmarks #[] (s.conflicts + 1)
  unfold Search.learn at he
  dsimp only at he
  generalize analyze _ _ _ _ _ = a at *
  split at he
  · rename_i hlesson
    rw [hlesson] at hsound
    cases he
    refine ⟨hok, fun _ α hα => ?_, (nomatch ·)⟩
    exact hconflict.not_models h.inOrder.ok.trail hsound (h.sound α hα)
  · rename_i hne
    obtain ⟨hpoised, hjump⟩ := hok.follow (p := s.propagator) rfl h.sound hsound hne
    cases he
    refine ⟨(hpoised.settle limit).ok, (nomatch ·), fun _ => ⟨hpoised.settle limit, ?_⟩⟩
    rw [trail_settle]
    exact hjump

theorem settings_learn {conflict : ClauseRef} {more : Bool} {limit' : LearntLimit}
    (he : s.learn limit conflict = (more, limit', s')) :
    s'.queue.settings = s.queue.settings := by
  unfold Search.learn at he
  dsimp only at he
  generalize analyze _ _ _ _ _ = a at *
  split at he
  · cases he
    exact settings_absorb _ _
  · cases he
    rw [settings_settle, settings_follow, settings_absorb]

end Search

end ConfigSampler
