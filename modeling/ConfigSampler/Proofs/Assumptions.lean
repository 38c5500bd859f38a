import ConfigSampler.Proofs.Backtracking
import ConfigSampler.Proofs.Entailment
import ConfigSampler.Proofs.Polarity
import ConfigSampler.Proofs.Tidying
import ConfigSampler.Solver.Search

/-!
# Assumptions on the trail

The levels of a search belong to its assumptions, in order, before they belong to free decisions,
which obey the polarity rule; an assumption that is true already gets a level of its own without a
decision.  While that holds (`Trail.Follows`), a false assumption has been refuted by the clauses
together with assumptions before it, a level for each assumption means that all of them are true,
and a model that makes the assumptions and the allowed literals true makes the whole trail true.
-/

set_option autoImplicit false

namespace ConfigSampler

namespace Trail

variable {t u : Trail} {assumptions : Array Lit} {polarity : Polarity} {k : Nat} {l m : Lit}

/-! ## Decisions -/

/-- The literal is the decision of the level. -/
structure Decided (t : Trail) (k : Nat) (l : Lit) : Prop where
  mem : l ∈ t.lits
  level : t.levelOf l = k
  reason : t.reasonOf l = none

/-- Literals that a clause forces are no decisions. -/
theorem Decided.of_extends (h : u.Decided k l) (he : t.Extends u)
    (hforced : ∀ i, t.size ≤ i → i < u.size → u.reasonOf (u.litAt i) ≠ none) : t.Decided k l := by
  obtain ⟨i, hi, rfl⟩ := exists_litAt h.mem
  rcases Nat.lt_or_ge i t.size with hold | hnew
  · have hmem := litAt_mem hold
    have hlevel := h.level
    have hreason := h.reason
    rw [he.litAt i hold] at hlevel hreason ⊢
    exact ⟨hmem, (he.levelOf _ hmem).symm.trans hlevel, (he.reasonOf _ hmem).symm.trans hreason⟩
  · exact absurd h.reason (hforced i hnew hi)

theorem Decided.of_rewindTo (ht : t.Ok) {target : Nat} (h : (t.rewindTo target).1.Decided k l) :
    t.Decided k l :=
  ⟨(ht.mem_rewindTo.1 h.mem).1, (ht.levelOf_rewindTo target l).symm.trans h.level,
    (ht.reasonOf_rewindTo h.mem).symm.trans h.reason⟩

/-- Opening a level with a decision adds this decision only. -/
theorem Decided.of_assign (ht : t.Ok) (hl : l.var < t.numVars) (hfree : t.isFree l.var = true)
    (h : (t.newLevel.assign l none).Decided k m) : t.Decided k m ∨ m = l ∧ k = t.level + 1 := by
  have hext : t.newLevel.Extends (t.newLevel.assign l none) := .assign ht.newLevel hfree none
  rcases mem_assign.1 h.mem with hold | rfl
  · exact .inl ⟨hold, (hext.levelOf m hold).symm.trans h.level,
      (hext.reasonOf m hold).symm.trans h.reason⟩
  · refine .inr ⟨rfl, ?_⟩
    rw [← h.level, ht.newLevel.levelOf_assign hl, level_newLevel]

/-! ## Levels of assumptions and levels of free decisions -/

/-- The levels up to the number of assumptions belong to them, in order: the decision of such a
    level is its assumption, and a level that was opened made its assumption true.  The decisions
    of the levels above were free and obey the polarity rule. -/
structure Follows (assumptions : Array Lit) (polarity : Polarity) (t : Trail) : Prop where
  assumed : ∀ k < assumptions.size, ∀ l, t.Decided (k + 1) l → l = assumptions.getD k default
  holds : ∀ k < assumptions.size, k < t.level →
    assumptions.getD k default ∈ t.lits ∧ t.levelOf (assumptions.getD k default) ≤ k + 1
  allowed : ∀ k l, assumptions.size < k → t.Decided k l → polarity.Allows l

theorem follows_of_ground (ht : t.Ok) (hground : t.level = 0) :
    t.Follows assumptions polarity := by
  have hnone : ∀ {k l}, 0 < k → ¬ t.Decided k l := by
    intro k l hk h
    have := ht.levelOf_le h.mem
    rw [h.level] at this
    omega
  exact ⟨fun k _ l h => absurd h (hnone (Nat.succ_pos k)), fun k _ hk => absurd hk (by omega),
    fun k l hk h => absurd h (hnone (Nat.zero_lt_of_lt hk))⟩

namespace Follows

theorem extend (h : t.Follows assumptions polarity) (he : t.Extends u)
    (hforced : ∀ i, t.size ≤ i → i < u.size → u.reasonOf (u.litAt i) ≠ none) :
    u.Follows assumptions polarity := by
  refine ⟨fun k hk l hl => h.assumed k hk l (hl.of_extends he hforced), fun k hk hlt => ?_,
    fun k l hk hl => h.allowed k l hk (hl.of_extends he hforced)⟩
  rw [he.level] at hlt
  obtain ⟨hmem, hlevel⟩ := h.holds k hk hlt
  exact ⟨he.mem hmem, by rw [he.levelOf _ hmem]; exact hlevel⟩

theorem assign (h : t.Follows assumptions polarity) (ht : t.Ok) (hl : l.var < t.numVars)
    (hfree : t.isFree l.var = true) (r : ClauseRef) :
    (t.assign l (some r)).Follows assumptions polarity := by
  refine h.extend (.assign ht hfree (some r)) fun i hi hi' => ?_
  rw [size_assign] at hi'
  obtain rfl : i = t.size := by omega
  rw [litAt_assign_size, ht.reasonOf_assign hl]
  exact Option.some_ne_none r

theorem rewindTo (h : t.Follows assumptions polarity) (ht : t.Ok) {target : Nat}
    (hle : target ≤ t.level) : (t.rewindTo target).1.Follows assumptions polarity := by
  refine ⟨fun k hk l hl => h.assumed k hk l (hl.of_rewindTo ht), fun k hk hlt => ?_,
    fun k l hk hl => h.allowed k l hk (hl.of_rewindTo ht)⟩
  rw [ht.level_rewindTo hle] at hlt
  obtain ⟨hmem, hlevel⟩ := h.holds k hk (by omega)
  exact ⟨ht.mem_rewindTo.2 ⟨hmem, by omega⟩, by rw [ht.levelOf_rewindTo]; exact hlevel⟩

/-- A true assumption gets a level of its own. -/
theorem newLevel (h : t.Follows assumptions polarity) (ht : t.Ok)
    (htrue : t.isTrue (assumptions.getD t.level default) = true) :
    t.newLevel.Follows assumptions polarity := by
  refine ⟨fun k hk l hl => h.assumed k hk l ⟨hl.mem, hl.level, hl.reason⟩, fun k hk hlt => ?_,
    fun k l hk hl => h.allowed k l hk ⟨hl.mem, hl.level, hl.reason⟩⟩
  rw [level_newLevel] at hlt
  rcases Nat.lt_succ_iff_lt_or_eq.1 hlt with hlt | rfl
  · exact h.holds k hk hlt
  · have hmem := (ht.isTrue_iff _).1 htrue
    exact ⟨hmem, Nat.le_succ_of_le (ht.levelOf_le hmem)⟩

/-- The decision of a level is its assumption, if it has one, and obeys the polarity rule
    otherwise. -/
theorem decide (h : t.Follows assumptions polarity) (ht : t.Ok) (hl : l.var < t.numVars)
    (hfree : t.isFree l.var = true)
    (hassumption : t.level < assumptions.size → l = assumptions.getD t.level default)
    (hallowed : assumptions.size ≤ t.level → polarity.Allows l) :
    (t.newLevel.assign l none).Follows assumptions polarity := by
  have hext : t.newLevel.Extends (t.newLevel.assign l none) := .assign ht.newLevel hfree none
  have hlevel : (t.newLevel.assign l none).levelOf l = t.level + 1 := by
    rw [ht.newLevel.levelOf_assign hl, level_newLevel]
  refine ⟨fun k hk m hm => ?_, fun k hk hlt => ?_, fun k m hk hm => ?_⟩
  · rcases hm.of_assign ht hl hfree with hold | ⟨rfl, hk'⟩
    · exact h.assumed k hk m hold
    · obtain rfl := Nat.succ.inj hk'
      exact hassumption hk
  · rw [level_assign, level_newLevel] at hlt
    rcases Nat.lt_succ_iff_lt_or_eq.1 hlt with hlt | rfl
    · obtain ⟨hmem, hle⟩ := h.holds k hk hlt
      exact ⟨hext.mem hmem, by rw [hext.levelOf _ hmem]; exact hle⟩
    · rw [← hassumption hk]
      exact ⟨mem_assign.2 (.inr rfl), Nat.le_of_eq hlevel⟩
  · rcases hm.of_assign ht hl hfree with hold | ⟨rfl, rfl⟩
    · exact h.allowed k m hk hold
    · exact hallowed (Nat.le_of_lt_succ hk)

/-- A jump gives up the levels above its target, and adds no decision. -/
theorem jump (h : t.Follows assumptions polarity) (ht : t.Ok) (hjump : t.Jumps u) :
    u.Follows assumptions polarity := by
  obtain ⟨target, hlt, l, reason, hl, hfree, hground, rfl⟩ := hjump
  have hback := ht.rewindTo target
  have hl' : l.var < (t.rewindTo target).1.numVars := by
    rw [ht.numVars_rewindTo]
    exact hl
  cases reason with
  | none =>
    obtain rfl := hground rfl
    apply follows_of_ground (hback.assign hl' hfree none)
    rw [level_assign]
    exact ht.level_rewindTo (Nat.zero_le _)
  | some r => exact (h.rewindTo ht (Nat.le_of_lt hlt)).assign hback hl' hfree r

end Follows

end Trail

namespace Propagator

variable {p q : Propagator} {assumptions : Array Lit} {polarity : Polarity} {l : Lit}
  {α : Assignment}

theorem Grows.follows (hg : Grows p q) (h : p.trail.Follows assumptions polarity) :
    q.trail.Follows assumptions polarity :=
  h.extend hg.trail fun i hi hi' => by
    obtain ⟨r, hr, -⟩ := hg.forced i hi hi'
    rw [hr]
    exact Option.some_ne_none r

theorem Tidied.follows (ht : Tidied p q) (h : p.trail.Follows assumptions polarity) :
    q.trail.Follows assumptions polarity := by
  have hdecisions := ht.decisions
  have htrail := ht.trail
  obtain ⟨t, a, watches, n⟩ := q
  obtain ⟨rs, rfl⟩ : ∃ rs, t = { p.trail with reasons := rs } := ⟨_, htrail⟩
  have hdecided : ∀ {k l}, 0 < k → Trail.Decided { p.trail with reasons := rs } k l →
      p.trail.Decided k l := by
    intro k l hk hl
    obtain ⟨i, hi, rfl⟩ := Trail.exists_litAt hl.mem
    have hlevel : p.trail.levelOf (p.trail.litAt i) = k := hl.level
    exact ⟨hl.mem, hlevel, hdecisions i hi (by omega) hl.reason⟩
  exact ⟨fun k hk l hl => h.assumed k hk l (hdecided (Nat.succ_pos k) hl), h.holds,
    fun k l hk hl => h.allowed k l hk (hdecided (Nat.zero_lt_of_lt hk) hl)⟩

/-! ## Opening a level -/

/-- Every literal on the trail was propagated, and every false watched literal is guarded. -/
structure Idle (p : Propagator) : Prop where
  inOrder : p.InOrder
  settled : p.IsSettled
  queueHead : p.trail.queueHead = p.trail.size

theorem Idle.guarded (h : p.Idle) {r : ClauseRef} {w : Lit} (hr : p.arena.IsLive r)
    (hw : (p.arena.view r).IsWatched w) (hfalse : p.trail.isFalse w = true) : p.Guarded r w := by
  obtain ⟨i, hi, he⟩ := Trail.exists_litAt ((h.inOrder.ok.trail.isFalse_iff w).1 hfalse)
  exact (h.settled r hr w hw ⟨i, by rw [h.queueHead]; exact hi, he⟩).resolve_left id

theorem Idle.newLevel (h : p.Idle) : Idle { p with trail := p.trail.newLevel } := by
  have hok := h.inOrder.ok
  refine ⟨⟨⟨hok.trail.newLevel, hok.clause, hok.slots, ⟨hok.watched.live, hok.watched.mem_iff,
    hok.watched.nodup, hok.watched.blocker⟩, fun i hi hpos => ?_, fun i hq hi => ?_,
    fun r hr w hw hfalse _ => h.guarded hr hw hfalse⟩, h.inOrder.fresh⟩, h.settled, h.queueHead⟩
  · refine (hok.reason i hi hpos).imp (fun ⟨hnone, hbottom⟩ => ⟨hnone, ?_⟩)
      fun ⟨r, hr, hf⟩ => ⟨r, hr, hf.live, hf.head, hf.others⟩
    -- the bottoms of the old levels stay
    have hle := hok.trail.levelOf_le (Trail.litAt_mem hi)
    refine Eq.trans ?_ hbottom
    show p.trail.newLevel.bottom (p.trail.levelOf (p.trail.litAt i)) = _
    have hpos' : 0 < p.trail.levelOf (p.trail.litAt i) := hpos
    have hlt : p.trail.levelOf (p.trail.litAt i) - 1 < p.trail.limits.size := by
      simp only [Trail.level] at hle
      omega
    simp only [Trail.bottom, Trail.newLevel, Nat.ne_of_gt hpos', if_false,
      Array.getD_eq_getD_getElem?, Array.getElem?_push, Nat.ne_of_lt hlt]
  · have hq' : p.trail.queueHead ≤ i := hq
    have hi' : i < p.trail.size := hi
    rw [h.queueHead] at hq'
    omega

/-- The first literal of a new level may be any literal without a value. -/
theorem Idle.decide (h : p.Idle) (hl : l.var < p.trail.numVars)
    (hfree : p.trail.isFree l.var = true) :
    InOrder { p with trail := p.trail.newLevel.assign l none } ∧
    IsSettled { p with trail := p.trail.newLevel.assign l none } := by
  have hnew := h.newLevel
  have hbottom : p.trail.newLevel.bottom p.trail.newLevel.level = p.trail.newLevel.size := by
    simp [Trail.bottom, Trail.newLevel, Trail.level, Trail.size, Array.getD_eq_getD_getElem?]
  exact ⟨⟨hnew.inOrder.ok.assign hl hfree fun _ => .inl ⟨rfl, hbottom⟩, hnew.inOrder.fresh⟩,
    hnew.settled.assign hnew.inOrder.ok.trail hl hfree none⟩

/-! ## The next assumption -/

/-- The propagator after levels were opened. -/
def withLimits (p : Propagator) (limits : Array Nat) : Propagator :=
  { p with trail := { p.trail with limits := limits } }

/-- What is relied on after a search for the next assumption. -/
def Awaits (assumptions : Array Lit) (t : Trail) : Option Search.Decision → Prop
  | none => assumptions.size ≤ t.level
  | some .assumptionFails => t.level < assumptions.size ∧
      t.isFalse (assumptions.getD t.level default) = true
  | some .allAssigned => False
  | some (.decide l) => t.level < assumptions.size ∧ t.isFree l.var = true ∧
      l = assumptions.getD t.level default

/-- What opening a level for a true assumption keeps still holds at the next assumption. -/
theorem nextAssumption_keeps {P : Trail → Prop} (hok : ∀ t, P t → t.Ok)
    (hopen : ∀ t : Trail, P t → t.level < assumptions.size →
      t.isTrue (assumptions.getD t.level default) = true → P t.newLevel) :
    ∀ (n : Nat) (t : Trail), P t → assumptions.size - t.level = n →
      P (Search.nextAssumption assumptions n t).2 ∧
      Awaits assumptions (Search.nextAssumption assumptions n t).2
        (Search.nextAssumption assumptions n t).1
  | 0, t, h, hn => ⟨h, by
      show assumptions.size ≤ t.level
      omega⟩
  | n + 1, t, h, hn => by
    have hlevel : t.level < assumptions.size := by omega
    unfold Search.nextAssumption
    simp only
    split
    · rename_i htrue
      have htrue' : t.isTrue (assumptions.getD t.level default) = true := by
        rw [Trail.isTrue, htrue]; rfl
      apply nextAssumption_keeps hok hopen n t.newLevel (hopen t h hlevel htrue')
      rw [Trail.level_newLevel]
      omega
    · rename_i hfalse
      refine ⟨h, hlevel, ?_⟩
      rw [Trail.isFalse, hfalse]; rfl
    · rename_i hunset
      refine ⟨h, hlevel, ((hok t h).isFree_iff _).2 ⟨?_, ?_⟩, rfl⟩
      · rw [Trail.isTrue, hunset]; rfl
      · rw [Trail.isFalse, hunset]; rfl

/-- Opening levels for true assumptions keeps the invariant. -/
theorem nextAssumption_spec (n : Nat) (p : Propagator) (h : p.Idle)
    (hf : p.trail.Follows assumptions polarity) (hn : assumptions.size - p.trail.level = n) :
    ∃ limits, (Search.nextAssumption assumptions n p.trail).2 = { p.trail with limits := limits } ∧
      (p.withLimits limits).Idle ∧ (p.withLimits limits).trail.Follows assumptions polarity ∧
      Awaits assumptions (p.withLimits limits).trail
        (Search.nextAssumption assumptions n p.trail).1 := by
  obtain ⟨⟨limits, htrail, hidle, hfollows⟩, hawaits⟩ := nextAssumption_keeps
    (P := fun t => ∃ limits, t = { p.trail with limits := limits } ∧
      (p.withLimits limits).Idle ∧ (p.withLimits limits).trail.Follows assumptions polarity)
    (fun t ht => by
      obtain ⟨limits, rfl, hidle, -⟩ := ht
      exact hidle.inOrder.ok.trail)
    (fun t ht hlevel htrue => by
      obtain ⟨limits, rfl, hidle, hfollows⟩ := ht
      exact ⟨_, rfl, hidle.newLevel, hfollows.newLevel hidle.inOrder.ok.trail htrue⟩)
    n p.trail ⟨p.trail.limits, rfl, h, hf⟩ hn
  rw [htrail] at hawaits
  exact ⟨limits, htrail, hidle, hfollows, hawaits⟩

/-! ## What the levels of assumptions tell -/

/-- **Assumptions and free decisions settle the trail.** -/
theorem Ok.holds_of_follows {lists : Lit → List Watcher} (h : p.Ok lists)
    (hf : p.trail.Follows assumptions polarity) (hα : p.Models α)
    (hassumed : ∀ l ∈ assumptions, l.Holds α)
    (hfree : ∀ k l, assumptions.size < k → p.trail.Decided k l → l.Holds α) :
    ∀ l ∈ p.trail.lits, l.Holds α := by
  have hall := h.holds_of_decisions hα fun i hi hpos hnone => by
    have hdecided : p.trail.Decided (p.trail.levelOf (p.trail.litAt i)) (p.trail.litAt i) :=
      ⟨Trail.litAt_mem hi, rfl, hnone⟩
    rcases Nat.lt_or_ge assumptions.size (p.trail.levelOf (p.trail.litAt i)) with hlt | hle
    · exact hfree _ _ hlt hdecided
    · obtain ⟨k, hk⟩ := Nat.exists_eq_add_one_of_ne_zero (Nat.ne_of_gt hpos)
      have hk' : k < assumptions.size := by omega
      rw [hf.assumed k hk' _ ⟨hdecided.mem, hk, hnone⟩]
      exact hassumed _ (by simp [Array.getD, hk'])
  intro l hl
  obtain ⟨i, hi, rfl⟩ := Trail.exists_litAt hl
  exact hall i hi

/-- **An assumption that became false is refuted** by the clauses and the assumptions before it. -/
theorem Ok.not_holds_of_follows {lists : Lit → List Watcher} (h : p.Ok lists)
    (hf : p.trail.Follows assumptions polarity) (hlevel : p.trail.level < assumptions.size)
    (hfalse : p.trail.isFalse (assumptions.getD p.trail.level default) = true)
    (hα : p.Models α) : ∃ l ∈ assumptions, ¬ l.Holds α := by
  by_contra hcon
  push Not at hcon
  have hall := h.holds_of_follows hf hα hcon fun k l hk hl => by
    have hle := h.trail.levelOf_le hl.mem
    rw [hl.level] at hle
    omega
  have := hall _ ((h.trail.isFalse_iff _).1 hfalse)
  rw [Lit.holds_negate] at this
  exact this (hcon _ (by simp [Array.getD, hlevel]))

end Propagator

end ConfigSampler
