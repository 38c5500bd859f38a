import ConfigSampler.Proofs.ReachableStates

/-!
# Lessons of reachable conflicts

`Lesson.Asserting` says what a learnt clause is good for: it follows from the stored clauses, it is
false with one literal of the current level, which comes first, and on the level to go back to it has
become a unit clause.  `Resolution.Visits` lists the states of the walk down the trail.

`Search.analyze_asserts` is the main statement: **the lesson of every reachable conflict above ground
level is asserting**, however it is shortened; the marks are clear afterwards; and the walk neither
leaves the current level nor meets a decision before its end.
-/

set_option autoImplicit false

namespace ConfigSampler

/-! ## The states of the walk -/

namespace Resolution

variable {trail : Trail} {arena : Arena} {conflict : ClauseRef} {start r : Resolution} {i : Nat}
  {p : Propagator} {lists : Lit → List Watcher}

/-- The places that a walk down the trail comes to, from the top of the trail on, each with the
    resolution so far; the next literal to look at is the one below the place. -/
inductive Visits (trail : Trail) (arena : Arena) (conflict : ClauseRef) (start : Resolution) :
    Nat → Resolution → Prop where
  | start : Visits trail arena conflict start trail.size start
  | skip {i : Nat} {r : Resolution} : Visits trail arena conflict start (i + 1) r →
      markOf r.marks (trail.litAt i).var = .unseen → Visits trail arena conflict start i r
  | resolve {i : Nat} {r : Resolution} {reason : ClauseRef} :
      Visits trail arena conflict start (i + 1) r →
      markOf r.marks (trail.litAt i).var ≠ .unseen → (reach trail r i).pending ≠ 0 →
      trail.reasonOf (trail.litAt i) = some reason →
      Visits trail arena conflict start i
        ((reach trail r i).addClause trail arena reason (reason == conflict))

/-- The walk goes on from every place it comes to. -/
theorem Visits.walk_eq (h : Visits trail arena conflict start i r) :
    walk trail arena conflict trail.size start = walk trail arena conflict i r := by
  induction h with
  | start => rfl
  | skip _ hmark ih => rw [ih, walk, if_pos hmark]
  | resolve _ hmark hpending hreason ih =>
    rw [ih, walk, if_neg hmark]
    simp only [hreason]
    rw [if_neg (show ¬ (_ - 1 = 0) from hpending)]
    rfl

/-- On every place of the walk paths are open. -/
theorem Visits.open (h : Visits p.trail p.arena conflict start i r) (hok : p.Ok lists)
    (hpos : 0 < p.trail.level) (hconflict : p.IsConflict conflict)
    (hstart : Open p p.trail.size start) : Open p i r := by
  induction h with
  | start => exact hstart
  | skip _ hmark ih => exact ih.skip hmark
  | resolve _ hmark hpending hreason ih =>
    obtain ⟨reason, hreason', hf⟩ := ih.exists_reason hok hpos hmark hpending
    obtain rfl := Option.some.inj (hreason'.symm.trans hreason)
    rw [ne_conflict_of_forces hok hconflict ih.1 hf]
    exact ih.resolve hok hmark hpending hf

/-- What the walk never does: it looks at no literal below the current level, and it meets no
    decision while other paths are open. -/
structure Walks (trail : Trail) (i : Nat) (r : Resolution) : Prop where
  onLevel : trail.bottom trail.level < i
  hasReason : ∀ k, i = k + 1 → markOf r.marks (trail.litAt k).var ≠ .unseen →
    (reach trail r k).pending ≠ 0 → trail.reasonOf (trail.litAt k) ≠ none

theorem Open.walks (h : Open p i r) (hok : p.Ok lists) (hpos : 0 < p.trail.level) :
    Walks p.trail i r := by
  refine ⟨h.bottom_lt hok.trail hpos, ?_⟩
  rintro k rfl hmark hpending
  obtain ⟨reason, hreason, -⟩ := h.exists_reason hok hpos hmark hpending
  rw [hreason]
  exact Option.some_ne_none reason

end Resolution

/-! ## Asserting lessons -/

namespace Lesson

variable {p : Propagator} {lesson : Lesson} {n : Nat}

/-- The literals of a lesson. -/
def lits : Lesson → Array Lit
  | .contradiction => #[]
  | .unit l => #[l]
  | .clause _ lits => lits

/-- The level to go back to; a single literal belongs to the ground level. -/
def level : Lesson → Nat
  | .contradiction => 0
  | .unit _ => 0
  | .clause level _ => level

/-- The lesson follows from the stored clauses and the ground literals; its literals are false, those
    after the first one on lower levels, and back on the level of the second one the first literal
    has no value while the others are still false. -/
structure Asserting (p : Propagator) (lesson : Lesson) : Prop where
  implied : ∀ α, p.Models α → ∃ l ∈ lesson.lits, l.Holds α
  isFalse : ∀ l ∈ lesson.lits, p.trail.isFalse l = true
  distinct : (lesson.lits.toList.map Lit.var).Nodup
  nonempty : 0 < lesson.lits.size
  current : ∀ (i : Nat) (hi : i < lesson.lits.size),
    p.trail.levelOf lesson.lits[i] = p.trail.level ↔ i = 0
  unit : lesson.lits.size = 1 → lesson.level = 0
  second : ∀ h : 1 < lesson.lits.size, p.trail.levelOf lesson.lits[1] = lesson.level
  highest : ∀ (i : Nat) (hi : i < lesson.lits.size), 0 < i →
    p.trail.levelOf lesson.lits[i] ≤ lesson.level
  lower : lesson.level < p.trail.level
  free : (p.trail.rewindTo lesson.level).1.isFree lesson.lits[0].var = true
  others : ∀ (i : Nat) (hi : i < lesson.lits.size), 0 < i →
    (p.trail.rewindTo lesson.level).1.isFalse lesson.lits[i] = true

/-- False literals of one variable are the same. -/
theorem nodup_map_var {t : Trail} (ht : t.Ok) {lits : List Lit} (hnodup : lits.Nodup)
    (hfalse : ∀ l ∈ lits, t.isFalse l = true) : (lits.map Lit.var).Nodup :=
  List.Nodup.map_on (fun _ hl _ hm hv => ht.eq_of_isFalse (hfalse _ hl) (hfalse _ hm) hv) hnodup

theorem asserting_unit {l : Lit} (h : (Lesson.unit l).Sound p) (ht : p.trail.Ok) :
    (Lesson.unit l).Asserting p := by
  obtain ⟨hpos, hfalse, hlevel, hholds⟩ := h
  have hzero : ∀ {i : Nat}, i < (Lesson.unit l).lits.size → i = 0 := fun hi => Nat.lt_one_iff.1 hi
  exact {
    implied := fun α hα => ⟨l, Array.mem_singleton.2 rfl, hholds α hα⟩
    isFalse := fun m hm => by
      rw [Array.mem_singleton.1 hm]
      exact hfalse
    distinct := List.nodup_singleton _
    nonempty := Nat.one_pos
    current := fun i hi => by
      obtain rfl := hzero hi
      exact iff_of_true hlevel rfl
    unit := fun _ => rfl
    second := fun h => absurd (hzero h) Nat.one_ne_zero
    highest := fun i hi hi0 => absurd (hzero hi) (Nat.ne_of_gt hi0)
    lower := hpos
    free := ht.isFree_rewindTo (Nat.lt_of_lt_of_eq hpos hlevel.symm)
    others := fun i hi hi0 => absurd (hzero hi) (Nat.ne_of_gt hi0) }

theorem asserting_clause {level : Nat} {lits : Array Lit} (h : (Lesson.clause level lits).Sound p)
    (ht : p.trail.Ok) : (Lesson.clause level lits).Asserting p := by
  obtain ⟨hlt, hsize, hnodup, hfalse, hfirst, hsecond, hothers, hholds⟩ := h
  have hget : ∀ (i : Nat) (hi : i < lits.size), lits.getD i default = lits[i] := fun i hi => by
    simp only [Array.getD, hi, dite_true]
    rfl
  rw [hget 0 (by omega)] at hfirst hothers
  rw [hget 1 (by omega)] at hsecond
  have hmem : ∀ (i : Nat) (hi : i < lits.size), lits[i] ∈ lits := fun i hi => Array.getElem_mem hi
  -- the places hold different literals
  have hne : ∀ (i : Nat) (hi : i < lits.size), 0 < i → lits[i] ≠ lits[0] := by
    intro i hi hi0 he
    have hi' : i < lits.toList.length := hi
    have hi0' : 0 < lits.toList.length := Nat.lt_of_le_of_lt (Nat.zero_le i) hi'
    have hsame : lits.toList[i] = lits.toList[0] := he
    exact Nat.ne_of_gt hi0 ((List.Nodup.getElem_inj_iff hnodup).1 hsame)
  have hlower : ∀ (i : Nat) (hi : i < lits.size), 0 < i → p.trail.levelOf lits[i] ≤ level :=
    fun i hi hi0 => hothers _ (hmem i hi) (hne i hi hi0)
  exact {
    implied := hholds
    isFalse := hfalse
    distinct := nodup_map_var ht hnodup fun l hl => hfalse l (Array.mem_toList_iff.1 hl)
    nonempty := Nat.lt_of_lt_of_le Nat.zero_lt_two hsize
    current := fun i hi => by
      constructor
      · intro he
        by_contra hi0
        have hle := hlower i hi (Nat.pos_of_ne_zero hi0)
        exact absurd hlt (Nat.not_lt.2 (Nat.le_trans (Nat.le_of_eq he.symm) hle))
      · rintro rfl
        exact hfirst
    unit := fun hone => by
      have hone' : lits.size = 1 := hone
      omega
    second := fun _ => hsecond
    highest := hlower
    lower := hlt
    free := ht.isFree_rewindTo (Nat.lt_of_lt_of_eq hlt hfirst.symm)
    others := fun i hi hi0 => ht.isFalse_rewindTo.2 ⟨hfalse _ (hmem i hi), hlower i hi hi0⟩ }

/-- **What analysis finds sound is asserting** above ground level. -/
theorem Sound.asserting (h : lesson.Sound p) (ht : p.trail.Ok) (hpos : 0 < p.trail.level) :
    lesson.Asserting p := by
  cases lesson with
  | contradiction => exact absurd hpos (Nat.not_lt.2 (Nat.le_of_eq h))
  | unit l => exact asserting_unit h ht
  | clause level lits => exact asserting_clause h ht

end Lesson

namespace Search

variable {s : Search} {n : Nat} {r : ClauseRef}

/-- The resolution with the literals of a conflict. -/
def resolutionOf (s : Search) (conflict : ClauseRef) : Resolution :=
  Resolution.addClause s.propagator.trail s.propagator.arena ⟨s.marks, #[], 0, #[], #[]⟩ conflict
    true

/-- **The lesson of every reachable conflict above ground level is asserting**, whichever way it is
    shortened, and the marks are clear afterwards.  The walk that finds it stays on the current level
    and meets no decision while other paths are open. -/
theorem analyze_asserts (h : Reachable n (.conflict r) s) (hpos : 0 < s.propagator.trail.level)
    (mode : Minimisation) :
    (analyze mode s.propagator.trail s.propagator.arena s.marks r).lesson.Asserting s.propagator ∧
    (analyze mode s.propagator.trail s.propagator.arena s.marks r).marks.Clear n ∧
    ∀ (i : Nat) (visited : Resolution),
      Resolution.Visits s.propagator.trail s.propagator.arena r (s.resolutionOf r) i visited →
      Resolution.walk s.propagator.trail s.propagator.arena r s.propagator.trail.size
          (s.resolutionOf r) =
        Resolution.walk s.propagator.trail s.propagator.arena r i visited ∧
      Resolution.Walks s.propagator.trail i visited := by
  have hok := h.ok
  have hmarks : s.marks.Clear s.propagator.trail.numVars := by
    rw [hok.numVars]
    exact hok.marks
  obtain ⟨hsound, hclear⟩ := analyze_spec hok.inOrder.ok h.isConflict hmarks mode
  rw [hok.numVars] at hclear
  have hstart := Resolution.open_of_conflict hok.inOrder.ok hpos h.isConflict hmarks.size
    hmarks.unseen
  refine ⟨hsound.asserting hok.inOrder.ok.trail hpos, hclear, fun i visited hvisits =>
    ⟨hvisits.walk_eq, ?_⟩⟩
  exact (hvisits.open hok.inOrder.ok hpos h.isConflict hstart).walks hok.inOrder.ok hpos

theorem analyze_asserts_cornered :
    Reachable 3 (.conflict ⟨1⟩) cornered.propagated ∧
      cornered.propagated.propagator.trail.level = 2 ∧
      (analyze .deep cornered.propagated.propagator.trail cornered.propagated.propagator.arena
        cornered.propagated.marks ⟨1⟩).lesson.lits = #[⟨3⟩, ⟨1⟩] ∧
      (analyze .deep cornered.propagated.propagator.trail cornered.propagated.propagator.arena
        cornered.propagated.marks ⟨1⟩).lesson.Asserting cornered.propagated.propagator := by
  have h : Reachable 3 (.conflict ⟨1⟩) cornered.propagated :=
    reachable_cornered.failed (by decide +kernel)
  exact ⟨h, by decide +kernel, by decide +kernel, (analyze_asserts h (by decide +kernel) .deep).1⟩

end Search

end ConfigSampler
