import ConfigSampler.Proofs.ArenaClauses
import ConfigSampler.Proofs.TrailOrder
import ConfigSampler.Solver.Propagation
import Mathlib.Logic.Function.Basic

/-!
# The watching invariant

`Propagator.Ok` is the invariant of trail, arena and watch lists: every live clause is in the lists
of the complements of its first two literals, once in each, and in no other list; every literal
above ground level is a decision or stands first in a live clause whose other literals were false
before it; and a watched literal that became false on a lower level is *guarded*, that is, its
clause holds a literal that is true on the same level or below.

`Propagator.Settled` is the same guard for all literals that were taken from the queue.  A settled
propagator with an empty queue has neither a false nor a unit clause.
-/

set_option autoImplicit false

namespace ConfigSampler

namespace Trail

/-- The second trail continues the first one on the same levels. -/
structure Extends (t u : Trail) : Prop where
  numVars : u.numVars = t.numVars
  limits : u.limits = t.limits
  size_le : t.size ≤ u.size
  litAt : ∀ i < t.size, u.litAt i = t.litAt i
  levelOf : ∀ l ∈ t.lits, u.levelOf l = t.levelOf l
  reasonOf : ∀ l ∈ t.lits, u.reasonOf l = t.reasonOf l

namespace Extends

variable {t u w : Trail} {l : Lit}

theorem refl (t : Trail) : Extends t t :=
  ⟨rfl, rfl, Nat.le_refl _, fun _ _ => rfl, fun _ _ => rfl, fun _ _ => rfl⟩

theorem mem (h : Extends t u) (hl : l ∈ t.lits) : l ∈ u.lits := by
  obtain ⟨i, hi, rfl⟩ := exists_litAt hl
  rw [← h.litAt i hi]
  exact litAt_mem (Nat.lt_of_lt_of_le hi h.size_le)

theorem level (h : Extends t u) : u.level = t.level := by simp only [Trail.level, h.limits]

theorem trans (h : Extends t u) (h' : Extends u w) : Extends t w where
  numVars := h'.numVars.trans h.numVars
  limits := h'.limits.trans h.limits
  size_le := Nat.le_trans h.size_le h'.size_le
  litAt i hi := by rw [h'.litAt i (Nat.lt_of_lt_of_le hi h.size_le), h.litAt i hi]
  levelOf l hl := by rw [h'.levelOf l (h.mem hl), h.levelOf l hl]
  reasonOf l hl := by rw [h'.reasonOf l (h.mem hl), h.reasonOf l hl]

theorem isTrue (h : Extends t u) (ht : t.Ok) (hu : u.Ok) (hl : t.isTrue l = true) :
    u.isTrue l = true := (hu.isTrue_iff l).2 (h.mem ((ht.isTrue_iff l).1 hl))

theorem isFalse (h : Extends t u) (ht : t.Ok) (hu : u.Ok) (hl : t.isFalse l = true) :
    u.isFalse l = true := by
  rw [ht.isFalse_eq] at hl
  rw [hu.isFalse_eq]
  exact h.isTrue ht hu hl

theorem levelOf_of_isFalse (h : Extends t u) (ht : t.Ok) (hl : t.isFalse l = true) :
    u.levelOf l = t.levelOf l := by
  rw [← levelOf_negate, ← levelOf_negate t]
  exact h.levelOf _ ((ht.isFalse_iff l).1 hl)

theorem assign (ht : t.Ok) (hf : t.isFree l.var = true) (reason : Option ClauseRef) :
    Extends t (t.assign l reason) where
  numVars := numVars_assign t l reason
  limits := rfl
  size_le := by rw [size_assign]; exact Nat.le_succ _
  litAt i hi := litAt_assign_of_lt reason hi
  levelOf m hm := levelOf_assign_of_ne reason (ht.var_ne_of_isFree hf hm)
  reasonOf m hm := reasonOf_assign_of_ne reason (ht.var_ne_of_isFree hf hm)

end Extends

end Trail

namespace Propagator

variable {p q : Propagator} {lists lists' : Lit → List Watcher} {r : ClauseRef} {l w : Lit}

/-- The clause forces the literal at place `i` of the trail: it stands first in the clause, and the
    other literals were false before. -/
structure Forces (p : Propagator) (r : ClauseRef) (i : Nat) : Prop where
  live : p.arena.IsLive r
  head : (p.arena.view r).head = p.trail.litAt i
  others : ∀ l ∈ (p.arena.view r).lits, l ≠ p.trail.litAt i → ∃ j < i, p.trail.litAt j = l.negate

/-- The literal at place `i` is the decision of its level, or the clause named as its reason forces
    it. -/
def Justified (p : Propagator) (i : Nat) : Prop :=
  (p.trail.reasonOf (p.trail.litAt i) = none ∧
    p.trail.bottom (p.trail.levelOf (p.trail.litAt i)) = i) ∨
  ∃ r, p.trail.reasonOf (p.trail.litAt i) = some r ∧ p.Forces r i

/-- Some literal of the clause is true on the level of `w` or below. -/
def Guarded (p : Propagator) (r : ClauseRef) (w : Lit) : Prop :=
  ∃ b ∈ (p.arena.view r).lits, p.trail.isTrue b = true ∧ p.trail.levelOf b ≤ p.trail.levelOf w

/-- The literal was taken from the queue. -/
def Processed (p : Propagator) (l : Lit) : Prop := ∃ i < p.trail.queueHead, p.trail.litAt i = l

/-- The live clauses are listed under the complements of their first two literals. -/
structure Watched (lists : Lit → List Watcher) (p : Propagator) : Prop where
  live : ∀ l, ∀ x ∈ lists l, p.arena.IsLive x.clause
  mem_iff : ∀ r, p.arena.IsLive r → ∀ l,
    (∃ x ∈ lists l, x.clause = r) ↔ (p.arena.view r).IsWatched l.negate
  nodup : ∀ l, ((lists l).map Watcher.clause).Nodup
  blocker : ∀ l, ∀ x ∈ lists l, x.blocker ∈ (p.arena.view x.clause).lits ∨
    (p.trail.isFalse x.blocker = true ∧ p.trail.levelOf x.blocker = 0)

/-- The invariant, for given watch lists. -/
structure Ok (lists : Lit → List Watcher) (p : Propagator) : Prop where
  trail : p.trail.Ok
  clause : ∀ r, p.arena.IsLive r → (p.arena.view r).Ok p.trail.numVars
  slots : p.watches.slots.size = 2 * p.trail.numVars
  watched : Watched lists p
  reason : ∀ i < p.trail.size, 0 < p.trail.levelOf (p.trail.litAt i) → p.Justified i
  current : ∀ i, p.trail.queueHead ≤ i → i < p.trail.size →
    p.trail.levelOf (p.trail.litAt i) = p.trail.level
  below : ∀ r, p.arena.IsLive r → ∀ w, (p.arena.view r).IsWatched w → p.trail.isFalse w = true →
    p.trail.levelOf w < p.trail.level → p.Guarded r w

/-- Every watched literal that was found false is guarded, except where `pending` says so. -/
def Settled (pending : ClauseRef → Lit → Prop) (p : Propagator) : Prop :=
  ∀ r, p.arena.IsLive r → ∀ w, (p.arena.view r).IsWatched w → p.Processed w.negate →
    pending r w ∨ p.Guarded r w

/-- All literals of the clause are false, one of them on the current level. -/
structure IsConflict (p : Propagator) (r : ClauseRef) : Prop where
  live : p.arena.IsLive r
  isFalse : ∀ l ∈ (p.arena.view r).lits, p.trail.isFalse l = true
  current : ∃ l ∈ (p.arena.view r).lits, p.trail.levelOf l = p.trail.level

/-- What propagation does: it appends forced literals and reorders literals of clauses, but leaves a
    true literal first where it is. -/
structure Grows (p q : Propagator) : Prop where
  trail : p.trail.Extends q.trail
  arena : p.arena.Alike q.arena
  head : ∀ r, p.trail.isTrue (p.arena.view r).head = true →
    (q.arena.view r).head = (p.arena.view r).head
  forced : ∀ i, p.trail.size ≤ i → i < q.trail.size →
    ∃ r, q.trail.reasonOf (q.trail.litAt i) = some r ∧ q.Forces r i

theorem Processed.isFalse (ht : p.trail.Ok) (h : p.Processed w.negate) :
    p.trail.isFalse w = true := by
  obtain ⟨i, hi, he⟩ := h
  rw [ht.isFalse_iff, ← he]
  exact Trail.litAt_mem (Nat.lt_of_lt_of_le hi ht.queueHead_le)

theorem Guarded.of_alike {a : Arena} (ha : p.arena.Alike a) (h : p.Guarded r w) :
    Guarded { p with arena := a } r w := by
  obtain ⟨b, hb, htrue, hlevel⟩ := h
  exact ⟨b, (ha.clause r).mem_iff.2 hb, htrue, hlevel⟩

theorem Forces.of_alike {a : Arena} {i : Nat} (ht : p.trail.Ok) (hi : i < p.trail.size)
    (ha : p.arena.Alike a)
    (hhead : ∀ r, p.trail.isTrue (p.arena.view r).head = true →
      (a.view r).head = (p.arena.view r).head)
    (h : p.Forces r i) : Forces { p with arena := a } r i where
  live := ha.isLive_iff.2 h.live
  head := (hhead r (by rw [h.head]; exact ht.isTrue_litAt hi)).trans h.head
  others l hl hne := h.others l ((ha.clause r).mem_iff.1 hl) hne

theorem Grows.refl (p : Propagator) : Grows p p :=
  ⟨.refl _, .refl _, fun _ _ => rfl, fun i h h' => by omega⟩

theorem Forces.grows {i : Nat} (ht : p.trail.Ok) (hi : i < p.trail.size) (h : p.Forces r i)
    (hg : Grows p q) : q.Forces r i where
  live := hg.arena.isLive_iff.2 h.live
  head := by
    rw [hg.head r (by rw [h.head]; exact ht.isTrue_litAt hi), h.head, hg.trail.litAt i hi]
  others l hl hne := by
    rw [hg.trail.litAt i hi] at hne
    obtain ⟨j, hj, he⟩ := h.others l ((hg.arena.clause r).mem_iff.1 hl) hne
    exact ⟨j, hj, by rw [hg.trail.litAt j (by omega), he]⟩

theorem Grows.trans {q' : Propagator} (ht : p.trail.Ok) (hq : q.trail.Ok) (h : Grows p q)
    (h' : Grows q q') : Grows p q' where
  trail := h.trail.trans h'.trail
  arena := h.arena.trans h'.arena
  head r hr := by
    have hhead := h.head r hr
    rw [h'.head r (by rw [hhead]; exact h.trail.isTrue ht hq hr), hhead]
  forced i hi hi' := by
    by_cases hlt : i < q.trail.size
    · obtain ⟨r, hr, hf⟩ := h.forced i hi hlt
      refine ⟨r, ?_, hf.grows hq hlt h'⟩
      rw [h'.trail.litAt i hlt, h'.trail.reasonOf _ (Trail.litAt_mem hlt), hr]
    · exact h'.forced i (by omega) hi'

namespace Ok

/-- The invariant survives a reordering of literals that leaves true heads in place and puts only
    literals that are not false among the watched ones. -/
theorem rearrange (h : Ok lists p) {a : Arena} {watches : WatchTable} (ha : p.arena.Alike a)
    (hhead : ∀ r, p.trail.isTrue (p.arena.view r).head = true →
      (a.view r).head = (p.arena.view r).head)
    (hnew : ∀ r w, (a.view r).IsWatched w →
      (p.arena.view r).IsWatched w ∨ p.trail.isFalse w = false)
    (hslots : watches.slots.size = p.watches.slots.size)
    (hw : Watched lists' { p with arena := a, watches := watches }) :
    Ok lists' { p with arena := a, watches := watches } where
  trail := h.trail
  clause r hr := (ha.clause r).ok (h.clause r (ha.isLive_iff.1 hr))
  slots := hslots.trans h.slots
  watched := hw
  reason i hi hlevel := (h.reason i hi hlevel).imp id fun ⟨r, hr, hf⟩ =>
    have hf' := hf.of_alike h.trail hi ha hhead
    ⟨r, hr, ⟨hf'.live, hf'.head, hf'.others⟩⟩
  current := h.current
  below r hr w hw hfalse hlevel := by
    rcases hnew r w hw with hold | hnot
    · exact ((h.below r (ha.isLive_iff.1 hr) w hold hfalse hlevel).of_alike ha : Guarded
        { p with arena := a } r w)
    · exact absurd hfalse (by simp [show p.trail.isFalse w = false from hnot])

end Ok

theorem Settled.rearrange {pending : ClauseRef → Lit → Prop} (ht : p.trail.Ok)
    (h : Settled pending p) {a : Arena} (watches : WatchTable) (ha : p.arena.Alike a)
    (hnew : ∀ r w, (a.view r).IsWatched w →
      (p.arena.view r).IsWatched w ∨ p.trail.isFalse w = false) :
    Settled pending { p with arena := a, watches := watches } := by
  intro r hr w hw hproc
  rcases hnew r w hw with hold | hnot
  · exact (h r (ha.isLive_iff.1 hr) w hold hproc).imp id fun hg =>
      (hg.of_alike ha : Guarded { p with arena := a } r w)
  · have := Processed.isFalse (p := p) ht hproc
    simp [hnot] at this

end Propagator

end ConfigSampler
