import ConfigSampler.Proofs.Rewinding
import ConfigSampler.Solver.Propagation

/-!
# Reasons of variables without a value

A variable gets a reason with its value and loses it with its value, so a variable without a value
has none (`Trail.Tied`).  Propagation changes the trail by assignments and by moving the head of the
queue only, so whatever both keep is kept by it (`Propagator.propagate_keeps`).
-/

set_option autoImplicit false

namespace ConfigSampler

namespace Trail

variable {t u : Trail} {l : Lit}

/-- Variables without a value have no reason. -/
structure Tied (t : Trail) : Prop where
  size : t.reasons.size = t.values.size
  reasonOf : ∀ l, t.isFree l.var = true → t.reasonOf l = none

theorem tied_empty : Tied empty := ⟨rfl, fun _ _ => rfl⟩

/-- Levels and the queue play no part in it. -/
theorem Tied.congr (h : t.Tied) (hvalues : u.values = t.values) (hreasons : u.reasons = t.reasons) :
    u.Tied where
  size := by rw [hvalues, hreasons]; exact h.size
  reasonOf l hl := by
    rw [isFree, valuesOf, hvalues] at hl
    rw [Trail.reasonOf, hreasons]
    exact h.reasonOf l hl

theorem Tied.newVar (h : t.Tied) : t.newVar.Tied where
  size := by simp [Trail.newVar, h.size]
  reasonOf l hl := by
    have hold := h.reasonOf l
    simp only [isFree, valuesOf, Trail.reasonOf, Trail.newVar, Array.getD_eq_getD_getElem?,
      Array.getElem?_push, h.size] at hl hold ⊢
    split
    · rfl
    · rename_i hne
      rw [if_neg hne] at hl
      exact hold hl

theorem Tied.newLevel (h : t.Tied) : t.newLevel.Tied := h.congr rfl rfl

theorem Tied.assign (h : t.Tied) (l : Lit) (reason : Option ClauseRef) :
    (t.assign l reason).Tied where
  size := by simp [Trail.assign, h.size]
  reasonOf m hm := by
    have hold := h.reasonOf m
    simp only [isFree, valuesOf, Trail.reasonOf, Trail.assign, Array.getD_eq_getD_getElem?,
      Array.getElem?_setIfInBounds, h.size, beq_iff_eq] at hm hold ⊢
    split
    · rename_i hv
      split
      · rename_i hlt
        rw [if_pos hv, if_pos hlt] at hm
        cases hn : l.negated <;> simp [hn, LitValues.set] at hm
      · rfl
    · rename_i hv
      rw [if_neg hv] at hm
      exact hold hm

theorem Tied.rewindTo (h : t.Tied) (ht : t.Ok) (target : Nat) : (t.rewindTo target).1.Tied := by
  obtain ⟨hcut, -⟩ := cut_rewindTo ht target
  refine ⟨?_, fun l hl => ?_⟩
  · rw [hcut.reasons_size, h.size]
    exact hcut.numVars.symm
  · rw [hcut.reasonOf]
    split
    · rfl
    · rename_i hkept
      rw [isFree, hcut.valuesOf, if_neg hkept] at hl
      exact h.reasonOf l hl

/-- A variable that is not on the trail has no value. -/
theorem Ok.isFree_of_notMem (ht : t.Ok) (hl : l.var ∉ t.lits.toList.map Lit.var) :
    t.isFree l.var = true := by
  have hoff : ∀ m, m.var = l.var → t.isTrue m = false := by
    intro m hm
    by_contra htrue
    have hmem := (ht.isTrue_iff m).1 (by simpa using htrue)
    exact hl (List.mem_map.2 ⟨m, Array.mem_toList_iff.2 hmem, hm⟩)
  rw [ht.isFree_iff, ht.isFalse_eq]
  exact ⟨hoff l rfl, hoff l.negate (Lit.var_negate l)⟩

end Trail

namespace Propagator

variable {P : Trail → Prop}

theorem trail_pullOpen (p : Propagator) (r : ClauseRef) : (p.pullOpen r).2.trail = p.trail := by
  unfold pullOpen
  split <;> rfl

/-- What assignments and moves of the queue keep is kept by going through watchers. -/
theorem sweep_keeps (hassign : ∀ t l reason, P t → P (t.assign l reason))
    (hqueue : ∀ t n, P t → P { t with queueHead := n }) (falseLit : Lit) :
    ∀ (rest : List Watcher) (kept : Array Watcher) (p : Propagator), P p.trail →
      P (sweep falseLit rest kept p).2.2.trail
  | [], _, _, h => h
  | x :: rest, kept, p, h => by
    have hface : P (p.faceAway x.clause falseLit).trail := by
      unfold faceAway
      split <;> exact h
    unfold sweep
    dsimp only
    split
    · exact sweep_keeps hassign hqueue falseLit rest _ p h
    · split
      · exact sweep_keeps hassign hqueue falseLit rest _ _ hface
      · have hpull := trail_pullOpen (p.faceAway x.clause falseLit) x.clause
        split <;> rename_i he <;> rw [he] at hpull
        · exact sweep_keeps hassign hqueue falseLit rest _ _ (hpull ▸ hface)
        · rw [← hpull] at hface
          split
          · exact hqueue _ _ hface
          · exact sweep_keeps hassign hqueue falseLit rest _ _ (hassign _ _ _ hface)

theorem propagateUpTo_keeps (hassign : ∀ t l reason, P t → P (t.assign l reason))
    (hqueue : ∀ t n, P t → P { t with queueHead := n }) :
    ∀ (n : Nat) (conflict : Option ClauseRef) (p : Propagator), P p.trail →
      P (propagateUpTo n conflict p).2.trail
  | 0, _, _, h => h
  | n + 1, conflict, p, h => by
    unfold propagateUpTo Trail.dequeue
    split
    · exact h
    · rename_i l trail hdequeue
      split at hdequeue
      · cases hdequeue
        refine propagateUpTo_keeps hassign hqueue n _ _ ?_
        exact sweep_keeps hassign hqueue _ _ _ _ (hqueue _ _ h)
      · cases hdequeue

/-- **Propagation keeps what assignments and moves of the queue keep.** -/
theorem propagate_keeps (hassign : ∀ t l reason, P t → P (t.assign l reason))
    (hqueue : ∀ t n, P t → P { t with queueHead := n }) {p : Propagator} (h : P p.trail) :
    P p.propagate.2.trail :=
  propagateUpTo_keeps hassign hqueue _ _ _ h

theorem tied_propagate {p : Propagator} (h : p.trail.Tied) : p.propagate.2.trail.Tied :=
  propagate_keeps (fun _ l reason ht => ht.assign l reason) (fun _ _ ht => ht.congr rfl rfl) h

end Propagator

end ConfigSampler
