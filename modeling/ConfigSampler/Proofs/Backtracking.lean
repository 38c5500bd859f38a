import ConfigSampler.Proofs.Rewinding
import ConfigSampler.Proofs.UnitPropagation

/-!
# Going back to a lower level

On a lower level every false watched literal is guarded, since guards stand on the level of the
literal or below; so going back needs no propagation.
-/

set_option autoImplicit false

namespace ConfigSampler

namespace Trail

variable {t : Trail}

/-- Going back to a level that is not below the current one changes nothing. -/
theorem Ok.rewindTo_of_le (h : t.Ok) {target : Nat} (hle : t.level ≤ target) :
    t.rewindTo target = (t, #[]) := by
  have hmin : min t.queueHead t.lits.size = t.queueHead := Nat.min_eq_left h.queueHead_le
  unfold Trail.rewindTo
  rw [Nat.sub_eq_zero_of_le hle, dropLevels]
  simp only [hmin]

theorem Ok.bottom_rewindTo (h : t.Ok) {target k : Nat} (hk : k ≤ target) :
    (t.rewindTo target).1.bottom k = t.bottom k := by
  unfold bottom
  split
  · rfl
  · have hget := congrArg (fun l => l[k - 1]?) (cut_rewindTo h target).2.1
    simp only [Array.getElem?_toList, List.getElem?_take] at hget
    rw [if_pos (by omega)] at hget
    simp only [Array.getD_eq_getD_getElem?, hget]

theorem Ok.isFalse_rewindTo (h : t.Ok) {target : Nat} {l : Lit} :
    (t.rewindTo target).1.isFalse l = true ↔ t.isFalse l = true ∧ t.levelOf l ≤ target := by
  rw [(h.rewindTo target).isFalse_eq, h.isTrue_rewindTo, h.isFalse_iff, levelOf_negate]

/-- Going back below the level of a literal takes its value away. -/
theorem Ok.isFree_rewindTo (h : t.Ok) {target : Nat} {l : Lit} (hlevel : target < t.levelOf l) :
    (t.rewindTo target).1.isFree l.var = true := by
  rw [(h.rewindTo target).isFree_iff, ← Bool.not_eq_true, ← Bool.not_eq_true, h.isTrue_rewindTo,
    h.isFalse_rewindTo]
  omega

/-- The second trail goes back to a lower level of the first one and adds a literal there: one that
    a clause forces, or one that was learnt for good, on the ground level. -/
def Jumps (t u : Trail) : Prop :=
  ∃ target < t.level, ∃ l : Lit, ∃ reason : Option ClauseRef, l.var < t.numVars ∧
    (t.rewindTo target).1.isFree l.var = true ∧ (reason = none → target = 0) ∧
    u = (t.rewindTo target).1.assign l reason

theorem Jumps.level_lt {u : Trail} (h : Jumps t u) (ht : t.Ok) : u.level < t.level := by
  obtain ⟨target, hlt, l, reason, -, -, -, rfl⟩ := h
  rw [level_assign, ht.level_rewindTo (Nat.le_of_lt hlt)]
  exact hlt

end Trail

namespace Propagator

variable {p : Propagator} {r : ClauseRef} {w : Lit}

/-- The propagator with the levels above `target` undone. -/
def rewindTo (p : Propagator) (target : Nat) : Propagator :=
  { p with trail := (p.trail.rewindTo target).1 }

/-- On a lower level every false watched literal is guarded. -/
theorem InOrder.guarded_rewindTo (hp : p.InOrder) {target : Nat} (hlt : target < p.trail.level)
    (hr : p.arena.IsLive r) (hw : (p.arena.view r).IsWatched w)
    (hfalse : (p.trail.rewindTo target).1.isFalse w = true) : (p.rewindTo target).Guarded r w := by
  have ht := hp.ok.trail
  obtain ⟨hold, hlevel⟩ := ht.isFalse_rewindTo.1 hfalse
  obtain ⟨b, hb, htrue, hle⟩ := hp.ok.below r hr w hw hold (by omega)
  refine ⟨b, hb, ht.isTrue_rewindTo.2 ⟨(ht.isTrue_iff b).1 htrue, by omega⟩, ?_⟩
  show (p.trail.rewindTo target).1.levelOf b ≤ (p.trail.rewindTo target).1.levelOf w
  rw [ht.levelOf_rewindTo, ht.levelOf_rewindTo]
  exact hle

theorem InOrder.queueHead_rewindTo (hp : p.InOrder) {target : Nat} (hlt : target < p.trail.level) :
    (p.trail.rewindTo target).1.queueHead = (p.trail.rewindTo target).1.size := by
  have ht := hp.ok.trail
  rw [ht.queueHead_rewindTo]
  refine Nat.min_eq_right (Nat.le_of_not_lt fun hq => ?_)
  -- what is still in the queue belongs to the current level
  obtain ⟨hsize, hlevel⟩ := ht.lt_size_rewindTo.1 hq
  have := hp.ok.current _ (Nat.le_refl _) hsize
  omega

theorem InOrder.rewindTo_of_lt (hp : p.InOrder) {target : Nat} (hlt : target < p.trail.level) :
    (p.rewindTo target).InOrder := by
  have ht := hp.ok.trail
  have hok := hp.ok
  refine ⟨⟨ht.rewindTo target, fun r hr => ?_, ?_, ⟨hok.watched.live, hok.watched.mem_iff,
    hok.watched.nodup, fun l x hx => ?_⟩, fun i hi hpos => ?_, fun i hq hi => ?_,
    fun r hr w hw hfalse _ => hp.guarded_rewindTo hlt hr hw hfalse⟩, hp.fresh⟩
  · show (p.arena.view r).Ok (p.trail.rewindTo target).1.numVars
    rw [ht.numVars_rewindTo]
    exact hok.clause r hr
  · show p.watches.slots.size = 2 * (p.trail.rewindTo target).1.numVars
    rw [ht.numVars_rewindTo]
    exact hok.slots
  · refine (hok.watched.blocker l x hx).imp id fun ⟨hf, h0⟩ => ?_
    refine ⟨ht.isFalse_rewindTo.2 ⟨hf, by omega⟩, ?_⟩
    show (p.trail.rewindTo target).1.levelOf x.blocker = 0
    rw [ht.levelOf_rewindTo, h0]
  · have hi' : i < (p.trail.rewindTo target).1.size := hi
    obtain ⟨hsize, hle⟩ := ht.lt_size_rewindTo.1 hi'
    have hat : (p.rewindTo target).trail.litAt i = p.trail.litAt i := ht.litAt_rewindTo hi'
    have hlevel : (p.rewindTo target).trail.levelOf (p.trail.litAt i) =
        p.trail.levelOf (p.trail.litAt i) := ht.levelOf_rewindTo target _
    have hreason : (p.rewindTo target).trail.reasonOf (p.trail.litAt i) =
        p.trail.reasonOf (p.trail.litAt i) :=
      ht.reasonOf_rewindTo (ht.mem_rewindTo.2 ⟨Trail.litAt_mem hsize, hle⟩)
    rw [hat, hlevel] at hpos
    unfold Justified
    rw [hat, hlevel, hreason]
    rcases hok.reason i hsize hpos with ⟨hnone, hbottom⟩ | ⟨r, hr, hf⟩
    · exact .inl ⟨hnone, (ht.bottom_rewindTo hle).trans hbottom⟩
    · refine .inr ⟨r, hr, hf.live, hf.head.trans hat.symm, fun l hl hne => ?_⟩
      rw [hat] at hne
      obtain ⟨j, hj, he⟩ := hf.others l hl hne
      exact ⟨j, hj, (ht.litAt_rewindTo (Nat.lt_trans hj hi')).trans he⟩
  · have := hp.queueHead_rewindTo hlt
    have hq' : (p.trail.rewindTo target).1.queueHead ≤ i := hq
    have hi' : i < (p.trail.rewindTo target).1.size := hi
    omega

theorem InOrder.isSettled_rewindTo (hp : p.InOrder) {target : Nat} (hlt : target < p.trail.level) :
    (p.rewindTo target).IsSettled := fun _ hr _ hw hproc =>
  .inr (hp.guarded_rewindTo hlt hr hw (hproc.isFalse (hp.rewindTo_of_lt hlt).ok.trail))

theorem InOrder.rewindTo (hp : p.InOrder) (target : Nat) : (p.rewindTo target).InOrder := by
  rcases Nat.lt_or_ge target p.trail.level with hlt | hge
  · exact hp.rewindTo_of_lt hlt
  · unfold Propagator.rewindTo
    rw [hp.ok.trail.rewindTo_of_le hge]
    exact hp

end Propagator

end ConfigSampler
