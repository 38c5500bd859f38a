import ConfigSampler.Proofs.TrailReasons
import Mathlib.Data.List.Induction

/-!
# Undoing changes of the trail

A trail is changed by new variables, new levels, assignments, the queue, and by going back
(`Trail.Change`).  After any history of changes its tables describe its literals
(`Trail.Consistent`), and every literal has the level and the reason of its assignment
(`Trail.Entered`).

While a level that was opened on a trail `t` stays open, the changes leave everything below it as it
is (`Trail.StandsOn`).  So going back to the level of `t` gives `t` again, and hands over the literals
that go, newest first, each with its level (`Trail.Restores`).

Principal result: `Trail.undoes_exactly`.
-/

set_option autoImplicit false

namespace ConfigSampler

namespace Trail

/-! ## Changes -/

/-- A change of a trail. -/
inductive Change where
  | newVar
  | newLevel
  | assign (l : Lit) (reason : Option ClauseRef)
  | dequeue
  | dequeueAll
  | rewindTo (target : Nat)

/-- Only variables without a value are assigned. -/
def Admits (t : Trail) : Change → Prop
  | .assign l _ => l.var < t.numVars ∧ t.isFree l.var = true
  | _ => True

instance (t : Trail) (c : Change) : Decidable (t.Admits c) :=
  match c with
  | .assign l _ => inferInstanceAs (Decidable (l.var < t.numVars ∧ t.isFree l.var = true))
  | .newVar | .newLevel | .dequeue | .dequeueAll | .rewindTo _ => .isTrue trivial

/-- The trail after a change. -/
def apply (t : Trail) : Change → Trail
  | .newVar => t.newVar
  | .newLevel => t.newLevel
  | .assign l reason => t.assign l reason
  | .dequeue =>
    match t.dequeue with
    | some (_, u) => u
    | none => t
  | .dequeueAll => t.dequeueAll
  | .rewindTo target => (t.rewindTo target).1

/-- The trail after changes, in order. -/
def after (t : Trail) (changes : List Change) : Trail := changes.foldl apply t

/-- Every change is admitted in its turn, and none leads below the level `least`. -/
def Allows (least : Nat) (t : Trail) : List Change → Prop
  | [] => True
  | c :: rest => t.Admits c ∧ least ≤ (t.apply c).level ∧ Allows least (t.apply c) rest

instance (least : Nat) : ∀ (changes : List Change) (t : Trail), Decidable (t.Allows least changes)
  | [], _ => .isTrue trivial
  | c :: rest, t =>
    have := instDecidableAllows least rest (t.apply c)
    inferInstanceAs (Decidable (t.Admits c ∧ least ≤ (t.apply c).level ∧ Allows least (t.apply c) rest))

variable {t u : Trail} {l : Lit} {c : Change} {least : Nat} {history later : List Change}

theorem after_concat (t : Trail) (changes : List Change) (c : Change) :
    t.after (changes ++ [c]) = (t.after changes).apply c := by
  simp [after]

theorem allows_concat : t.Allows least (history ++ [c]) ↔
    t.Allows least history ∧ (t.after history).Admits c ∧ least ≤ (t.after (history ++ [c])).level := by
  induction history generalizing t with
  | nil => simp [Allows, after]
  | cons d rest ih =>
    rw [List.cons_append, Allows, Allows, ih]
    simp only [after, List.foldl_cons, and_assoc]

/-! ## What a change keeps -/

/-- Taking a literal from the queue moves the head of the queue only. -/
theorem Ok.apply_dequeue (h : t.Ok) :
    ∃ q ≤ t.size, t.apply .dequeue = { t with queueHead := q } := by
  simp only [Trail.apply]
  split
  · rename_i l u hd
    obtain ⟨hlt, -, rfl⟩ := dequeue_eq_some hd
    exact ⟨_, hlt, rfl⟩
  · exact ⟨_, h.queueHead_le, rfl⟩

theorem Ok.apply (h : t.Ok) (hc : t.Admits c) : (t.apply c).Ok := by
  cases c with
  | newVar => exact h.newVar
  | newLevel => exact h.newLevel
  | assign l reason => exact h.assign hc.1 hc.2 reason
  | dequeue =>
    obtain ⟨q, hq, he⟩ := h.apply_dequeue
    exact he ▸ h.withQueueHead hq
  | dequeueAll => exact h.withQueueHead (Nat.le_refl _)
  | rewindTo target => exact h.rewindTo target

theorem Tied.apply (h : t.Tied) (ht : t.Ok) (c : Change) : (t.apply c).Tied := by
  cases c with
  | newVar => exact h.newVar
  | newLevel => exact h.newLevel
  | assign l reason => exact h.assign l reason
  | dequeue =>
    obtain ⟨q, -, he⟩ := ht.apply_dequeue
    exact he ▸ h.congr rfl rfl
  | dequeueAll => exact h.congr rfl rfl
  | rewindTo target => exact h.rewindTo ht target

theorem ok_after (ht : t.Ok) (htied : t.Tied) (h : t.Allows least history) :
    (t.after history).Ok ∧ (t.after history).Tied := by
  induction history generalizing t with
  | nil => exact ⟨ht, htied⟩
  | cons c rest ih =>
    obtain ⟨hc, -, hrest⟩ := h
    exact ih (ht.apply hc) (htied.apply ht c) hrest

theorem levelOf_newVar (h : l.var < t.levels.size) : t.newVar.levelOf l = t.levelOf l := by
  simp only [levelOf, newVar, Array.getD_eq_getD_getElem?, Array.getElem?_push_lt h,
    Array.getElem?_eq_getElem h]

theorem reasonOf_newVar (h : l.var < t.reasons.size) : t.newVar.reasonOf l = t.reasonOf l := by
  simp only [reasonOf, newVar, Array.getD_eq_getD_getElem?, Array.getElem?_push_lt h,
    Array.getElem?_eq_getElem h]

/-- A literal that is on the trail after a change was there before, with the same level and reason,
    or the change has just put it there. -/
theorem Ok.entry_apply (h : t.Ok) (hc : t.Admits c) (hl : l ∈ (t.apply c).lits) :
    (l ∈ t.lits ∧ (t.apply c).levelOf l = t.levelOf l ∧ (t.apply c).reasonOf l = t.reasonOf l) ∨
    ∃ reason, c = .assign l reason ∧ (t.apply c).levelOf l = t.level ∧
      (t.apply c).reasonOf l = reason := by
  cases c with
  | newVar =>
    have hvar := h.var_lt l hl
    exact .inl ⟨hl, levelOf_newVar (h.levels_size ▸ hvar), reasonOf_newVar (h.reasons_size ▸ hvar)⟩
  | newLevel => exact .inl ⟨hl, rfl, rfl⟩
  | assign m reason =>
    obtain ⟨hm, hfree⟩ := hc
    rcases mem_assign.1 hl with hold | rfl
    · have hne := h.var_ne_of_isFree hfree hold
      exact .inl ⟨hold, levelOf_assign_of_ne reason hne, reasonOf_assign_of_ne reason hne⟩
    · exact .inr ⟨reason, rfl, h.levelOf_assign hm reason, h.reasonOf_assign hm reason⟩
  | dequeue =>
    obtain ⟨q, -, he⟩ := h.apply_dequeue
    rw [he] at hl ⊢
    exact .inl ⟨hl, rfl, rfl⟩
  | dequeueAll => exact .inl ⟨hl, rfl, rfl⟩
  | rewindTo target =>
    exact .inl ⟨(h.mem_rewindTo.1 hl).1, h.levelOf_rewindTo target l, h.reasonOf_rewindTo hl⟩

/-! ## Levels as pieces of the trail -/

theorem bottom_succ {k : Nat} (hk : k < t.level) : t.bottom (k + 1) = t.top k := by
  have hk' : k < t.limits.size := hk
  simp [bottom, top, Array.getD_eq_getD_getElem?, hk']

theorem Ok.top_mono (h : t.Ok) {j k : Nat} (hjk : j ≤ k) : t.top j ≤ t.top k := by
  rcases Nat.lt_or_ge k t.level with hlt | hge
  · exact Trail.top_mono h.limits_sorted hjk hlt
  · rw [top_of_level_le hge]
    exact h.top_le_size j

/-- The places of a level are those from its bottom to its top. -/
theorem Ok.levelAt_eq_iff (h : t.Ok) {i k : Nat} (hk : k ≤ t.level) (hi : i < t.size) :
    t.levelAt i = k ↔ t.bottom k ≤ i ∧ i < t.top k := by
  rw [h.lt_top_iff hi]
  cases k with
  | zero => simp [bottom]
  | succ k =>
    rw [bottom_succ hk, ← Nat.not_lt, h.lt_top_iff hi]
    omega

/-- The literals of a level are those that were put on the trail at this level. -/
theorem Ok.mem_segment (h : t.Ok) {k : Nat} (hk : k ≤ t.level) :
    l ∈ t.segment k ↔ l ∈ t.lits ∧ t.levelOf l = k := by
  have htop := h.top_le_size k
  simp only [segment, List.mem_iff_getElem, List.length_drop, List.length_take,
    Array.length_toList, List.getElem_drop, List.getElem_take]
  constructor
  · rintro ⟨j, hj, rfl⟩
    have hi : t.bottom k + j < t.size := by simp only [size]; omega
    rw [← litAt_eq (lt_length_lits hi), h.levelOf_litAt _ hi, h.levelAt_eq_iff hk hi]
    exact ⟨litAt_mem hi, by omega, by omega⟩
  · rintro ⟨hl, hlevel⟩
    obtain ⟨i, hi, rfl⟩ := exists_litAt hl
    rw [h.levelOf_litAt i hi, h.levelAt_eq_iff hk hi] at hlevel
    have hi' : i < t.lits.size := hi
    refine ⟨i - t.bottom k, by omega, ?_⟩
    rw [litAt_eq (lt_length_lits hi)]
    congr 1
    omega

/-! ## Consistent trails -/

/-- The tables of the trail describe its literals: they and no others are true, their complements are
    false, both literals of any other variable are without a value, no variable is there twice, and
    the level of each is the piece of the trail that holds it. -/
structure Consistent (t : Trail) : Prop where
  isTrue_iff : ∀ l, t.isTrue l = true ↔ l ∈ t.lits
  isFalse_negate : ∀ l, t.isTrue l = true → t.isFalse l.negate = true
  value_eq_unset : ∀ l, l ∉ t.lits → l.negate ∉ t.lits → t.value l = .unset
  nodup : (t.lits.toList.map Lit.var).Nodup
  levelOf_le : ∀ l ∈ t.lits, t.levelOf l ≤ t.level
  mem_segment : ∀ k ≤ t.level, ∀ l, l ∈ t.segment k ↔ l ∈ t.lits ∧ t.levelOf l = k
  queueHead_le : t.queueHead ≤ t.size

theorem Ok.consistent (h : t.Ok) : t.Consistent where
  isTrue_iff := h.isTrue_iff
  isFalse_negate l hl := by rwa [h.isFalse_eq, Lit.negate_negate]
  value_eq_unset l hl hneg := by
    rw [← h.isTrue_iff, isTrue] at hl
    rw [← h.isFalse_iff, isFalse] at hneg
    cases hv : t.value l <;> simp_all
  nodup := h.nodup
  levelOf_le _ hl := h.levelOf_le hl
  mem_segment _ hk _ := h.mem_segment hk
  queueHead_le := h.queueHead_le

/-- One of the changes put the literal on the trail, where it has been since; its level and its reason
    are those of then. -/
def Entered (t : Trail) (history : List Change) (l : Lit) : Prop :=
  ∃ before reason later, history = before ++ .assign l reason :: later ∧
    (t.after history).levelOf l = (t.after before).level ∧
    (t.after history).reasonOf l = reason ∧
    ∀ n ≤ later.length, l ∈ (t.after (before ++ .assign l reason :: later.take n)).lits

theorem entered_after (ht : t.Ok) (htied : t.Tied) (hnone : t.size = 0)
    (h : t.Allows least history) (hl : l ∈ (t.after history).lits) : t.Entered history l := by
  induction history using List.reverseRecOn with
  | nil =>
    have hsize : t.lits.size = 0 := hnone
    simp [after, Array.eq_empty_of_size_eq_zero hsize] at hl
  | append_singleton history c ih =>
    obtain ⟨hbefore, hc, -⟩ := allows_concat.1 h
    have hok := (ok_after ht htied hbefore).1
    have hlast := hl
    rw [after_concat] at hl
    rcases hok.entry_apply hc hl with ⟨hold, hlevel, hreason⟩ | ⟨reason, rfl, hlevel, hreason⟩
    · obtain ⟨before, reason, later, rfl, hl₀, hr₀, hstays⟩ := ih hbefore hold
      refine ⟨before, reason, later ++ [c], by simp, ?_, ?_, fun n hn => ?_⟩
      · rw [after_concat, hlevel, hl₀]
      · rw [after_concat, hreason, hr₀]
      · rw [List.length_append, List.length_singleton] at hn
        rcases Nat.lt_or_eq_of_le hn with hlt | rfl
        · rw [List.take_append_of_le_length (Nat.le_of_lt_succ hlt)]
          exact hstays n (Nat.le_of_lt_succ hlt)
        · rw [List.take_of_length_le (by simp)]
          simpa using hlast
    · refine ⟨history, reason, [], rfl, ?_, ?_, fun n _ => by simpa using hlast⟩
      · rw [after_concat, hlevel]
      · rw [after_concat, hreason]

/-! ## Trails over another one -/

/-- A level was opened on `t`, and the trail `u` has left everything below it as it was. -/
structure StandsOn (u t : Trail) : Prop where
  lits : t.lits.toList <+: u.lits.toList
  limits : t.limits.toList ++ [t.size] <+: u.limits.toList
  levelOf : ∀ l ∈ t.lits, u.levelOf l = t.levelOf l
  reasonOf : ∀ l ∈ t.lits, u.reasonOf l = t.reasonOf l

namespace StandsOn

theorem newLevel (t : Trail) : t.newLevel.StandsOn t where
  lits := List.prefix_rfl
  limits := by simp [Trail.newLevel, size]
  levelOf _ _ := rfl
  reasonOf _ _ := rfl

theorem level_lt (h : u.StandsOn t) : t.level < u.level := by
  have := h.limits.length_le
  simp only [List.length_append, Array.length_toList, List.length_singleton, level] at *
  omega

/-- The levels above that of `t` start where `t` ends. -/
theorem top_level (h : u.StandsOn t) : u.top t.level = t.size := by
  have hlen := lt_length_limits h.level_lt
  rw [top_of_lt hlen, ← h.limits.getElem (by simp [level])]
  simp [level]

/-- A change that does not leave the levels above `t` leaves everything below them as it is. -/
theorem apply (h : u.StandsOn t) (hu : u.Ok) (hc : u.Admits c)
    (hlevel : t.level + 1 ≤ (u.apply c).level) : (u.apply c).StandsOn t := by
  have hlists : t.lits.toList <+: (u.apply c).lits.toList ∧
      t.limits.toList ++ [t.size] <+: (u.apply c).limits.toList := by
    cases c with
    | newVar => exact ⟨h.lits, h.limits⟩
    | newLevel =>
      refine ⟨h.lits, h.limits.trans ?_⟩
      simp [Trail.apply, Trail.newLevel]
    | assign l reason =>
      refine ⟨h.lits.trans ?_, h.limits⟩
      simp [Trail.apply, Trail.assign]
    | dequeue =>
      obtain ⟨q, -, he⟩ := hu.apply_dequeue
      rw [he]
      exact ⟨h.lits, h.limits⟩
    | dequeueAll => exact ⟨h.lits, h.limits⟩
    | rewindTo target =>
      obtain ⟨hcut, hlimits, -⟩ := cut_rewindTo hu target
      have htarget : t.level + 1 ≤ target := by
        have hlen := congrArg List.length hlimits
        simp only [Array.length_toList, List.length_take] at hlen
        simp only [Trail.apply, level] at hlevel ⊢
        omega
      simp only [Trail.apply]
      rw [hcut.lits, hlimits, List.prefix_take_iff, List.prefix_take_iff]
      refine ⟨⟨h.lits, ?_⟩, h.limits, ?_⟩
      · show t.size ≤ u.top target
        rw [← h.top_level]
        exact hu.top_mono (by omega)
      · simpa [level] using htarget
  have hentry : ∀ l ∈ t.lits, (u.apply c).levelOf l = u.levelOf l ∧
      (u.apply c).reasonOf l = u.reasonOf l := by
    intro l hl
    have hmem : l ∈ (u.apply c).lits :=
      Array.mem_toList_iff.1 (hlists.1.subset (Array.mem_toList_iff.2 hl))
    rcases hu.entry_apply hc hmem with ⟨-, hsame⟩ | ⟨reason, rfl, -⟩
    · exact hsame
    · -- a literal of `t` has a value, so it is not assigned
      have hold := Array.mem_toList_iff.1 (h.lits.subset (Array.mem_toList_iff.2 hl))
      exact absurd rfl (hu.var_ne_of_isFree hc.2 hold)
  exact ⟨hlists.1, hlists.2, fun l hl => (hentry l hl).1.trans (h.levelOf l hl),
    fun l hl => (hentry l hl).2.trans (h.reasonOf l hl)⟩

theorem after (h : u.StandsOn t) (hu : u.Ok) (htied : u.Tied)
    (hlater : u.Allows (t.level + 1) later) : (u.after later).StandsOn t := by
  induction later generalizing u with
  | nil => exact h
  | cons c rest ih =>
    obtain ⟨hc, hlevel, hrest⟩ := hlater
    exact ih (h.apply hu hc hlevel) (hu.apply hc) (htied.apply hu c) hrest

end StandsOn

/-! ## What goes when levels are undone -/

/-- Undoing levels of a trail that was cut before notes each literal with its level, newest first. -/
theorem Ok.removed_dropLevels (h : t.Ok) : ∀ (n : Nat) (u : Trail) (removed : Array (Nat × Lit)),
    Cut t u (t.top u.level) → u.limits.toList = t.limits.toList.take u.level →
    u.level ≤ t.level → n ≤ u.level →
    (dropLevels n u removed).2.toList = removed.toList ++
      (u.lits.toList.drop (t.top (u.level - n))).reverse.map fun l => (t.levelOf l, l)
  | 0, u, removed, hcut, _, _, _ => by
    rw [Nat.sub_zero, List.drop_eq_nil_of_le]
    · simp [dropLevels]
    · exact Nat.le_of_eq (hcut.size (h.top_le_size _))
  | n + 1, u, removed, hcut, hlimits, hle, hn => by
    have hsize : u.size = t.top u.level := hcut.size (h.top_le_size _)
    have hpred : u.level - 1 + 1 = u.level := by omega
    have htop : ∀ k < u.level, u.top k = t.top k := by
      intro k hk
      rw [top_of_lt (lt_length_limits hk), top_of_lt (lt_length_limits (by omega))]
      simp only [hlimits, List.getElem_take]
    have hbelow : ∀ b ∈ u.limits.toList, b ≤ u.size := by
      intro b hb
      obtain ⟨i, hi, rfl⟩ := List.mem_iff_getElem.1 hb
      have hi' : i < u.level := by simpa [level] using hi
      rw [hsize, ← top_of_lt hi, htop i hi']
      exact h.top_mono (Nat.le_of_lt hi')
    obtain ⟨w, gone, hstep, hcut', hlimits', -, hgone⟩ := dropLevels_succ n removed hbelow (by omega)
    have hlevel : w.level = u.level - 1 := level_of_pop hlimits'
    rw [htop _ (by omega)] at hcut' hgone
    have hcutw : Cut t w (t.top w.level) := by
      rw [hlevel]
      exact hcut.trans hcut' (h.top_mono (Nat.sub_le _ _))
    have hlimitsw : w.limits.toList = t.limits.toList.take w.level := by
      rw [limits_of_pop hlimits', hlimits, List.take_take, hlevel, Nat.min_eq_left (Nat.sub_le _ _)]
    -- the literals of the last level come first
    have hlast : (u.lits.toList.drop (t.top (u.level - 1))).reverse.map (u.level, ·) =
        (u.lits.toList.drop (t.top (u.level - 1))).reverse.map fun l => (t.levelOf l, l) := by
      refine List.map_congr_left fun l hl => ?_
      have hsegment : l ∈ t.segment u.level := by
        rw [segment, ← hpred, bottom_succ (by omega), hpred, ← hcut.lits]
        exact List.mem_reverse.1 hl
      rw [((h.mem_segment hle).1 hsegment).2]
    rw [hstep, h.removed_dropLevels n w gone hcutw hlimitsw (by omega) (by omega), hgone, hlast,
      List.append_assoc, ← List.map_append, ← List.reverse_append, hcut'.lits, hlevel,
      show u.level - 1 - n = u.level - (n + 1) by omega]
    congr 3
    have hlength : t.top (u.level - (n + 1)) ≤
        (u.lits.toList.take (t.top (u.level - 1))).length := by
      rw [List.length_take, Array.length_toList, show u.lits.size = t.top u.level from hsize]
      exact Nat.le_min.2 ⟨h.top_mono (by omega), h.top_mono (by omega)⟩
    conv_rhs => rw [← List.take_append_drop (t.top (u.level - 1)) u.lits.toList]
    rw [List.drop_append_of_le_length hlength]

theorem Ok.removed_rewindTo (h : t.Ok) {target : Nat} (hle : target ≤ t.level) :
    (t.rewindTo target).2.toList =
      (t.lits.toList.drop (t.top target)).reverse.map fun l => (t.levelOf l, l) := by
  have hcut : Cut t t (t.top t.level) :=
    Cut.refl t t.limits t.queueHead (Nat.le_of_eq (top_of_level_le (Nat.le_refl _)).symm)
  have hlimits : t.limits.toList = t.limits.toList.take t.level := by
    rw [List.take_of_length_le (by simp [level])]
  have hremoved := h.removed_dropLevels (t.level - target) t #[] hcut hlimits (Nat.le_refl _)
    (Nat.sub_le _ _)
  rw [Nat.sub_sub_self hle, List.nil_append] at hremoved
  exact hremoved

/-! ## Going back -/

/-- Going back from `u` to the level of `t` leads to the literals, levels, values and reasons of `t`;
    what goes is noted newest first, each literal with its level. -/
structure Restores (u t : Trail) : Prop where
  lits : (u.rewindTo t.level).1.lits = t.lits
  limits : (u.rewindTo t.level).1.limits = t.limits
  value : ∀ l, (u.rewindTo t.level).1.value l = t.value l
  levelOf : ∀ l ∈ t.lits, (u.rewindTo t.level).1.levelOf l = t.levelOf l
  reasonOf : ∀ l, (u.rewindTo t.level).1.reasonOf l = t.reasonOf l
  kept : t.lits.toList <+: u.lits.toList
  removed : (u.rewindTo t.level).2.toList =
    (u.lits.toList.drop t.size).reverse.map fun l => (u.levelOf l, l)

/-- Two trails of the same literals give all literals the same values. -/
theorem Ok.value_congr (hu : u.Ok) (ht : t.Ok) (h : u.lits = t.lits) (l : Lit) :
    u.value l = t.value l := by
  have htrue : u.isTrue l = t.isTrue l := Bool.eq_iff_iff.2 (by rw [hu.isTrue_iff, ht.isTrue_iff, h])
  have hfalse : u.isFalse l = t.isFalse l :=
    Bool.eq_iff_iff.2 (by rw [hu.isFalse_iff, ht.isFalse_iff, h])
  simp only [isTrue, isFalse] at htrue hfalse
  cases hul : u.value l <;> cases htl : t.value l <;> simp_all

theorem StandsOn.restores (h : u.StandsOn t) (ht : t.Ok) (htied : t.Tied) (hu : u.Ok)
    (hutied : u.Tied) : u.Restores t := by
  obtain ⟨hcut, hlimits, -⟩ := cut_rewindTo hu t.level
  rw [h.top_level] at hcut
  have hlits : (u.rewindTo t.level).1.lits = t.lits := by
    rw [← Array.toList_inj, hcut.lits]
    exact (List.prefix_iff_eq_take.1 h.lits).symm
  have hback := hu.rewindTo t.level
  refine ⟨hlits, ?_, hback.value_congr ht hlits, fun l hl => ?_, fun l => ?_, h.lits, ?_⟩
  · rw [← Array.toList_inj, hlimits]
    have hprefix := (List.prefix_append _ _).trans h.limits
    exact (List.prefix_iff_eq_take.1 hprefix).symm
  · rw [hu.levelOf_rewindTo, h.levelOf l hl]
  · by_cases hvar : l.var ∈ t.lits.toList.map Lit.var
    · obtain ⟨m, hm, hv⟩ := List.mem_map.1 hvar
      have hm' := Array.mem_toList_iff.1 hm
      have hsame : (u.rewindTo t.level).1.reasonOf m = t.reasonOf m := by
        rw [hu.reasonOf_rewindTo (hlits ▸ hm'), h.reasonOf m hm']
      simpa only [Trail.reasonOf, hv] using hsame
    · rw [htied.reasonOf l (ht.isFree_of_notMem hvar),
        (hutied.rewindTo hu t.level).reasonOf l (hback.isFree_of_notMem (hlits ▸ hvar))]
  · rw [hu.removed_rewindTo (Nat.le_of_lt h.level_lt), h.top_level]

/-- **Trails stay consistent, and levels are undone exactly.**  After any history every literal on
    the trail has the level and reason of the change that put it there.  Whatever is changed while a
    level that was opened then stays open, going back below it restores the trail of then. -/
theorem undoes_exactly (history : List Change) (h : empty.Allows 0 history) :
    (empty.after history).Consistent ∧
    (∀ l ∈ (empty.after history).lits, empty.Entered history l) ∧
    ∀ later, (empty.after history).newLevel.Allows ((empty.after history).level + 1) later →
      ((empty.after history).newLevel.after later).Restores (empty.after history) := by
  obtain ⟨hok, htied⟩ := ok_after ok_empty tied_empty h
  refine ⟨hok.consistent, fun l hl => entered_after ok_empty tied_empty rfl h hl,
    fun later hlater => ?_⟩
  have hopened := hok.newLevel
  have hstands := (StandsOn.newLevel _).after hopened htied.newLevel hlater
  obtain ⟨hok', htied'⟩ := ok_after hopened htied.newLevel hlater
  exact hstands.restores hok htied hok' htied'

/-- Four variables, a literal on the ground level and one on the next, and an empty level on top. -/
def climb : List Change :=
  [.newVar, .newVar, .newVar, .newVar, .assign ⟨0⟩ none, .newLevel, .assign ⟨3⟩ (some ⟨7⟩), .newLevel,
    .dequeueAll]

/-- Levels that are opened and undone, one of them empty, and a variable that is added and one that is
    assigned twice. -/
def detour : List Change :=
  [.assign ⟨4⟩ none, .newLevel, .newLevel, .assign ⟨7⟩ (some ⟨9⟩), .dequeue, .rewindTo 4, .newVar,
    .assign ⟨8⟩ none, .newLevel, .assign ⟨6⟩ none]

/-- Going back over three levels restores the trail, which has an empty level on top. -/
theorem undoes_exactly_detour :
    empty.Allows 0 climb ∧ (empty.after climb).newLevel.Allows 3 detour ∧
    ((empty.after climb).newLevel.after detour).Restores (empty.after climb) ∧
    (empty.after climb).level = 2 ∧
    (((empty.after climb).newLevel.after detour).rewindTo 2).2 = #[(5, ⟨6⟩), (4, ⟨8⟩), (3, ⟨4⟩)] := by
  have hclimb : empty.Allows 0 climb := by decide
  have hdetour : (empty.after climb).newLevel.Allows ((empty.after climb).level + 1) detour := by
    decide
  exact ⟨hclimb, hdetour, (undoes_exactly climb hclimb).2.2 detour hdetour, by decide, by decide⟩

end Trail

end ConfigSampler
