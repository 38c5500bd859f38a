import ConfigSampler.Proofs.Resolving

/-!
# Dropping literals of a learnt clause

A false literal may be dropped if the clause that forced its complement *rests* on the rest: its
other literals belong to the ground level or to variables that are marked, as literals of the clause
or as literals that rest on such (`Propagator.Rests`).  Reasons stand before what they force, so by
induction along the trail a model that falsifies the literals that were kept falsifies the dropped
ones too (`Propagator.holds_of_rests`).  The search along chains of reasons only ever marks places
further down the trail, which is what `Marking.Extends` keeps track of.
-/

set_option autoImplicit false

namespace ConfigSampler

/-- Literals of the clause, and literals that follow from these. -/
def Mark.IsSupport (m : Mark) : Prop := m = .source ∨ m = .removable

namespace Propagator

variable {p : Propagator} {lists : Lit → List Watcher} {α : Assignment} {i : Nat} {l : Lit}
  {marks marks' : Marks}

/-- The false literal belongs to the ground level or to a variable with a supporting mark. -/
def Supported (p : Propagator) (marks : Marks) (l : Lit) : Prop :=
  p.trail.levelOf l = 0 ∨ (markOf marks l.var).IsSupport

/-- Some clause forces the literal at place `i`, and its other literals are supported. -/
def Rests (p : Propagator) (marks : Marks) (i : Nat) : Prop :=
  ∃ r, p.Forces r i ∧
    ∀ l ∈ (p.arena.view r).lits, l ≠ p.trail.litAt i → p.Supported marks l

/-- Variables that are marked keep their marks. -/
def KeepsMarks (marks marks' : Marks) : Prop :=
  ∀ v, markOf marks v ≠ .unseen → markOf marks' v = markOf marks v

theorem Supported.mono (hkeep : KeepsMarks marks marks') (h : p.Supported marks l) :
    p.Supported marks' l := by
  refine h.imp id fun h => ?_
  rw [hkeep _ (by rintro hu; rw [hu] at h; rcases h with h | h <;> cases h)]
  exact h

theorem Rests.mono (hkeep : KeepsMarks marks marks') (h : p.Rests marks i) : p.Rests marks' i := by
  obtain ⟨r, hf, hothers⟩ := h
  exact ⟨r, hf, fun l hl hne => (hothers l hl hne).mono hkeep⟩

/-- If every supported place rests on supported places or holds anyway, then all of them hold. -/
theorem holds_of_rests (hα : p.Models α)
    (hrests : ∀ i < p.trail.size, (markOf marks (p.trail.litAt i).var).IsSupport →
      p.Rests marks i ∨ (p.trail.litAt i).Holds α) :
    ∀ i < p.trail.size, (markOf marks (p.trail.litAt i).var).IsSupport →
      (p.trail.litAt i).Holds α := by
  intro i
  induction i using Nat.strongRecOn with
  | ind i ih =>
    intro hi hsupport
    rcases hrests i hi hsupport with ⟨r, hf, hothers⟩ | hholds
    · obtain ⟨l, hl, hholds⟩ := hα.clause r hf.live
      by_cases he : l = p.trail.litAt i
      · rwa [← he]
      · obtain ⟨j, hj, hneg⟩ := hf.others l hl he
        have hjs : j < p.trail.size := Nat.lt_trans hj hi
        have hnot : l.negate.Holds α := by
          rw [← hneg]
          rcases hothers l hl he with h0 | hmark
          · apply hα.ground _ (Trail.litAt_mem hjs)
            rw [hneg, Trail.levelOf_negate, h0]
          · apply ih j hj hjs
            rwa [hneg, Lit.var_negate]
        exact absurd hholds (Lit.holds_negate.1 hnot)
    · exact hholds

/-- The reason of a false literal above ground forces its complement. -/
theorem Ok.forces_of_reasonOf (h : Ok lists p) {r : ClauseRef} (hi : i < p.trail.size)
    (hat : p.trail.litAt i = l.negate) (hpos : 0 < p.trail.levelOf l)
    (hr : p.trail.reasonOf l = some r) : p.Forces r i := by
  have hreason : p.trail.reasonOf (p.trail.litAt i) = some r := by
    rw [hat]; simpa [Trail.reasonOf] using hr
  rcases h.reason i hi (by rw [hat, Trail.levelOf_negate]; exact hpos) with ⟨hnone, -⟩ | ⟨s, hs, hf⟩
  · rw [hnone] at hreason
    cases hreason
  · rw [hs] at hreason
    cases hreason
    exact hf

theorem Forces.rests {r : ClauseRef} (h : p.Forces r i)
    (hc : (p.arena.view r).Ok p.trail.numVars)
    (hothers : ∀ l ∈ otherLits p.arena r, p.Supported marks l) : p.Rests marks i :=
  ⟨r, h, fun l hl hne => hothers l (hc.mem_drop_one.2 ⟨hl, by rw [h.head]; exact hne⟩)⟩

end Propagator

namespace Marking

variable {p : Propagator} {lists : Lit → List Watcher} {i j n : Nat} {l : Lit} {m m' m'' : Marking}

/-- Marks were given to variables of places below `n` that had none; none of them says that the
    literal belongs to the clause. -/
structure Extends (p : Propagator) (n : Nat) (m m' : Marking) : Prop where
  size : m'.marks.size = m.marks.size
  keeps : Propagator.KeepsMarks m.marks m'.marks
  source : ∀ v, markOf m'.marks v = .source → markOf m.marks v = .source
  touched : ∀ v, markOf m'.marks v ≠ markOf m.marks v → v ∈ m'.touched
  touched_mono : ∀ v ∈ m.touched, v ∈ m'.touched
  places : ∀ v, markOf m'.marks v ≠ markOf m.marks v → ∃ j < n, (p.trail.litAt j).var = v

theorem Extends.refl (p : Propagator) (n : Nat) (m : Marking) : Extends p n m m :=
  ⟨rfl, fun _ _ => rfl, fun _ h => h, fun _ h => absurd rfl h, fun _ h => h,
    fun _ h => absurd rfl h⟩

theorem Extends.trans (h : Extends p n m m') (h' : Extends p n m' m'') : Extends p n m m'' where
  size := h'.size.trans h.size
  keeps v hv := by
    rw [h'.keeps v (by rw [h.keeps v hv]; exact hv), h.keeps v hv]
  source v hv := h.source v (h'.source v hv)
  touched v hv := by
    by_cases hm : markOf m'.marks v = markOf m.marks v
    · exact h'.touched v (by rw [hm]; exact hv)
    · exact h'.touched_mono v (h.touched v hm)
  touched_mono v hv := h'.touched_mono v (h.touched_mono v hv)
  places v hv := by
    by_cases hm : markOf m'.marks v = markOf m.marks v
    · exact h'.places v (by rw [hm]; exact hv)
    · exact h.places v hm

theorem Extends.mono {k : Nat} (h : Extends p n m m') (hnk : n ≤ k) : Extends p k m m' :=
  { h with
    places := by
      intro v hv
      obtain ⟨j, hj, he⟩ := h.places v hv
      exact ⟨j, Nat.lt_of_lt_of_le hj hnk, he⟩ }

/-- Every place marked as removable rests on supported places. -/
def Closed (p : Propagator) (m : Marking) : Prop :=
  ∀ i < p.trail.size, markOf m.marks (p.trail.litAt i).var = .removable → p.Rests m.marks i

theorem markOf_record {v : Nat} {mark : Mark} (hv : v < m.marks.size) (w : Nat) :
    markOf (m.record v mark).marks w =
      if w = v ∧ markOf m.marks v = .unseen then mark else markOf m.marks w := by
  unfold record
  split
  · rename_i hu
    simp only [markOf_set hv, hu, and_true]
  · rename_i hu
    simp only [hu, and_false, if_false]

/-- Noting an outcome for the literal at place `i`. -/
theorem extends_record {mark : Mark} (hmark : mark ≠ .source)
    (hv : (p.trail.litAt i).var < m.marks.size) :
    Extends p (i + 1) m (m.record (p.trail.litAt i).var mark) where
  size := by unfold record; split <;> simp
  keeps v hu := by
    rw [markOf_record hv]
    split
    · rename_i h
      exact absurd (h.1 ▸ h.2) hu
    · rfl
  source v hs := by
    rw [markOf_record hv] at hs
    split at hs
    · exact absurd hs hmark
    · exact hs
  touched v hne := by
    rw [markOf_record hv] at hne
    split at hne
    · rename_i h
      rw [record, if_pos h.2]
      exact h.1 ▸ List.mem_cons_self
    · exact absurd rfl hne
  touched_mono v hm := by
    unfold record
    split
    · exact List.mem_cons_of_mem _ hm
    · exact hm
  places v hne := by
    rw [markOf_record hv] at hne
    split at hne
    · rename_i h
      exact ⟨i, Nat.lt_succ_self i, h.1.symm⟩
    · exact absurd rfl hne

theorem Closed.record (h : Closed p m) (ht : p.trail.Ok) {mark : Mark} (hmark : mark ≠ .source)
    (hi : i < p.trail.size) (hsize : m.marks.size = p.trail.numVars)
    (hrests : mark = .removable → p.Rests m.marks i) :
    Closed p (m.record (p.trail.litAt i).var mark) := by
  have hv : (p.trail.litAt i).var < m.marks.size := by
    rw [hsize]; exact ht.var_lt _ (Trail.litAt_mem hi)
  have hkeeps := (extends_record (p := p) (m := m) hmark hv).keeps
  intro j hj hr
  rw [markOf_record hv] at hr
  split at hr
  · rename_i he
    rw [ht.litAt_inj hj hi he.1]
    exact (hrests hr).mono hkeeps
  · exact (h j hj hr).mono hkeeps

end Marking

/-- A test that keeps an invariant and establishes a property of each item it accepts, given that
    later tests keep that property. -/
theorem allWith_spec {α σ : Type} (test : α → σ → Bool × σ) (Inv : σ → Prop)
    (Done : α → σ → Prop) (Le : σ → σ → Prop) (hrefl : ∀ s, Le s s)
    (htrans : ∀ s s' s'', Le s s' → Le s' s'' → Le s s'')
    (hmono : ∀ a s s', Le s s' → Done a s → Done a s') :
    ∀ (items : List α) (s : σ), Inv s →
    (∀ a ∈ items, ∀ s, Inv s → Inv (test a s).2 ∧ Le s (test a s).2 ∧
      ((test a s).1 = true → Done a (test a s).2)) →
    Inv (allWith test items s).2 ∧ Le s (allWith test items s).2 ∧
      ((allWith test items s).1 = true → ∀ a ∈ items, Done a (allWith test items s).2)
  | [], s, hs, _ => ⟨hs, hrefl s, fun _ a ha => by simp at ha⟩
  | a :: rest, s, hs, htest => by
    obtain ⟨hinv, hle, hdone⟩ := htest a (by simp) s hs
    unfold allWith
    split
    · rename_i s' he
      rw [he] at hinv hle
      exact ⟨hinv, hle, (nomatch ·)⟩
    · rename_i s' he
      rw [he] at hinv hle hdone
      obtain ⟨hinv', hle', hdone'⟩ := allWith_spec test Inv Done Le hrefl htrans hmono rest s' hinv
        fun b hb => htest b (List.mem_cons_of_mem _ hb)
      refine ⟨hinv', htrans _ _ _ hle hle', fun hall b hb => ?_⟩
      rcases List.mem_cons.1 hb with rfl | hb
      · exact hmono _ _ _ hle' (hdone rfl)
      · exact hdone' hall b hb

section Redundancy

variable {p : Propagator} {lists : Lit → List Watcher}

/-- A search along reasons puts each of the other literals to a test: it is supported, or it has no
    reason, or its own reason is searched. -/
theorem isRedundantVia_succ (p : Propagator) (depth : Nat) (l : Lit) (reason : ClauseRef)
    (m : Marking) : ∃ test : Lit → Marking → Bool × Marking,
    (∀ q s, p.Supported s.marks q → test q s = (true, s)) ∧
    (∀ q s, ¬ p.Supported s.marks q → p.trail.reasonOf q = none → test q s = (false, s)) ∧
    (∀ q s r, ¬ p.Supported s.marks q → p.trail.reasonOf q = some r → test q s =
      if markOf s.marks q.var = .unseen then isRedundantVia p.trail p.arena depth q r s
      else (false, s)) ∧
    isRedundantVia p.trail p.arena (depth + 1) l reason m =
      ((allWith test (otherLits p.arena reason) m).1,
        (allWith test (otherLits p.arena reason) m).2.record l.var
          (if (allWith test (otherLits p.arena reason) m).1 then .removable else .failed)) := by
  have htest : ∀ (q : Lit) (s : Marking), (decide (p.trail.levelOf q = 0) ||
      decide (markOf s.marks q.var = .source) || decide (markOf s.marks q.var = .removable)) = true ↔
      p.Supported s.marks q := by
    intro q s
    simp only [Bool.or_eq_true, decide_eq_true_eq, or_assoc]
    exact Iff.rfl
  refine ⟨_, ?_, ?_, ?_, rfl⟩
  · intro q s hq
    exact if_pos ((htest q s).2 hq)
  · intro q s hq hnone
    refine (if_neg fun hs => hq ((htest q s).1 hs)).trans ?_
    rw [hnone]
  · intro q s r hq hsome
    refine (if_neg fun hs => hq ((htest q s).1 hs)).trans ?_
    rw [hsome]

/-- After the other literals of its reason were put to the test, the outcome is recorded for the
    literal at place `i`. -/
theorem record_outcome (h : p.Ok lists) {reason : ClauseRef} {i : Nat} (hi : i < p.trail.size)
    (hf : p.Forces reason i) {m m' : Marking} (hclosed : Marking.Closed p m')
    (hsize : m'.marks.size = p.trail.numVars) (hext : Marking.Extends p i m m') {b : Bool}
    (hdone : b = true → ∀ q ∈ otherLits p.arena reason, p.Supported m'.marks q)
    {m'' : Marking} (hrecord : m''
      = m'.record (p.trail.litAt i).var (if b = true then .removable else .failed)) :
    Marking.Closed p m'' ∧ Marking.Extends p (i + 1) m m'' ∧
    (b = true → (∀ q ∈ otherLits p.arena reason, p.Supported m''.marks q) ∧
      (markOf m.marks (p.trail.litAt i).var = .unseen →
        markOf m''.marks (p.trail.litAt i).var = .removable)) := by
  subst hrecord
  have hlt : (p.trail.litAt i).var < m'.marks.size := by
    rw [hsize]
    exact h.trail.var_lt _ (Trail.litAt_mem hi)
  have hmark : (if b = true then Mark.removable else .failed) ≠ .source := by split <;> decide
  have hstep := Marking.extends_record (p := p) hmark hlt
  refine ⟨hclosed.record h.trail hmark hi hsize fun hb => ?_,
    (hext.mono (Nat.le_succ i)).trans hstep, fun hb => ⟨fun q hq => ?_, fun hunseen => ?_⟩⟩
  · refine hf.rests (h.clause _ hf.live) (hdone ?_)
    by_contra hb'
    rw [if_neg hb'] at hb
    cases hb
  · exact (hdone hb q hq).mono hstep.keeps
  · -- the search marks places below `i` only
    have hunseen' : markOf m'.marks (p.trail.litAt i).var = .unseen := by
      by_contra hne
      obtain ⟨j, hj, hv⟩ := hext.places (p.trail.litAt i).var (by rw [hunseen]; exact hne)
      have := h.trail.litAt_inj (Nat.lt_trans hj hi) hi hv
      omega
    rw [Marking.markOf_record hlt, if_pos ⟨rfl, hunseen'⟩, if_pos hb]

/-- The search along reasons marks only places up to the one it starts from, and an accepted
    literal rests on supported ones. -/
theorem isRedundantVia_spec (h : p.Ok lists) (depth : Nat) : ∀ (l : Lit) (reason : ClauseRef)
    (m : Marking) (i : Nat), i < p.trail.size → p.trail.litAt i = l.negate →
    0 < p.trail.levelOf l → p.trail.reasonOf l = some reason → Marking.Closed p m →
    m.marks.size = p.trail.numVars →
    ∀ {redundant : Bool} {m' : Marking},
      isRedundantVia p.trail p.arena depth l reason m = (redundant, m') →
      Marking.Closed p m' ∧ Marking.Extends p (i + 1) m m' ∧
      (redundant = true → (∀ q ∈ otherLits p.arena reason, p.Supported m'.marks q) ∧
        (markOf m.marks l.var = .unseen → markOf m'.marks l.var = .removable)) := by
  induction depth with
  | zero =>
    intro l reason m i hi hat hpos hr hm hsize redundant m' he
    have hvar : l.var = (p.trail.litAt i).var := by rw [hat, Lit.var_negate]
    have hf := h.forces_of_reasonOf hi hat hpos hr
    unfold isRedundantVia at he
    cases he
    rw [hvar]
    exact record_outcome h hi hf hm hsize (.refl p i m) (by simp) rfl
  | succ depth ih =>
    intro l reason m i hi hat hpos hr hm hsize redundant m' he
    have hvar : l.var = (p.trail.litAt i).var := by rw [hat, Lit.var_negate]
    have hf := h.forces_of_reasonOf hi hat hpos hr
    have hc := h.clause _ hf.live
    obtain ⟨test, hsupported, hnone, hsome, hsucc⟩ := isRedundantVia_succ p depth l reason m
    rw [hsucc] at he
    cases he
    have htest : ∀ q ∈ otherLits p.arena reason, ∀ s,
        Marking.Closed p s ∧ s.marks.size = p.trail.numVars →
        (Marking.Closed p (test q s).2 ∧ (test q s).2.marks.size = p.trail.numVars) ∧
        Marking.Extends p i s (test q s).2 ∧
        ((test q s).1 = true → p.Supported (test q s).2.marks q) := by
      rintro q hq s ⟨hs, hssize⟩
      obtain ⟨j, hj, hqat⟩ := hf.others_before hc hq
      by_cases hsup : p.Supported s.marks q
      · rw [hsupported q s hsup]
        exact ⟨⟨hs, hssize⟩, .refl p i s, fun _ => hsup⟩
      · cases hqr : p.trail.reasonOf q with
        | none =>
          rw [hnone q s hsup hqr]
          exact ⟨⟨hs, hssize⟩, .refl p i s, by simp⟩
        | some r =>
          rw [hsome q s r hsup hqr]
          split
          · rename_i hunseen
            have hlevel : 0 < p.trail.levelOf q := Nat.pos_of_ne_zero fun h0 => hsup (.inl h0)
            obtain ⟨h1, h2, h3⟩ := ih q r s j (Nat.lt_trans hj hi) hqat hlevel hqr hs hssize rfl
            exact ⟨⟨h1, h2.size.trans hssize⟩, h2.mono hj,
              fun ht => .inr (.inr ((h3 ht).2 hunseen))⟩
          · exact ⟨⟨hs, hssize⟩, .refl p i s, by simp⟩
    obtain ⟨⟨hclosed, hsize'⟩, hext, hdone⟩ := allWith_spec test
      (fun s => Marking.Closed p s ∧ s.marks.size = p.trail.numVars)
      (fun q s => p.Supported s.marks q) (Marking.Extends p i)
      (Marking.Extends.refl p i) (fun _ _ _ => .trans) (fun _ _ _ hle => .mono hle.keeps)
      (otherLits p.arena reason) m ⟨hm, hsize⟩ htest
    rw [hvar]
    exact record_outcome h hi hf hclosed hsize' hext hdone rfl

/-- The false literal is dropped rightly: its complement rests on supported literals. -/
def IsDropped (p : Propagator) (marks : Marks) (l : Lit) : Prop :=
  ∃ i < p.trail.size, p.trail.litAt i = l.negate ∧ p.Rests marks i

theorem dropRedundant_spec (h : p.Ok lists) : ∀ (ls : List Lit) (kept : Array Lit) (m : Marking),
    (∀ l ∈ ls, p.trail.isFalse l = true ∧ 0 < p.trail.levelOf l) → Marking.Closed p m →
    m.marks.size = p.trail.numVars →
    ∀ {lits : Array Lit} {m' : Marking}, dropRedundant p.trail p.arena ls kept m = (lits, m') →
      Marking.Closed p m' ∧ Marking.Extends p p.trail.size m m' ∧
      ∃ rest, lits.toList = kept.toList ++ rest ∧ rest.Sublist ls ∧
        ∀ l ∈ ls, l ∈ rest ∨ IsDropped p m'.marks l
  | [], kept, m, _, hm, _, lits, m', he => by
    cases he
    exact ⟨hm, .refl p _ m, [], by simp, .refl _, by simp⟩
  | l :: ls, kept, m, hls, hm, hsize, lits, m', he => by
    obtain ⟨hfalse, hpos⟩ := hls l (by simp)
    obtain ⟨i, hi, hat⟩ := Trail.exists_litAt ((h.trail.isFalse_iff l).1 hfalse)
    have hls' := fun q hq => hls q (List.mem_cons_of_mem _ hq)
    -- the outcome for the first literal
    have hone : ∀ {b : Bool} {m1 : Marking}, isRedundant p.trail p.arena l m = (b, m1) →
        Marking.Closed p m1 ∧ Marking.Extends p p.trail.size m m1 ∧
          (b = true → IsDropped p m1.marks l) := by
      intro b m1 hb
      unfold isRedundant at hb
      split at hb
      · cases hb
        exact ⟨hm, .refl p _ m, (nomatch ·)⟩
      · rename_i r hr
        obtain ⟨h1, h2, h3⟩ := isRedundantVia_spec h _ l r m i hi hat hpos hr hm hsize hb
        have hf := h.forces_of_reasonOf hi hat hpos hr
        exact ⟨h1, h2.mono hi, fun ht =>
          ⟨i, hi, hat, hf.rests (h.clause _ hf.live) (h3 ht).1⟩⟩
    unfold dropRedundant at he
    split at he
    · rename_i m1 hb
      obtain ⟨hc1, he1, hd1⟩ := hone hb
      obtain ⟨hc, hext, rest, hlits, hsub, hall⟩ :=
        dropRedundant_spec h ls kept m1 hls' hc1 (he1.size.trans hsize) he
      refine ⟨hc, he1.trans hext, rest, hlits, hsub.cons l, fun q hq => ?_⟩
      rcases List.mem_cons.1 hq with rfl | hq
      · obtain ⟨j, hj, hjat, hrests⟩ := hd1 rfl
        exact .inr ⟨j, hj, hjat, hrests.mono hext.keeps⟩
      · exact hall q hq
    · rename_i m1 hb
      obtain ⟨hc1, he1, -⟩ := hone hb
      obtain ⟨hc, hext, rest, hlits, hsub, hall⟩ :=
        dropRedundant_spec h ls (kept.push l) m1 hls' hc1 (he1.size.trans hsize) he
      refine ⟨hc, he1.trans hext, l :: rest, ?_, hsub.cons_cons l, fun q hq => ?_⟩
      · rw [hlits]; simp
      · rcases List.mem_cons.1 hq with rfl | hq
        · exact .inl List.mem_cons_self
        · exact (hall q hq).imp (List.mem_cons_of_mem _) id

variable {head : Lit} {r : Resolution}

/-- A model that falsifies what was kept falsifies what was dropped. -/
theorem entails_of_dropped (ht : p.trail.Ok) (hw : Resolution.Walked p head r) {m : Marking}
    {n : Nat} (hext : Marking.Extends p n ⟨r.marks, []⟩ m) (hclosed : Marking.Closed p m)
    {kept : List Lit} (hall : ∀ l ∈ r.lower, l ∈ kept ∨ IsDropped p m.marks l)
    {α : Assignment} (hα : p.Models α) : head.Holds α ∨ ∃ l ∈ kept, l.Holds α := by
  obtain ⟨k, htracks⟩ := hw.tracks
  by_contra hnot
  simp only [not_or, not_exists, not_and] at hnot
  obtain ⟨l, hl, hholds⟩ := (hw.entails α hα).resolve_left hnot.1
  have hplace : ∀ q ∈ r.lower, ∃ i < p.trail.size, p.trail.litAt i = q.negate := fun q hq =>
    Trail.exists_litAt ((ht.isFalse_iff q).1 (htracks.lower q hq).1)
  obtain ⟨i, hi, hat⟩ := hplace l hl
  have hsource : (markOf m.marks (p.trail.litAt i).var).IsSupport := by
    have hne : markOf r.marks l.var ≠ .unseen :=
      (htracks.marked _).2 (.inl (List.mem_map.2 ⟨l, by simpa using hl, rfl⟩))
    rw [hat, Lit.var_negate, hext.keeps _ hne]
    exact .inl ((htracks.marks _).resolve_left hne)
  have hneg := p.holds_of_rests hα (fun j hj hsupport => ?_) i hi hsource
  · rw [hat, Lit.holds_negate] at hneg
    exact hneg hholds
  · rcases hsupport with hs | hr
    · have hne : markOf r.marks (p.trail.litAt j).var ≠ .unseen := by
        rw [hext.source _ hs]; decide
      rcases (htracks.marked _).1 hne with hv | ⟨k, hk, -⟩
      · obtain ⟨q, hq, hv⟩ := List.mem_map.1 hv
        have hq' : q ∈ r.lower := by simpa using hq
        have hjat := ht.litAt_eq_negate hj (htracks.lower q hq').1 hv.symm
        rcases hall q hq' with hk | ⟨j', hj', hjat', hrests⟩
        · refine .inr ?_
          rw [hjat, Lit.holds_negate]
          exact hnot.2 q hk
        · rw [ht.litAt_inj hj hj' (by rw [hjat, hjat'])]
          exact .inl hrests
      · simp at hk
    · exact .inl (hclosed j hj hr)

/-- **Shortening keeps the head and some of the other literals, and every model still satisfies the
    clause.** -/
theorem minimise_spec (h : p.Ok lists) (hw : Resolution.Walked p head r) (mode : Minimisation)
    {lits : Array Lit} {m : Marking}
    (he : minimise mode p.trail p.arena head r.lower ⟨r.marks, []⟩ = (lits, m)) :
    Marking.Extends p p.trail.size ⟨r.marks, []⟩ m ∧
    ∃ kept, lits.toList = head :: kept ∧ kept.Sublist r.lower.toList ∧
      ∀ α, p.Models α → head.Holds α ∨ ∃ l ∈ kept, l.Holds α := by
  obtain ⟨k, htracks⟩ := hw.tracks
  have hclosed : Marking.Closed p ⟨r.marks, []⟩ := by
    intro i _ hr
    rcases htracks.marks (p.trail.litAt i).var with hm | hm <;> rw [hm] at hr <;> cases hr
  unfold minimise at he
  split at he
  · cases he
    refine ⟨.refl p _ _, r.lower.toList, by simp, .refl _, fun α hα => ?_⟩
    exact entails_of_dropped h.trail hw (.refl p 0 _) hclosed
      (fun l hl => .inl (by simpa using hl)) hα
  · cases he
    refine ⟨.refl p _ _, r.lower.toList.filter fun l => !isRedundantBasic p.trail p.arena r.marks l,
      by simp, List.filter_sublist, fun α hα => ?_⟩
    refine entails_of_dropped h.trail hw (.refl p 0 _) hclosed (fun l hl => ?_) hα
    by_cases hred : isRedundantBasic p.trail p.arena r.marks l = true
    · obtain ⟨hfalse, hpos, -⟩ := htracks.lower l hl
      obtain ⟨i, hi, hat⟩ := Trail.exists_litAt ((h.trail.isFalse_iff l).1 hfalse)
      unfold isRedundantBasic at hred
      split at hred
      · cases hred
      · rename_i s hs
        have hf := h.forces_of_reasonOf hi hat hpos hs
        refine .inr ⟨i, hi, hat, hf.rests (h.clause _ hf.live) fun q hq => ?_⟩
        have hcovered := List.all_eq_true.1 hred q hq
        simp only [isCovered, Bool.or_eq_true, decide_eq_true_eq, beq_iff_eq] at hcovered
        exact hcovered.symm.imp id fun hne => .inl ((htracks.marks _).resolve_left hne)
    · exact .inl (List.mem_filter.2 ⟨by simpa using hl, by simpa using hred⟩)
  · obtain ⟨hc, hext, rest, hlits, hsub, hall⟩ := dropRedundant_spec h r.lower.toList #[head]
      ⟨r.marks, []⟩ (fun l hl => (htracks.lower l (by simpa using hl)).imp id And.left) hclosed
      htracks.marks_size he
    exact ⟨hext, rest, hlits, hsub, fun α hα => entails_of_dropped h.trail hw hext hc
      (fun l hl => hall l (by simpa using hl)) hα⟩

end Redundancy

end ConfigSampler
