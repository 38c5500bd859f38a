import ConfigSampler.Proofs.Shortening

/-!
# What an analysis teaches

`Lesson.Sound` says what is relied on when a lesson is followed: every model satisfies the learnt
clause, its first literal is the only one of the current level, and its second one belongs to the
level to go back to, above which the others do not go.  `analyze_spec` establishes it for the lesson
of every conflict, and that all marks are clear again.
-/

set_option autoImplicit false

namespace ConfigSampler

/-- The second place holds a literal of the highest level. -/
theorem highestFrom_spec (trail : Trail) : ∀ (rest before : List Lit) (best level : Nat)
    (hbest : best < before.length), trail.levelOf before[best] = level → 1 ≤ best →
    (∀ k (hk : k < before.length), 1 ≤ k → trail.levelOf before[k] ≤ level) →
    ∃ place, highestFrom trail rest before.length best level = place ∧ 1 ≤ place ∧
      ∃ h : place < (before ++ rest).length, ∀ k (hk : k < (before ++ rest).length), 1 ≤ k →
        trail.levelOf (before ++ rest)[k] ≤ trail.levelOf (before ++ rest)[place]
  | [], before, best, level, hbest, hlevel, hone, hall => by
    simp only [List.append_nil]
    exact ⟨best, rfl, hone, hbest, fun k hk h1 => by rw [hlevel]; exact hall k hk h1⟩
  | l :: rest, before, best, level, hbest, hlevel, hone, hall => by
    have hsplit : before ++ l :: rest = (before ++ [l]) ++ rest := by simp
    have hlast : ∀ h : before.length < (before ++ [l]).length, (before ++ [l])[before.length] = l := by
      intro h
      simp
    have hold : ∀ k (hk : k < before.length) (hk' : k < (before ++ [l]).length),
        (before ++ [l])[k] = before[k] := by
      intro k hk hk'
      exact List.getElem_append_left hk
    have hlen : (before ++ [l]).length = before.length + 1 := by simp
    unfold highestFrom
    split
    · rename_i hlt
      have := highestFrom_spec trail rest (before ++ [l]) before.length (trail.levelOf l)
        (by simp) (by rw [hlast]) (by omega) (by
          intro k hk h1
          rcases Nat.lt_or_ge k before.length with hk' | hk'
          · rw [hold k hk']
            exact Nat.le_of_lt (Nat.lt_of_le_of_lt (hall k hk' h1) hlt)
          · obtain rfl : k = before.length := by omega
            exact Nat.le_of_eq (by rw [hlast]))
      rw [hlen] at this
      simpa only [hsplit] using this
    · rename_i hlt
      have := highestFrom_spec trail rest (before ++ [l]) best level (by omega)
        (by rw [hold best hbest]; exact hlevel) hone (by
          intro k hk h1
          rcases Nat.lt_or_ge k before.length with hk' | hk'
          · rw [hold k hk']
            exact hall k hk' h1
          · obtain rfl : k = before.length := by omega
            rw [hlast]
            omega)
      rw [hlen] at this
      simpa only [hsplit] using this

theorem markOf_clear : ∀ (vars : List Nat) (marks : Marks) (v : Nat),
    markOf (clearMarks marks vars) v = if v ∈ vars then .unseen else markOf marks v
  | [], marks, v => by simp [clearMarks]
  | w :: vars, marks, v => by
    have hstep : clearMarks marks (w :: vars) = clearMarks (marks.setIfInBounds w .unseen) vars := rfl
    rw [hstep, markOf_clear vars]
    by_cases hv : v ∈ vars
    · simp [hv]
    · rw [if_neg hv]
      simp only [List.mem_cons, hv, or_false, markOf, Array.getD_eq_getD_getElem?,
        Array.getElem?_setIfInBounds]
      by_cases hw : w = v
      · subst hw
        by_cases hlt : w < marks.size <;> simp [hlt]
      · simp [hw, Ne.symm hw]

theorem size_clearMarks : ∀ (vars : List Nat) (marks : Marks),
    (clearMarks marks vars).size = marks.size
  | [], _ => rfl
  | w :: vars, marks => (size_clearMarks vars (marks.setIfInBounds w .unseen)).trans (by simp)

/-- All variables are without a mark. -/
structure Marks.Clear (marks : Marks) (n : Nat) : Prop where
  size : marks.size = n
  unseen : ∀ v, markOf marks v = .unseen

namespace Lesson

variable {p : Propagator} {lists : Lit → List Watcher}

/-- What is relied on when a lesson is followed. -/
def Sound (p : Propagator) : Lesson → Prop
  | .contradiction => p.trail.level = 0
  | .unit l => 0 < p.trail.level ∧ p.trail.isFalse l = true ∧
      p.trail.levelOf l = p.trail.level ∧ ∀ α, p.Models α → l.Holds α
  | .clause level lits => level < p.trail.level ∧ 2 ≤ lits.size ∧ lits.toList.Nodup ∧
      (∀ l ∈ lits, p.trail.isFalse l = true) ∧
      p.trail.levelOf (lits.getD 0 default) = p.trail.level ∧
      p.trail.levelOf (lits.getD 1 default) = level ∧
      (∀ l ∈ lits, l ≠ lits.getD 0 default → p.trail.levelOf l ≤ level) ∧
      ∀ α, p.Models α → ∃ l ∈ lits, l.Holds α

/-- Exchanging a later place with the second one leaves the first one as it is. -/
theorem swap_second (lits : Array Lit) {place : Nat} (hone : 1 ≤ place) (hlt : place < lits.size) :
    (lits.swapIfInBounds 1 place).toList.Perm lits.toList ∧
      (lits.swapIfInBounds 1 place).getD 0 default = lits.getD 0 default ∧
      (lits.swapIfInBounds 1 place).getD 1 default = lits.getD place default := by
  have hone' : 1 < lits.size := by omega
  have hzero : 0 < lits.size := by omega
  have hswap : lits.swapIfInBounds 1 place = lits.swap 1 place := by
    simp [Array.swapIfInBounds_def, hone', hlt]
  rw [hswap]
  refine ⟨(Array.swap_perm _ _).toList, ?_, ?_⟩
  · rw [Array.getD_eq_getD_getElem?, Array.getD_eq_getD_getElem?, Array.getElem?_swap]
    simp [show place ≠ 0 by omega, hzero]
  · rw [Array.getD_eq_getD_getElem?, Array.getD_eq_getD_getElem?, Array.getElem?_swap]
    by_cases hp : place = 1
    · simp [hp, hone']
    · simp [hp, hlt]

/-- The lesson of two or more literals keeps the first one in place and has one of the highest level
    of the others next. -/
theorem lessonOf_spec (trail : Trail) {lits : Array Lit} {head second : Lit} {rest : List Lit}
    (hlits : lits.toList = head :: second :: rest) :
    ∃ level lits', lessonOf trail lits = .clause level lits' ∧
      lits'.toList.Perm (head :: second :: rest) ∧ lits'.getD 0 default = head ∧
      trail.levelOf (lits'.getD 1 default) = level ∧ lits'.getD 1 default ∈ second :: rest ∧
      ∀ l ∈ second :: rest, trail.levelOf l ≤ level := by
  obtain rfl : lits = (head :: second :: rest).toArray := by rw [← hlits]
  have hgetD : ∀ k (hk : k < (head :: second :: rest).length),
      (head :: second :: rest).toArray.getD k default = (head :: second :: rest)[k] := by
    intro k hk
    simp only [Array.getD_eq_getD_getElem?, List.getElem?_toArray, List.getElem?_eq_getElem hk,
      Option.getD_some]
  obtain ⟨place, hplace, hone, hlt, hmax⟩ := highestFrom_spec trail rest [head, second] 1
    (trail.levelOf second) (Nat.lt_succ_self 1) rfl (Nat.le_refl 1) (by
      intro k hk h1
      obtain rfl : k = 1 := by simp only [List.length_cons, List.length_nil] at hk; omega
      exact Nat.le_refl _)
  obtain ⟨hperm, hfirst, hnext⟩ :=
    swap_second (head :: second :: rest).toArray hone hlt
  -- the places from the second one on hold the other literals
  have hother : ∀ l, l ∈ second :: rest ↔ ∃ k, ∃ hk : k < (head :: second :: rest).length,
      1 ≤ k ∧ (head :: second :: rest)[k] = l := by
    intro l
    rw [List.mem_iff_getElem]
    constructor
    · rintro ⟨k, hk, he⟩
      exact ⟨k + 1, Nat.succ_lt_succ hk, Nat.succ_pos k, he⟩
    · rintro ⟨k, hk, h1, he⟩
      obtain ⟨k, rfl⟩ := Nat.exists_eq_add_of_le' h1
      exact ⟨k, Nat.lt_of_succ_lt_succ hk, he⟩
  refine ⟨_, _, ?_, hperm, hfirst, rfl, ?_, ?_⟩
  · unfold lessonOf
    rw [if_neg (by simp)]
    exact congrArg (fun place => Lesson.clause
      (trail.levelOf (((head :: second :: rest).toArray.swapIfInBounds 1 place).getD 1 default))
      ((head :: second :: rest).toArray.swapIfInBounds 1 place)) hplace
  · rw [hnext, hgetD place hlt]
    exact (hother _).2 ⟨place, hlt, hone, rfl⟩
  · intro l hl
    obtain ⟨k, hk, h1, rfl⟩ := (hother l).1 hl
    rw [hnext, hgetD place hlt]
    exact hmax k hk h1

/-- The lesson of a clause whose first literal is the only one of the current level. -/
theorem sound_lessonOf {head : Lit} {kept : List Lit} {lits : Array Lit}
    (hpos : 0 < p.trail.level) (hlits : lits.toList = head :: kept)
    (hhead : p.trail.isFalse head = true) (hlevel : p.trail.levelOf head = p.trail.level)
    (hkept : ∀ l ∈ kept, p.trail.isFalse l = true ∧ p.trail.levelOf l < p.trail.level)
    (hnodup : (head :: kept).Nodup)
    (hmodels : ∀ α, p.Models α → head.Holds α ∨ ∃ l ∈ kept, l.Holds α) :
    Sound p (lessonOf p.trail lits) := by
  cases kept with
  | nil =>
    obtain rfl : lits = #[head] := Array.toList_inj.1 hlits
    exact ⟨hpos, hhead, hlevel, fun α hα => (hmodels α hα).resolve_right (by simp)⟩
  | cons second rest =>
    obtain ⟨level, lits', hlesson, hperm, hfirst, hnext, hmem, hmax⟩ :=
      lessonOf_spec p.trail hlits
    have hmem' : ∀ l, l ∈ lits' ↔ l ∈ head :: second :: rest := by
      intro l
      rw [← Array.mem_toList_iff, hperm.mem_iff]
    rw [hlesson]
    refine ⟨?_, ?_, hperm.nodup_iff.2 hnodup, fun l hl => ?_, ?_, hnext, fun l hl hne => ?_,
      fun α hα => ?_⟩
    · rw [← hnext]
      exact (hkept _ hmem).2
    · rw [← Array.length_toList, hperm.length_eq]
      simp only [List.length_cons]
      omega
    · rcases List.mem_cons.1 ((hmem' l).1 hl) with rfl | hl
      · exact hhead
      · exact (hkept l hl).1
    · rw [hfirst, hlevel]
    · rw [hfirst] at hne
      exact hmax l ((List.mem_cons.1 ((hmem' l).1 hl)).resolve_left hne)
    · rcases hmodels α hα with hh | ⟨l, hl, hh⟩
      · exact ⟨head, (hmem' _).2 List.mem_cons_self, hh⟩
      · exact ⟨l, (hmem' _).2 (List.mem_cons_of_mem _ hl), hh⟩

end Lesson

/-- **The lesson of a conflict is sound**, and the marks are clear afterwards. -/
theorem analyze_spec {p : Propagator} {lists : Lit → List Watcher} (h : p.Ok lists)
    {conflict : ClauseRef} (hconflict : p.IsConflict conflict) {marks : Marks}
    (hmarks : marks.Clear p.trail.numVars) (mode : Minimisation) :
    (analyze mode p.trail p.arena marks conflict).lesson.Sound p ∧
    (analyze mode p.trail p.arena marks conflict).marks.Clear p.trail.numVars := by
  unfold analyze
  split
  · rename_i hground
    refine ⟨?_, hmarks⟩
    simpa [Lesson.Sound, Trail.atGround, Trail.level] using hground
  · rename_i hground
    have hpos : 0 < p.trail.level := by
      simp only [Trail.atGround, Array.isEmpty_iff_size_eq_zero] at hground
      simp only [Trail.level]
      omega
    simp only
    generalize hwalk : Resolution.walk p.trail p.arena conflict p.trail.size
      (Resolution.addClause p.trail p.arena ⟨marks, #[], 0, #[], #[]⟩ conflict true) = out
    obtain ⟨head, r⟩ := out
    have hw := Resolution.walk_of_conflict h hpos hconflict hmarks.size hmarks.unseen hwalk
    dsimp only
    generalize hmin : minimise mode p.trail p.arena head r.lower ⟨r.marks, []⟩ = short
    obtain ⟨lits, m⟩ := short
    obtain ⟨hext, kept, hlits, hsub, hmodels⟩ := minimise_spec h hw mode hmin
    obtain ⟨k, htracks⟩ := hw.tracks
    have hkept : ∀ l ∈ kept, p.trail.isFalse l = true ∧ p.trail.levelOf l < p.trail.level :=
      fun l hl => (htracks.lower l (by simpa using hsub.subset hl)).imp id And.right
    refine ⟨Lesson.sound_lessonOf hpos hlits hw.isFalse hw.level hkept ?_ hmodels, ?_, fun v => ?_⟩
    · refine List.nodup_cons.2 ⟨fun hmem => ?_, (List.Nodup.of_map _ htracks.lower_nodup).sublist hsub⟩
      have := (hkept head hmem).2
      rw [hw.level] at this
      exact Nat.lt_irrefl _ this
    · simp only [size_clearMarks]
      exact hext.size.trans htracks.marks_size
    · simp only [markOf_clear]
      split
      · rfl
      · split
        · rfl
        · rename_i hlower
          split
          · rfl
          · rename_i htouched
            have hsame : markOf m.marks v = markOf r.marks v := by
              by_contra hne
              exact htouched (hext.touched v hne)
            rw [hsame]
            by_contra hne
            rcases (htracks.marked v).1 hne with hv | ⟨j, hj, -⟩
            · exact hlower hv
            · simp at hj

end ConfigSampler
