import ConfigSampler.Proofs.Entailment
import ConfigSampler.Proofs.Rewinding
import ConfigSampler.Solver.Learning

/-!
# Resolving a conflict

While the trail is walked down, the marked variables are those of the literals found on lower
levels and those of some `places` of the current level still to be reached
(`Resolution.Tracks`); every model makes one of the former true or the literal at one of the latter
false.  When one place of the current level is left, its complement and the literals of lower levels
are a clause that every model satisfies (`Resolution.walk_spec`).
-/

set_option autoImplicit false

namespace ConfigSampler

theorem markOf_set {marks : Marks} {v w : Nat} {mark : Mark} (hv : v < marks.size) :
    markOf (marks.setIfInBounds v mark) w = if w = v then mark else markOf marks w := by
  simp only [markOf, Array.getD_eq_getD_getElem?, Array.getElem?_setIfInBounds]
  by_cases hvw : v = w
  · subst hvw; simp [hv]
  · simp [hvw, Ne.symm hvw]

namespace Trail

variable {t : Trail} {l m : Lit}

theorem Ok.eq_of_isFalse (h : t.Ok) (hl : t.isFalse l = true) (hm : t.isFalse m = true)
    (hv : l.var = m.var) : l = m := by
  rcases Lit.eq_or_eq_negate hv with he | he
  · exact he
  · rw [he, h.isFalse_eq, Lit.negate_negate] at hl
    rw [isTrue_not_isFalse hl] at hm
    cases hm

theorem Ok.litAt_eq_negate (h : t.Ok) {j : Nat} (hj : j < t.size) (hl : t.isFalse l = true)
    (hv : (t.litAt j).var = l.var) : t.litAt j = l.negate := by
  refine (Lit.eq_or_eq_negate hv).resolve_left fun he => ?_
  have := h.isTrue_litAt hj
  rw [he] at this
  rw [isTrue_not_isFalse this] at hl
  cases hl

/-- The literals of a level stand from its bottom on. -/
theorem Ok.bottom_le (h : t.Ok) {j : Nat} (hj : j < t.size)
    (hpos : 0 < t.levelOf (t.litAt j)) : t.bottom (t.levelOf (t.litAt j)) ≤ j := by
  have hle := h.levelOf_le (litAt_mem hj)
  have htop := (h.lt_top_iff hj (k := t.levelOf (t.litAt j) - 1)).not.2
    (by rw [← h.levelOf_litAt j hj]; omega)
  have hlt : t.levelOf (t.litAt j) - 1 < t.limits.size := by simp only [level] at hle; omega
  rw [bottom, if_neg (by omega)]
  simp only [top, Array.getD_eq_getD_getElem?, hlt, Array.getElem?_eq_getElem, Option.getD_some]
    at htop ⊢
  omega

end Trail

/-- The other literals of a reason are false since before the place that it forces. -/
theorem Propagator.Forces.others_before {p : Propagator} {r : ClauseRef} {i : Nat} {l : Lit}
    (h : p.Forces r i) (hc : (p.arena.view r).Ok p.trail.numVars) (hl : l ∈ otherLits p.arena r) :
    ∃ j < i, p.trail.litAt j = l.negate := by
  obtain ⟨hl, hne⟩ := hc.mem_drop_one.1 hl
  exact h.others l hl (by rw [← h.head]; exact hne)

namespace Resolution

variable {p : Propagator} {lists : Lit → List Watcher} {i : Nat} {places : List Nat}
  {r : Resolution} {l : Lit} {α : Assignment}

/-- The marks are those of the literals of lower levels and of places below `i` of the current
    level. -/
structure Tracks (p : Propagator) (i : Nat) (places : List Nat) (r : Resolution) : Prop where
  marks_size : r.marks.size = p.trail.numVars
  marks : ∀ v, markOf r.marks v = .unseen ∨ markOf r.marks v = .source
  marked : ∀ v, markOf r.marks v ≠ .unseen ↔
    v ∈ r.lower.toList.map Lit.var ∨ ∃ j ∈ places, (p.trail.litAt j).var = v
  nodup : places.Nodup
  pending : r.pending = places.length
  places : ∀ j ∈ places, j < i ∧ j < p.trail.size ∧
    p.trail.levelOf (p.trail.litAt j) = p.trail.level
  lower : ∀ l ∈ r.lower, p.trail.isFalse l = true ∧ 0 < p.trail.levelOf l ∧
    p.trail.levelOf l < p.trail.level
  lower_nodup : (r.lower.toList.map Lit.var).Nodup

/-- The false literal was found: it is on the ground level, among the literals of lower levels, or
    its complement is at one of the places. -/
def Found (p : Propagator) (places : List Nat) (r : Resolution) (l : Lit) : Prop :=
  p.trail.levelOf l = 0 ∨ l ∈ r.lower ∨ ∃ j ∈ places, p.trail.litAt j = l.negate

/-- A literal of the current level is taken up. -/
theorem Tracks.addPlace (h : Tracks p i places r) {j : Nat} (hji : j < i) (hj : j < p.trail.size)
    (hlevel : p.trail.levelOf (p.trail.litAt j) = p.trail.level)
    (hlt : (p.trail.litAt j).var < r.marks.size)
    (hunseen : markOf r.marks (p.trail.litAt j).var = .unseen) (seen : Array Nat) :
    Tracks p i (j :: places)
      ⟨r.marks.setIfInBounds (p.trail.litAt j).var .source, r.lower, r.pending + 1, r.usedClauses,
        seen⟩ := by
  have hunmarked := (h.marked (p.trail.litAt j).var).not.1 (not_not.2 hunseen)
  refine ⟨?_, fun v => ?_, fun v => ?_, ?_, ?_, ?_, h.lower, h.lower_nodup⟩
  · rw [Array.size_setIfInBounds]
    exact h.marks_size
  · rw [markOf_set hlt]
    split
    · exact .inr rfl
    · exact h.marks v
  · rw [markOf_set hlt]
    simp only [List.mem_cons, exists_eq_or_imp]
    split
    · rename_i hv
      simp [hv]
    · rename_i hv
      rw [h.marked]
      exact or_congr_right ⟨.inr, fun hj => hj.resolve_left fun he => hv he.symm⟩
  · exact List.nodup_cons.2 ⟨fun hmem => hunmarked (.inr ⟨j, hmem, rfl⟩), h.nodup⟩
  · rw [List.length_cons, ← h.pending]
  · intro k hk
    rcases List.mem_cons.1 hk with rfl | hk
    · exact ⟨hji, hj, hlevel⟩
    · exact h.places k hk

/-- A literal of a lower level is taken up. -/
theorem Tracks.addLower (h : Tracks p i places r) (hfalse : p.trail.isFalse l = true)
    (hpos : 0 < p.trail.levelOf l) (hlevel : p.trail.levelOf l < p.trail.level)
    (hlt : l.var < r.marks.size) (hunseen : markOf r.marks l.var = .unseen) (seen : Array Nat) :
    Tracks p i places
      ⟨r.marks.setIfInBounds l.var .source, r.lower.push l, r.pending, r.usedClauses, seen⟩ := by
  have hunmarked := (h.marked l.var).not.1 (not_not.2 hunseen)
  refine ⟨?_, fun v => ?_, fun v => ?_, h.nodup, h.pending, h.places, ?_, ?_⟩
  · rw [Array.size_setIfInBounds]
    exact h.marks_size
  · rw [markOf_set hlt]
    split
    · exact .inr rfl
    · exact h.marks v
  · rw [markOf_set hlt]
    simp only [Array.toList_push, List.map_append, List.mem_append, List.map_cons, List.map_nil,
      List.mem_singleton]
    split
    · rename_i hv
      simp [hv]
    · rename_i hv
      rw [h.marked]
      simp [hv]
  · intro m hm
    rcases Array.mem_push.1 hm with hm | rfl
    · exact h.lower m hm
    · exact ⟨hfalse, hpos, hlevel⟩
  · simp only [Array.toList_push, List.map_append, List.map_cons, List.map_nil]
    refine List.nodup_append.2 ⟨h.lower_nodup, List.nodup_singleton _, ?_⟩
    rintro v hv w hw rfl
    rw [List.mem_singleton.1 hw] at hv
    exact hunmarked (.inl hv)

/-- A false literal whose variable is marked was found before. -/
theorem Tracks.found_of_marked (h : Tracks p i places r) (ht : p.trail.Ok)
    (hfalse : p.trail.isFalse l = true) (hmark : markOf r.marks l.var ≠ .unseen) :
    Found p places r l := by
  rcases (h.marked _).1 hmark with hm | ⟨k, hk, hv⟩
  · obtain ⟨m, hm, hv⟩ := List.mem_map.1 hm
    have hm' : m ∈ r.lower := Array.mem_toList_iff.1 hm
    exact .inr (.inl (ht.eq_of_isFalse (h.lower m hm').1 hfalse hv ▸ hm'))
  · exact .inr (.inr ⟨k, hk, ht.litAt_eq_negate (h.places k hk).2.1 hfalse hv⟩)

theorem addLit_spec (ht : p.trail.Ok) (hi : i ≤ p.trail.size) (h : Tracks p i places r)
    (hl : ∃ j < i, p.trail.litAt j = l.negate) :
    ∃ more, Tracks p i (more ++ places) (addLit p.trail r l) ∧
      (∀ m ∈ r.lower, m ∈ (addLit p.trail r l).lower) ∧
      Found p (more ++ places) (addLit p.trail r l) l := by
  obtain ⟨j, hji, hat⟩ := hl
  have hj : j < p.trail.size := Nat.lt_of_lt_of_le hji hi
  have hfalse : p.trail.isFalse l = true := by
    rw [ht.isFalse_iff, ← hat]
    exact Trail.litAt_mem hj
  have hvar : (p.trail.litAt j).var = l.var := by rw [hat, Lit.var_negate]
  have hsame : p.trail.levelOf (p.trail.litAt j) = p.trail.levelOf l := by
    rw [hat, Trail.levelOf_negate]
  have hle := ht.levelOf_le (Trail.litAt_mem hj)
  have hlt : l.var < r.marks.size := by
    rw [h.marks_size, ← hvar]
    exact ht.var_lt _ (Trail.litAt_mem hj)
  unfold addLit
  by_cases hmark : markOf r.marks l.var ≠ .unseen
  · rw [if_pos hmark]
    exact ⟨[], h, fun m hm => hm, h.found_of_marked ht hfalse hmark⟩
  rw [if_neg hmark]
  rw [not_not] at hmark
  by_cases h0 : p.trail.levelOf l = 0
  · simp only [h0, if_true]
    exact ⟨[], h, fun m hm => hm, .inl h0⟩
  simp only [if_neg h0]
  by_cases hcur : p.trail.level ≤ p.trail.levelOf l
  · simp only [if_pos hcur]
    refine ⟨[j], ?_, fun m hm => hm, .inr (.inr ⟨j, List.mem_cons_self, hat⟩)⟩
    rw [← hvar] at hlt hmark ⊢
    exact h.addPlace hji hj (by omega) hlt hmark _
  · simp only [if_neg hcur]
    refine ⟨[], h.addLower hfalse (Nat.pos_of_ne_zero h0) (Nat.lt_of_not_le hcur) hlt hmark _, ?_, ?_⟩
    · exact fun m hm => Array.mem_push.2 (.inl hm)
    · exact .inr (.inl (Array.mem_push.2 (.inr rfl)))

theorem Found.mono {more : List Nat} {r' : Resolution} (h : Found p places r l)
    (hlower : ∀ m ∈ r.lower, m ∈ r'.lower) : Found p (more ++ places) r' l := by
  rcases h with h | h | ⟨j, hj, he⟩
  · exact .inl h
  · exact .inr (.inl (hlower _ h))
  · exact .inr (.inr ⟨j, List.mem_append.2 (.inr hj), he⟩)

theorem addLits_spec (ht : p.trail.Ok) (hi : i ≤ p.trail.size) :
    ∀ (lits : List Lit) (places : List Nat) (r : Resolution), Tracks p i places r →
    (∀ l ∈ lits, ∃ j < i, p.trail.litAt j = l.negate) →
    ∃ more, Tracks p i (more ++ places) (r.addLits p.trail lits) ∧
      (∀ m ∈ r.lower, m ∈ (r.addLits p.trail lits).lower) ∧
      ∀ l ∈ lits, Found p (more ++ places) (r.addLits p.trail lits) l
  | [], places, r, h, _ => ⟨[], h, fun _ hm => hm, by simp⟩
  | l :: rest, places, r, h, hlits => by
    obtain ⟨more, h1, hlower1, hfound1⟩ := addLit_spec ht hi h (hlits l List.mem_cons_self)
    obtain ⟨more', h2, hlower2, hfound2⟩ := addLits_spec ht hi rest (more ++ places) _ h1
      fun m hm => hlits m (List.mem_cons_of_mem _ hm)
    refine ⟨more' ++ more, ?_, fun m hm => hlower2 m (hlower1 m hm), fun m hm => ?_⟩
    · rw [List.append_assoc]
      exact h2
    · rw [List.append_assoc]
      rcases List.mem_cons.1 hm with rfl | hm
      · exact hfound1.mono hlower2
      · exact hfound2 m hm

/-- Every model makes a literal of a lower level true or the literal at one of the places false. -/
def Entails (p : Propagator) (places : List Nat) (r : Resolution) : Prop :=
  ∀ α, p.Models α → (∃ l ∈ r.lower, l.Holds α) ∨ ∃ j ∈ places, ¬ (p.trail.litAt j).Holds α

/-- A true literal that was found is on the ground level or makes the clause under construction
    true. -/
theorem Found.holds (h : Found p places r l) (ht : p.trail.Ok) (hfalse : p.trail.isFalse l = true)
    (hα : p.Models α) (hl : l.Holds α) :
    (∃ l ∈ r.lower, l.Holds α) ∨ ∃ j ∈ places, ¬ (p.trail.litAt j).Holds α := by
  rcases h with h0 | h | ⟨j, hj, he⟩
  · have := hα.ground _ ((ht.isFalse_iff l).1 hfalse) (by simpa using h0)
    rw [Lit.holds_negate] at this
    exact absurd hl this
  · exact .inl ⟨l, h, hl⟩
  · refine .inr ⟨j, hj, ?_⟩
    rw [he, Lit.holds_negate]
    exact not_not.2 hl

/-- A literal of a lower level has another variable than one of the current level. -/
theorem Tracks.notMem_lower (h : Tracks p i places r)
    (hlevel : p.trail.level ≤ p.trail.levelOf l) : l.var ∉ r.lower.toList.map Lit.var := by
  intro hm
  obtain ⟨m, hm, hv⟩ := List.mem_map.1 hm
  have hlow := (h.lower m (Array.mem_toList_iff.1 hm)).2.2
  have hsame : p.trail.levelOf m = p.trail.levelOf l := by
    simp only [Trail.levelOf, hv]
  omega

/-- The highest marked literal is at one of the places. -/
theorem Tracks.mem_places (h : Tracks p (i + 1) places r) (ht : p.trail.Ok) (hi : i < p.trail.size)
    (hmark : markOf r.marks (p.trail.litAt i).var ≠ .unseen) (hne : places ≠ []) : i ∈ places := by
  obtain ⟨j, hj⟩ := List.exists_mem_of_ne_nil _ hne
  obtain ⟨hji, hjs, hjl⟩ := h.places j hj
  -- lower levels are further down than the places that are left
  have hhigh : p.trail.level ≤ p.trail.levelOf (p.trail.litAt i) := by
    have hmono := p.trail.levelAt_mono (show j ≤ i by omega)
    rw [ht.levelOf_litAt j hjs] at hjl
    rw [ht.levelOf_litAt i hi]
    omega
  obtain ⟨k, hk, hv⟩ := ((h.marked _).1 hmark).resolve_left (h.notMem_lower hhigh)
  rw [← ht.litAt_inj (h.places k hk).2.1 hi hv]
  exact hk

/-- The mark of the literal at the highest of the places is taken away. -/
theorem Tracks.unmark (h : Tracks p (i + 1) places r) (ht : p.trail.Ok) (hmem : i ∈ places) :
    Tracks p i (places.erase i)
      { r with
        marks := r.marks.setIfInBounds (p.trail.litAt i).var .unseen
        pending := r.pending - 1 } := by
  obtain ⟨-, hi, hlevel⟩ := h.places i hmem
  have hlt : (p.trail.litAt i).var < r.marks.size := by
    rw [h.marks_size]
    exact ht.var_lt _ (Trail.litAt_mem hi)
  have hlower := h.notMem_lower (Nat.le_of_eq hlevel.symm)
  have herase : ∀ {k}, k ∈ places.erase i ↔ k ≠ i ∧ k ∈ places := List.Nodup.mem_erase_iff h.nodup
  refine ⟨?_, fun v => ?_, fun v => ?_, h.nodup.erase i, ?_, ?_, h.lower, h.lower_nodup⟩
  · rw [Array.size_setIfInBounds]
    exact h.marks_size
  · rw [markOf_set hlt]
    split
    · exact .inl rfl
    · exact h.marks v
  · rw [markOf_set hlt]
    split
    · rename_i hv
      subst hv
      refine iff_of_false (by simp) ?_
      rintro (hm | ⟨k, hk, hv⟩)
      · exact hlower hm
      · obtain ⟨hki, hk'⟩ := herase.1 hk
        exact hki (ht.litAt_inj (h.places k hk').2.1 hi hv)
    · rename_i hv
      rw [h.marked]
      apply or_congr_right
      constructor
      · rintro ⟨k, hk, he⟩
        exact ⟨k, herase.2 ⟨fun hki => hv (by rw [← he, hki]), hk⟩, he⟩
      · rintro ⟨k, hk, he⟩
        exact ⟨k, (herase.1 hk).2, he⟩
  · simp [h.pending, List.length_erase_of_mem hmem]
  · intro k hk
    obtain ⟨hki, hk'⟩ := herase.1 hk
    obtain ⟨hlt, hrest⟩ := h.places k hk'
    exact ⟨by omega, hrest⟩

/-- A place whose literal is not marked is none of the places. -/
theorem Tracks.skip (h : Tracks p (i + 1) places r)
    (hmark : markOf r.marks (p.trail.litAt i).var = .unseen) : Tracks p i places r := by
  refine { h with places := fun j hj => ?_ }
  obtain ⟨hji, hjs⟩ := h.places j hj
  refine ⟨Nat.lt_of_le_of_ne (by omega) ?_, hjs⟩
  rintro rfl
  exact (h.marked _).2 (.inr ⟨j, hj, rfl⟩) hmark

/-- What a walk down the trail comes to: a false literal of the current level and the literals of
    lower levels, one of which every model makes true. -/
structure Walked (p : Propagator) (head : Lit) (r : Resolution) : Prop where
  tracks : ∃ i, Tracks p i [] r
  isFalse : p.trail.isFalse head = true
  level : p.trail.levelOf head = p.trail.level
  entails : ∀ α, p.Models α → head.Holds α ∨ ∃ l ∈ r.lower, l.Holds α

/-- The walk ends at the last of the places. -/
theorem Tracks.walked (h : Tracks p i (places.erase i) r) (ht : p.trail.Ok) (hi : i < p.trail.size)
    (hlevel : p.trail.levelOf (p.trail.litAt i) = p.trail.level) (hpending : r.pending = 0)
    (hentails : Entails p places r) : Walked p (p.trail.litAt i).negate r := by
  have hnil : places.erase i = [] := by
    rw [← List.length_eq_zero_iff, ← h.pending]
    exact hpending
  refine ⟨⟨i, hnil ▸ h⟩, ?_, ?_, fun α hα => ?_⟩
  · rw [ht.isFalse_eq, Lit.negate_negate]
    exact ht.isTrue_litAt hi
  · rw [Trail.levelOf_negate]
    exact hlevel
  · rcases hentails α hα with hl | ⟨j, hj, hnot⟩
    · exact .inr hl
    · by_cases hji : j = i
      · rw [hji] at hnot
        exact .inl (Lit.holds_negate.2 hnot)
      · have hmem := (List.mem_erase_of_ne hji).2 hj
        rw [hnil] at hmem
        cases hmem

/-- Resolving with the reason of the literal at a place. -/
theorem Entails.resolve (hentails : Entails p places r) (h : p.Ok lists) (hi : i < p.trail.size)
    {reason : ClauseRef} (hf : p.Forces reason i) {more : List Nat} {r' : Resolution}
    (hlower : ∀ m ∈ r.lower, m ∈ r'.lower)
    (hfound : ∀ l ∈ otherLits p.arena reason, Found p (more ++ places.erase i) r' l) :
    Entails p (more ++ places.erase i) r' := by
  have hc := h.clause _ hf.live
  intro α hα
  rcases hentails α hα with ⟨l, hl, hholds⟩ | ⟨j, hj, hnot⟩
  · exact .inl ⟨l, hlower l hl, hholds⟩
  by_cases hji : j = i
  · subst hji
    obtain ⟨l, hl, hholds⟩ := hα.clause _ hf.live
    have hne : l ≠ (p.arena.view reason).head := by
      rintro rfl
      rw [hf.head] at hholds
      exact hnot hholds
    have hother : l ∈ otherLits p.arena reason := hc.mem_drop_one.2 ⟨hl, hne⟩
    obtain ⟨k, hk, he⟩ := hf.others_before hc hother
    have hfalse : p.trail.isFalse l = true := by
      rw [h.trail.isFalse_iff, ← he]
      exact Trail.litAt_mem (Nat.lt_trans hk hi)
    exact (hfound l hother).holds h.trail hfalse hα hholds
  · exact .inr ⟨j, List.mem_append.2 (.inr ((List.mem_erase_of_ne hji).2 hj)), hnot⟩

/-- A literal of the current level that is not the only one left has a reason. -/
theorem Tracks.exists_reason (h : Tracks p i (places.erase i) r) (hok : p.Ok lists)
    (hpos : 0 < p.trail.level) (hi : i < p.trail.size)
    (hlevel : p.trail.levelOf (p.trail.litAt i) = p.trail.level) (hpending : r.pending ≠ 0) :
    ∃ reason, p.trail.reasonOf (p.trail.litAt i) = some reason ∧ p.Forces reason i := by
  apply (hok.reason i hi (hlevel ▸ hpos)).resolve_left
  rintro ⟨-, hbottom⟩
  -- the decision of the level has no other literal of the level before it
  have hne : places.erase i ≠ [] := fun hnil => hpending (by rw [h.pending, hnil]; rfl)
  obtain ⟨j, hj⟩ := List.exists_mem_of_ne_nil _ hne
  obtain ⟨hji, hjs, hjl⟩ := h.places j hj
  have hle := hok.trail.bottom_le hjs (hjl ▸ hpos)
  rw [hjl, ← hlevel, hbottom] at hle
  omega

/-- Paths of the current level are still open: some of its places below `i` are to be reached. -/
def Open (p : Propagator) (i : Nat) (r : Resolution) : Prop :=
  i ≤ p.trail.size ∧ ∃ places, Tracks p i places r ∧ places ≠ [] ∧ Entails p places r

/-- The resolution after the literal at place `i` was reached. -/
def reach (trail : Trail) (r : Resolution) (i : Nat) : Resolution :=
  { r with
    marks := r.marks.setIfInBounds (trail.litAt i).var .unseen
    pending := r.pending - 1 }

namespace Open

theorem not_zero (h : Open p 0 r) : False := by
  obtain ⟨-, places, htracks, hne, -⟩ := h
  obtain ⟨j, hj⟩ := List.exists_mem_of_ne_nil _ hne
  exact absurd (htracks.places j hj).1 (Nat.not_lt_zero j)

/-- The walk stays on the places of the current level. -/
theorem bottom_lt (h : Open p i r) (ht : p.trail.Ok) (hpos : 0 < p.trail.level) :
    p.trail.bottom p.trail.level < i := by
  obtain ⟨-, places, htracks, hne, -⟩ := h
  obtain ⟨j, hj⟩ := List.exists_mem_of_ne_nil _ hne
  obtain ⟨hji, hjs, hjl⟩ := htracks.places j hj
  have hle := ht.bottom_le hjs (hjl ▸ hpos)
  rw [hjl] at hle
  omega

theorem skip (h : Open p (i + 1) r)
    (hmark : markOf r.marks (p.trail.litAt i).var = .unseen) : Open p i r := by
  obtain ⟨hi, places, htracks, hne, hentails⟩ := h
  exact ⟨Nat.le_of_succ_le hi, places, htracks.skip hmark, hne, hentails⟩

/-- At the last of the places the walk comes to its end. -/
theorem walked (h : Open p (i + 1) r) (ht : p.trail.Ok)
    (hmark : markOf r.marks (p.trail.litAt i).var ≠ .unseen)
    (hpending : (reach p.trail r i).pending = 0) :
    Walked p (p.trail.litAt i).negate (reach p.trail r i) := by
  obtain ⟨hi, places, htracks, hne, hentails⟩ := h
  have hmem := htracks.mem_places ht hi hmark hne
  exact (htracks.unmark ht hmem).walked ht hi (htracks.places i hmem).2.2 hpending hentails

/-- While other places are open, a marked literal has a reason. -/
theorem exists_reason (h : Open p (i + 1) r) (hok : p.Ok lists) (hpos : 0 < p.trail.level)
    (hmark : markOf r.marks (p.trail.litAt i).var ≠ .unseen)
    (hpending : (reach p.trail r i).pending ≠ 0) :
    ∃ reason, p.trail.reasonOf (p.trail.litAt i) = some reason ∧ p.Forces reason i := by
  obtain ⟨hi, places, htracks, hne, -⟩ := h
  have hmem := htracks.mem_places hok.trail hi hmark hne
  exact (htracks.unmark hok.trail hmem).exists_reason hok hpos hi (htracks.places i hmem).2.2
    hpending

/-- Resolving with a reason leaves paths open. -/
theorem resolve (h : Open p (i + 1) r) (hok : p.Ok lists)
    (hmark : markOf r.marks (p.trail.litAt i).var ≠ .unseen)
    (hpending : (reach p.trail r i).pending ≠ 0) {reason : ClauseRef} (hf : p.Forces reason i) :
    Open p i ((reach p.trail r i).addClause p.trail p.arena reason false) := by
  obtain ⟨hi, places, htracks, hne, hentails⟩ := h
  have hmem := htracks.mem_places hok.trail hi hmark hne
  have hreached := htracks.unmark hok.trail hmem
  have hused : Tracks p i (places.erase i)
      { reach p.trail r i with usedClauses := r.usedClauses.push reason } :=
    ⟨hreached.marks_size, hreached.marks, hreached.marked, hreached.nodup, hreached.pending,
      hreached.places, hreached.lower, hreached.lower_nodup⟩
  obtain ⟨more, hadded, hlower, hfound⟩ := addLits_spec hok.trail (Nat.le_of_succ_le hi)
    (otherLits p.arena reason) _ _ hused
    fun l hl => hf.others_before (hok.clause _ hf.live) hl
  refine ⟨Nat.le_of_succ_le hi, more ++ places.erase i, hadded, fun hnil => ?_,
    hentails.resolve hok hi hf hlower hfound⟩
  apply hpending
  rw [show (reach p.trail r i).pending = (places.erase i).length from hreached.pending,
    (List.append_eq_nil_iff.1 hnil).2]
  rfl

end Open

/-- A false clause forces no literal. -/
theorem ne_conflict_of_forces (h : p.Ok lists) {conflict reason : ClauseRef}
    (hconflict : p.IsConflict conflict) (hi : i < p.trail.size) (hf : p.Forces reason i) :
    (reason == conflict) = false := by
  rw [beq_eq_false_iff_ne]
  rintro rfl
  have hfalse := hconflict.isFalse _ (h.clause _ hf.live).head_mem
  rw [hf.head, Trail.isTrue_not_isFalse (h.trail.isTrue_litAt hi)] at hfalse
  cases hfalse

theorem walk_spec (h : p.Ok lists) (hpos : 0 < p.trail.level) {conflict : ClauseRef}
    (hconflict : p.IsConflict conflict) : ∀ (i : Nat) (r : Resolution), Open p i r →
      Walked p (walk p.trail p.arena conflict i r).1 (walk p.trail p.arena conflict i r).2
  | 0, _, hr => hr.not_zero.elim
  | i + 1, r, hr => by
    unfold walk
    simp only
    split
    · rename_i hmark
      exact walk_spec h hpos hconflict i r (hr.skip hmark)
    rename_i hmark
    split
    · rename_i hzero
      exact hr.walked h.trail hmark hzero
    rename_i hpending
    obtain ⟨reason, hreason, hf⟩ := hr.exists_reason h hpos hmark hpending
    simp only [hreason, ne_conflict_of_forces h hconflict hr.1 hf]
    exact walk_spec h hpos hconflict i _ (hr.resolve h hmark hpending hf)

/-- A conflict leaves paths open: one of its literals belongs to the current level. -/
theorem open_of_conflict (h : p.Ok lists) (hpos : 0 < p.trail.level) {conflict : ClauseRef}
    (hconflict : p.IsConflict conflict) {marks : Marks} (hsize : marks.size = p.trail.numVars)
    (hclear : ∀ v, markOf marks v = .unseen) :
    Open p p.trail.size (addClause p.trail p.arena ⟨marks, #[], 0, #[], #[]⟩ conflict true) := by
  have hc := h.clause _ hconflict.live
  have hstart : Tracks p p.trail.size [] ⟨marks, #[], 0, #[].push conflict, #[]⟩ :=
    ⟨hsize, fun v => .inl (hclear v), fun v => by simp [hclear v], List.nodup_nil, rfl, by simp,
      by simp, by simp⟩
  have hlits : ∀ l ∈ (p.arena.view conflict).lits.toList,
      ∃ j < p.trail.size, p.trail.litAt j = l.negate := fun l hl =>
    Trail.exists_litAt ((h.trail.isFalse_iff l).1 (hconflict.isFalse l (by simpa using hl)))
  obtain ⟨more, htracks, -, hfound⟩ := addLits_spec h.trail (Nat.le_refl _) _ _ _ hstart hlits
  refine ⟨Nat.le_refl _, more ++ [], htracks, ?_, fun α hα => ?_⟩
  · obtain ⟨l, hl, hlevel⟩ := hconflict.current
    rcases hfound l (by simpa using hl) with h0 | hlow | ⟨j, hj, -⟩
    · omega
    · have := (htracks.lower l hlow).2.2
      omega
    · exact List.ne_nil_of_mem hj
  · obtain ⟨l, hl, hholds⟩ := hα.clause _ hconflict.live
    exact (hfound l (by simpa using hl)).holds h.trail (hconflict.isFalse l hl) hα hholds

/-- **Resolving a conflict ends with a clause that every model satisfies**, of which one literal
    belongs to the current level. -/
theorem walk_of_conflict (h : p.Ok lists) (hpos : 0 < p.trail.level) {conflict : ClauseRef}
    (hconflict : p.IsConflict conflict) {marks : Marks} (hsize : marks.size = p.trail.numVars)
    (hclear : ∀ v, markOf marks v = .unseen) {head : Lit} {r : Resolution}
    (hr : walk p.trail p.arena conflict p.trail.size
      (addClause p.trail p.arena ⟨marks, #[], 0, #[], #[]⟩ conflict true) = (head, r)) :
    Walked p head r := by
  have hspec := walk_spec h hpos hconflict p.trail.size _
    (open_of_conflict h hpos hconflict hsize hclear)
  rw [hr] at hspec
  exact hspec

end Resolution

end ConfigSampler
