import ConfigSampler.Proofs.HeapContents
import ConfigSampler.Proofs.TrailOrder
import ConfigSampler.Solver.DecisionQueue

/-!
# Variables that wait for a decision

`DecisionQueue.Waits` says that the variables of a kind wait in the queue.  If all variables without
a value do, a choice is one of them, and no choice is left only when every variable has a value
(`DecisionQueue.pickLit_spec`), however activities and ranks stand.
-/

set_option autoImplicit false

namespace ConfigSampler

namespace Random

/-- Shuffling keeps the items, each as often as before. -/
theorem perm_shuffleFrom {α : Type} : ∀ (n : Nat) (items : Array α) (r : Random),
    (shuffleFrom n items r).1.Perm items
  | 0, items, _ => .refl items
  | n + 1, items, r => by
    unfold shuffleFrom
    apply (perm_shuffleFrom n _ _).trans
    rw [Array.swapIfInBounds_def]
    split
    · split
      · exact Array.swap_perm _ _
      · exact .refl items
    · exact .refl items

theorem perm_shuffle {α : Type} (items : Array α) (r : Random) : (r.shuffle items).1.Perm items :=
  perm_shuffleFrom _ items r

end Random

namespace DecisionQueue

variable {q : DecisionQueue} {n v : Nat} {wanted wanted' : Nat → Prop} {t : Trail}

/-- The wanted ones of the first `n` variables wait, and no others than these `n` do. -/
structure Waits (q : DecisionQueue) (n : Nat) (wanted : Nat → Prop) : Prop where
  heap : q.heap.Ok
  numVars : q.numVars = n
  bound : ∀ v ∈ q.heap.keys, v < n
  mem : ∀ v < n, wanted v → v ∈ q.heap.keys

theorem Waits.mono (h : Waits q n wanted) (hw : ∀ v < n, wanted' v → wanted v) :
    Waits q n wanted' := ⟨h.heap, h.numVars, h.bound, fun v hv hm => h.mem v hv (hw v hv hm)⟩

theorem waits_empty (settings : DecisionSettings) : Waits (empty settings) 0 wanted :=
  ⟨KeyHeap.ok_empty, rfl, by simp [empty, KeyHeap.empty], fun v hv => absurd hv (Nat.not_lt_zero v)⟩

theorem Waits.insert (h : Waits q n wanted) (hv : v < n) :
    Waits (q.insert v) n fun w => w = v ∨ wanted w := by
  obtain ⟨hok, hmem⟩ := KeyHeap.insert_spec (before q.activities q.ranks) h.heap v
  refine ⟨hok, h.numVars, fun w hw => ?_, fun w hw hm => (hmem w).2 ?_⟩
  · rcases (hmem w).1 hw with rfl | hw
    · exact hv
    · exact h.bound w hw
  · exact hm.imp id (h.mem w hw)

theorem Waits.insertAll : ∀ (vars : List Nat) {q : DecisionQueue} {wanted : Nat → Prop},
    Waits q n wanted → (∀ v ∈ vars, v < n) → Waits (q.insertAll vars) n fun w => w ∈ vars ∨ wanted w
  | [], _, _, h, _ => h.mono fun w _ hw => hw.resolve_left (by simp)
  | v :: vars, q, wanted, h, hvars => by
    have hrest := Waits.insertAll vars (h.insert (hvars v (by simp)))
      fun w hw => hvars w (List.mem_cons_of_mem _ hw)
    exact hrest.mono fun w _ hw => by
      rw [List.mem_cons, or_assoc, or_left_comm] at hw
      exact hw

theorem Waits.bump (h : Waits q n wanted) (v : Nat) : Waits (q.bump v) n wanted := by
  unfold DecisionQueue.bump
  simp only
  split
  · have harr := KeyHeap.update_spec (before ((q.activities.map (· * 1e-100)).setIfInBounds v
      ((q.activities.getD v 0 + q.increment) * 1e-100)) q.ranks) h.heap v
    exact ⟨harr.ok, h.numVars, fun w hw => h.bound w (harr.mem_iff.1 hw),
      fun w hw hm => harr.mem_iff.2 (h.mem w hw hm)⟩
  · have harr := KeyHeap.update_spec (before (q.activities.setIfInBounds v
      (q.activities.getD v 0 + q.increment)) q.ranks) h.heap v
    exact ⟨harr.ok, h.numVars, fun w hw => h.bound w (harr.mem_iff.1 hw),
      fun w hw hm => harr.mem_iff.2 (h.mem w hw hm)⟩

theorem Waits.bumpAll : ∀ (vars : List Nat) {q : DecisionQueue}, Waits q n wanted →
    Waits (q.bumpAll vars) n wanted
  | [], _, h => h
  | v :: vars, q, h => by
    rw [DecisionQueue.bumpAll, List.foldl_cons]
    exact Waits.bumpAll vars (h.bump v)

theorem Waits.decay (h : Waits q n wanted) : Waits q.decay n wanted :=
  ⟨h.heap, h.numVars, h.bound, h.mem⟩

theorem waits_rebuild (hq : q.numVars = n) (t : Trail) :
    Waits (q.rebuild t) n fun v => t.isFree v = true := by
  obtain ⟨hok, hmem⟩ := KeyHeap.ofKeys_spec (before q.activities q.ranks)
    (List.nodup_range.filter t.isFree)
  refine ⟨hok, hq, fun v hv => ?_, fun v hv hf => (hmem v).2 ?_⟩
  · have := (hmem v).1 hv
    rw [List.mem_filter, List.mem_range] at this
    omega
  · rw [List.mem_filter, List.mem_range]
    exact ⟨by omega, hf⟩

theorem size_ranksOf (order : Array Nat) : (ranksOf order).size = order.size := by
  have hfold : ∀ (entries : List (Nat × Nat)) (ranks : Array Nat),
      (entries.foldl (fun ranks e => ranks.setIfInBounds e.1 e.2) ranks).size = ranks.size := by
    intro entries
    induction entries with
    | nil =>
      intro ranks
      rfl
    | cons e entries ih =>
      intro ranks
      rw [List.foldl_cons, ih]
      simp
  unfold ranksOf
  exact (hfold _ _).trans Array.size_replicate

theorem waits_shuffle (hq : q.numVars = n) (rand : Random) (t : Trail) :
    Waits (q.shuffle rand t).1 n fun v => t.isFree v = true := by
  refine waits_rebuild (q := _) ?_ t
  show (ranksOf (rand.shuffle (Array.range q.numVars)).1).size = n
  rw [size_ranksOf, (Random.perm_shuffle _ rand).size_eq, Array.size_range, hq]

theorem Waits.newVar (h : Waits q n wanted) : Waits q.newVar (n + 1) fun v => v = n ∨ wanted v := by
  have hn : q.ranks.size = n := h.numVars
  have hinsert : ∀ (rand : Random) (activities : Array Float),
      Waits (DecisionQueue.insert { q with
        rand := rand, ranks := q.ranks.push n, activities := activities } n) (n + 1)
        fun v => v = n ∨ (v < n ∧ wanted v) := by
    intro rand activities
    have hbase : Waits { q with
        rand := rand, ranks := q.ranks.push n, activities := activities } (n + 1)
        fun v => v < n ∧ wanted v :=
      ⟨h.heap, (Array.size_push n).trans (congrArg (· + 1) hn), fun v hv => Nat.lt_succ_of_lt (h.bound v hv),
        fun v _ hm => h.mem v hm.1 hm.2⟩
    exact hbase.insert (Nat.lt_succ_self n)
  have hmono : ∀ v < n + 1, (v = n ∨ wanted v) → v = n ∨ (v < n ∧ wanted v) := by
    rintro v hv (rfl | hm)
    · exact .inl rfl
    · rcases Nat.lt_succ_iff_lt_or_eq.1 hv with hv | rfl
      · exact .inr ⟨hv, hm⟩
      · exact .inl rfl
  unfold DecisionQueue.newVar
  rw [hn]
  split
  exact (hinsert _ _).mono hmono

/-! ## Choosing -/

/-- The outcome of a choice: a variable without a value, after which the others still wait, or none,
    if every variable has a value. -/
def Chooses (t : Trail) (n : Nat) : Option Nat → DecisionQueue → Prop
  | none, q => (∀ v < n, t.isFree v = false) ∧ Waits q n fun v => t.isFree v = true
  | some v, q => v < n ∧ t.isFree v = true ∧ Waits q n fun w => w ≠ v ∧ t.isFree w = true

theorem popFree_spec (t : Trail) : ∀ (fuel : Nat) (q : DecisionQueue),
    (Waits q n fun v => t.isFree v = true) → q.heap.size < fuel →
    Chooses t n (popFree t fuel q).1 (popFree t fuel q).2
  | 0, _, _, hfuel => absurd hfuel (Nat.not_lt_zero _)
  | fuel + 1, q, h, hfuel => by
    unfold popFree
    simp only
    split
    · rename_i hnone
      have hempty := KeyHeap.pop?_eq_none hnone
      have hall : ∀ v < n, t.isFree v = false := by
        intro v hv
        by_contra hf
        exact hempty v (h.mem v hv (by simpa using hf))
      refine ⟨hall, KeyHeap.ok_empty, h.numVars, by simp [KeyHeap.empty], fun v hv hf => ?_⟩
      rw [hall v hv] at hf
      cases hf
    · rename_i v heap hpop
      obtain ⟨hok, hv, hmem, hsize⟩ := KeyHeap.pop?_spec h.heap hpop
      have hbound : ∀ w ∈ heap.keys, w < n := fun w hw => h.bound w ((hmem w).1 hw).1
      split
      · rename_i hfree
        exact ⟨h.bound v hv, hfree, hok, h.numVars, hbound,
          fun w hw hm => (hmem w).2 ⟨h.mem w hw hm.2, hm.1⟩⟩
      · rename_i hfree
        refine popFree_spec t fuel _ ⟨hok, h.numVars, hbound, fun w hw hm => ?_⟩ ?_
        · exact (hmem w).2 ⟨h.mem w hw hm, fun he => hfree (he ▸ hm)⟩
        · have : heap.size < fuel := by omega
          exact this

theorem pickRandom_spec (h : Waits q n wanted) : Waits q.pickRandom.2 n wanted ∧
    ∀ v, q.pickRandom.1 = some v → v < n := by
  unfold pickRandom
  simp only
  split
  · rename_i hchance
    simp only [Bool.and_eq_true, Bool.not_eq_true'] at hchance
    refine ⟨⟨h.heap, h.numVars, h.bound, h.mem⟩, fun v hv => ?_⟩
    -- a place past the end reads as the first variable, which there is as the queue is not empty
    generalize ((q.rand.chance q.settings.randomFrequency).2.below q.heap.size).1 = i at hv
    cases hv
    have hpos : 0 < q.heap.size := by
      have := hchance.2
      rw [KeyHeap.isEmpty, Array.isEmpty_eq_false_iff_exists_mem] at this
      obtain ⟨v, hv⟩ := this
      exact Array.size_pos_of_mem hv
    by_cases hi : i < q.heap.size
    · exact h.bound _ (KeyHeap.mem_keys_iff.2 ⟨i, hi, rfl⟩)
    · have hzero : q.heap.keyAt i = 0 := by
        have : ¬ i < q.heap.keys.size := hi
        simp [KeyHeap.keyAt, Array.getD_eq_getD_getElem?, this]
      have := h.bound _ (KeyHeap.mem_keys_iff.2 ⟨0, hpos, rfl⟩)
      omega
  · exact ⟨⟨h.heap, h.numVars, h.bound, h.mem⟩, by simp⟩

theorem pickVar_spec (h : Waits q n fun v => t.isFree v = true) :
    Chooses t n (q.pickVar t).1 (q.pickVar t).2 := by
  obtain ⟨hw, hlt⟩ := pickRandom_spec h
  unfold pickVar
  generalize q.pickRandom = out at *
  obtain ⟨candidate, q⟩ := out
  dsimp only at *
  split
  · rename_i v
    split
    · rename_i hfree
      exact ⟨hlt v rfl, hfree, hw.heap, hw.numVars, hw.bound, fun w hv hm => hw.mem w hv hm.2⟩
    · exact popFree_spec t _ _ hw (Nat.lt_succ_self _)
  · exact popFree_spec t _ _ hw (Nat.lt_succ_self _)

/-- **Every variable without a value waits**, so the search runs out of choices only when every
    variable has one. -/
theorem pickLit_spec (h : Waits q n fun v => t.isFree v = true) :
    Chooses t n ((q.pickLit t).1.map Lit.var) (q.pickLit t).2 := by
  have hspec := pickVar_spec h
  unfold pickLit
  generalize q.pickVar t = out at *
  obtain ⟨choice, q⟩ := out
  cases choice with
  | none => exact hspec
  | some v =>
    dsimp only at *
    obtain ⟨hv, hfree, hw⟩ := hspec
    split <;> rw [Option.map_some, Lit.var_ofVar]
    · exact ⟨hv, hfree, hw⟩
    · exact ⟨hv, hfree, hw⟩
    · exact ⟨hv, hfree, hw.heap, hw.numVars, hw.bound, hw.mem⟩

end DecisionQueue

end ConfigSampler
