import ConfigSampler.Solver.KeyHeap
import Mathlib.Data.List.Nodup

/-!
# What a heap holds

`KeyHeap.Ok` says that the table of places is right: each key is where its place says, and only keys
of the heap have one.  Sifting moves a *hole*, the one position whose key has no right place yet;
`KeyHeap.OkExcept` is the invariant around it.  Each operation is described by the keys it leaves,
whatever order the heap is in.
-/

set_option autoImplicit false

namespace ConfigSampler

namespace SparseTable

variable {α : Type} {t : SparseTable α} {key k : Nat} {value : α}

theorem get?_insert (t : SparseTable α) (key : Nat) (value : α) (k : Nat) :
    (t.insert key value).get? k = if k = key then some value else t.get? k := by
  unfold insert
  split
  · rename_i hlt
    simp only [get?, Array.getElem?_setIfInBounds]
    by_cases hk : key = k
    · subst hk; simp [hlt]
    · simp [hk, Ne.symm hk]
  · rename_i hge
    have hsize : (reserve t.slots key).size = key := by
      simp only [reserve, Array.size_append, Array.size_replicate]; omega
    simp only [get?, Array.getElem?_push, hsize]
    split
    · rfl
    · rename_i hk
      simp only [reserve, Array.getElem?_append, Array.getElem?_replicate]
      split
      · rfl
      · rename_i hks
        rw [Array.getElem?_eq_none (by omega)]
        split <;> rfl

theorem get?_erase (t : SparseTable α) (key k : Nat) :
    (t.erase key).get? k = if k = key then none else t.get? k := by
  simp only [get?, erase, Array.getElem?_setIfInBounds]
  by_cases hk : key = k
  · subst hk
    by_cases hlt : key < t.slots.size <;> simp [hlt]
  · simp [hk, Ne.symm hk]

theorem contains_iff : t.contains key = true ↔ ∃ value, t.get? key = some value :=
  Option.isSome_iff_exists

end SparseTable

namespace KeyHeap

variable {before : Nat → Nat → Bool} {h h' : KeyHeap} {i j key : Nat}

theorem keyAt_eq (hi : i < h.keys.toList.length) : h.keyAt i = h.keys.toList[i] := by
  have : i < h.keys.size := hi
  simp [keyAt, Array.getD_eq_getD_getElem?, this]

theorem mem_keys_iff : key ∈ h.keys ↔ ∃ i < h.size, h.keyAt i = key := by
  rw [← Array.mem_toList_iff, List.mem_iff_getElem]
  constructor
  · rintro ⟨i, hi, rfl⟩
    exact ⟨i, by simpa [size] using hi, keyAt_eq (by simpa [size] using hi)⟩
  · rintro ⟨i, hi, rfl⟩
    exact ⟨i, by simpa [size] using hi, (keyAt_eq hi).symm⟩

/-- The table of places is right, except that the key at the hole may have a wrong place or none. -/
structure OkExcept (hole : Nat) (h : KeyHeap) : Prop where
  nodup : h.keys.toList.Nodup
  place : ∀ i < h.size, i ≠ hole → h.places.get? (h.keyAt i) = some i
  only : ∀ key i, h.places.get? key = some i → key ∈ h.keys

/-- Each key has the right place, and nothing else has one. -/
structure Ok (h : KeyHeap) : Prop where
  nodup : h.keys.toList.Nodup
  place : ∀ i < h.size, h.places.get? (h.keyAt i) = some i
  only : ∀ key i, h.places.get? key = some i → key ∈ h.keys

theorem Ok.except (hh : Ok h) (hole : Nat) : OkExcept hole h :=
  ⟨hh.nodup, fun i hi _ => hh.place i hi, hh.only⟩

theorem Ok.contains_iff (hh : Ok h) : h.contains key = true ↔ key ∈ h.keys := by
  rw [contains, SparseTable.contains_iff]
  constructor
  · rintro ⟨i, hi⟩
    exact hh.only key i hi
  · intro hk
    obtain ⟨i, hi, rfl⟩ := mem_keys_iff.1 hk
    exact ⟨i, hh.place i hi⟩

theorem Ok.keyAt_of_get? (hh : Ok h) (hk : h.places.get? key = some i) :
    i < h.size ∧ h.keyAt i = key := by
  obtain ⟨j, hj, rfl⟩ := mem_keys_iff.1 (hh.only key i hk)
  rw [hh.place j hj] at hk
  cases hk
  exact ⟨hj, rfl⟩

theorem keyAt_inj (hn : h.keys.toList.Nodup) (hi : i < h.size) (hj : j < h.size)
    (he : h.keyAt i = h.keyAt j) : i = j := by
  rw [keyAt_eq hi, keyAt_eq hj] at he
  exact (List.Nodup.getElem_inj_iff hn).1 he

/-! ## Sifting -/

theorem OkExcept.note (hh : OkExcept i h) (hi : i < h.size) : Ok (h.note i) := by
  have hkey : h.keys.getD i 0 = h.keyAt i := rfl
  refine ⟨hh.nodup, fun j hj => ?_, fun key j hk => ?_⟩
  · show (h.places.insert (h.keys.getD i 0) i).get? (h.keyAt j) = some j
    rw [SparseTable.get?_insert, hkey]
    split
    · rename_i he
      rw [keyAt_inj hh.nodup hj hi he]
    · rename_i he
      exact hh.place j hj fun hji => he (by rw [hji])
  · have hk' : (h.places.insert (h.keys.getD i 0) i).get? key = some j := hk
    rw [SparseTable.get?_insert, hkey] at hk'
    split at hk'
    · rename_i he
      exact mem_keys_iff.2 ⟨i, hi, he.symm⟩
    · exact hh.only key j hk'

theorem exchange_keys (hi : i < h.size) (hj : j < h.size) :
    (h.exchange i j).keys.toList.Perm h.keys.toList ∧
    ∀ k, (h.exchange i j).keyAt k =
      if k = j then h.keyAt i else if k = i then h.keyAt j else h.keyAt k := by
  have hi' : i < h.keys.size := hi
  have hj' : j < h.keys.size := hj
  have hswap : (h.exchange i j).keys = h.keys.swap i j := by
    simp [exchange, Array.swapIfInBounds_def, hi', hj']
  refine ⟨by rw [hswap]; exact (Array.swap_perm _ _).toList, fun k => ?_⟩
  simp only [keyAt, hswap, Array.getD_eq_getD_getElem?, Array.getElem?_swap]
  grind

theorem OkExcept.exchange (hh : OkExcept i h) (hi : i < h.size) (hj : j < h.size) :
    OkExcept j (h.exchange i j) := by
  obtain ⟨hperm, hat⟩ := exchange_keys hi hj
  have hplaces : (h.exchange i j).places = h.places.insert (h.keyAt j) i := rfl
  refine ⟨hperm.nodup_iff.2 hh.nodup, fun k hk hkj => ?_, fun key k hk => ?_⟩
  · rw [size_exchange] at hk
    rw [hplaces, hat, if_neg hkj, SparseTable.get?_insert]
    split
    · rename_i hki
      rw [if_pos rfl, hki]
    · rename_i hki
      rw [if_neg fun he => hkj (keyAt_inj hh.nodup hk hj he)]
      exact hh.place k hk hki
  · rw [← Array.mem_toList_iff, hperm.mem_iff, Array.mem_toList_iff]
    rw [hplaces, SparseTable.get?_insert] at hk
    split at hk
    · rename_i he
      exact mem_keys_iff.2 ⟨j, hj, he.symm⟩
    · exact hh.only key k hk

/-- The outcome of an operation that keeps the keys. -/
structure Arranged (h h' : KeyHeap) : Prop where
  ok : Ok h'
  perm : h'.keys.toList.Perm h.keys.toList

theorem Arranged.mem_iff (ha : Arranged h h') : key ∈ h'.keys ↔ key ∈ h.keys := by
  rw [← Array.mem_toList_iff, ha.perm.mem_iff, Array.mem_toList_iff]

theorem Arranged.size (ha : Arranged h h') : h'.size = h.size := by
  simpa [KeyHeap.size] using ha.perm.length_eq

theorem Arranged.trans {h'' : KeyHeap} (ha : Arranged h h') (ha' : Arranged h' h'') :
    Arranged h h'' := ⟨ha'.ok, ha'.perm.trans ha.perm⟩

theorem Arranged.exchange {h'' : KeyHeap} (ha : Arranged (h.exchange i j) h'') (hi : i < h.size)
    (hj : j < h.size) : Arranged h h'' := ⟨ha.ok, ha.perm.trans (exchange_keys hi hj).1⟩

theorem siftUp_spec (before : Nat → Nat → Bool) (h : KeyHeap) (i : Nat) (hi : i < h.size)
    (hh : OkExcept i h) : Arranged h (siftUp before h i) := by
  fun_induction siftUp before h i with
  | case1 h => exact ⟨hh.note hi, .refl _⟩
  | case2 h i h0 parent hb ih =>
    have hp : parent < i := by show (i - 1) / 2 < i; omega
    exact (ih (by rw [size_exchange]; omega)
      (hh.exchange hi (by omega))).exchange hi (by omega)
  | case3 h i h0 parent hb => exact ⟨hh.note hi, .refl _⟩

theorem firstChild_lt (before : Nat → Nat → Bool) {left : Nat} (hl : left < h.size) :
    firstChild before h left < h.size := by
  unfold firstChild
  split
  · rename_i hb
    simp only [Bool.and_eq_true, decide_eq_true_eq] at hb
    exact hb.1
  · exact hl

theorem siftDown_spec (before : Nat → Nat → Bool) (h : KeyHeap) (i : Nat) (hi : i < h.size)
    (hh : OkExcept i h) : Arranged h (siftDown before h i) := by
  fun_induction siftDown before h i with
  | case1 h i hle => exact ⟨hh.note hi, .refl _⟩
  | case2 h i hle child hb ih =>
    have hlt' : child < h.size := firstChild_lt before (by omega)
    exact (ih (by rw [size_exchange]; exact hlt')
      (hh.exchange hi hlt')).exchange hi hlt'
  | case3 h i hle child hb => exact ⟨hh.note hi, .refl _⟩

/-! ## The operations -/

theorem ok_empty : Ok empty :=
  ⟨by simp [empty], fun i hi => by simp [empty, size] at hi,
    fun key i hk => by simp [empty, SparseTable.empty, SparseTable.get?] at hk⟩

theorem insert_spec (before : Nat → Nat → Bool) (hh : Ok h) (key : Nat) :
    Ok (h.insert before key) ∧ ∀ k, k ∈ (h.insert before key).keys ↔ k = key ∨ k ∈ h.keys := by
  unfold insert
  split
  · rename_i hc
    refine ⟨hh, fun k => ⟨.inr, fun hk => hk.elim (fun he => he ▸ hh.contains_iff.1 hc) id⟩⟩
  · rename_i hc
    have hnot : key ∉ h.keys := fun hk => hc (hh.contains_iff.2 hk)
    have hat : ∀ i < h.size, (⟨h.keys.push key, h.places⟩ : KeyHeap).keyAt i = h.keyAt i := by
      intro i hi
      have : i < h.keys.size := hi
      simp [keyAt, Array.getD_eq_getD_getElem?, Array.getElem?_push, this, Nat.ne_of_lt this]
    have hstart : OkExcept h.size ⟨h.keys.push key, h.places⟩ := by
      refine ⟨?_, fun i hi hne => ?_, fun k i hk => Array.mem_push.2 (.inl (hh.only k i hk))⟩
      · rw [Array.toList_push]
        refine List.nodup_append.2 ⟨hh.nodup, by simp, ?_⟩
        rintro k hk k' hk' rfl
        rw [List.mem_singleton] at hk'
        exact hnot (hk' ▸ by simpa using hk)
      · have hi' : i < h.size := by
          simp only [size, Array.size_push] at hi hne ⊢
          omega
        rw [hat i hi']
        exact hh.place i hi'
    have harr := siftUp_spec before _ h.size (by simp [size]) hstart
    refine ⟨harr.ok, fun k => ?_⟩
    rw [harr.mem_iff, Array.mem_push, or_comm]

theorem pop?_eq_none (hn : h.pop? before = none) : ∀ k, k ∉ h.keys := by
  unfold pop? at hn
  split at hn
  · rename_i he
    intro k hk
    rw [isEmpty, Array.isEmpty_iff] at he
    simp [he] at hk
  · cases hn

/-- The heap without its first key, in whose place the last one stands. -/
def withoutFirst (h : KeyHeap) : KeyHeap :=
  ⟨(h.keys.swapIfInBounds 0 (h.size - 1)).pop, h.places.erase (h.keyAt 0)⟩

theorem withoutFirst_perm (hpos : 0 < h.size) :
    h.keys.toList.Perm (h.withoutFirst.keys.toList ++ [h.keyAt 0]) := by
  have hlast : h.size - 1 < h.size := by omega
  obtain ⟨hperm, hat⟩ := exchange_keys (h := h) hpos hlast
  have hswap : (h.exchange 0 (h.size - 1)).keys = h.keys.swapIfInBounds 0 (h.size - 1) := rfl
  rw [hswap] at hperm
  have hsize : (h.keys.swapIfInBounds 0 (h.size - 1)).size = h.size := by simp [size]
  refine hperm.symm.trans (List.Perm.of_eq ?_)
  have hne : (h.keys.swapIfInBounds 0 (h.size - 1)).toList ≠ [] := by
    rw [← List.length_pos_iff, Array.length_toList, hsize]; exact hpos
  have hback : (h.keys.swapIfInBounds 0 (h.size - 1)).toList.getLast hne = h.keyAt 0 := by
    have hk := hat (h.size - 1)
    rw [if_pos rfl] at hk
    have hlt : h.size - 1 < (h.exchange 0 (h.size - 1)).size := by
      rw [size_exchange]
      exact hlast
    rw [← hk, keyAt_eq hlt, List.getLast_eq_getElem]
    simp only [Array.length_toList, hsize, Array.getElem_toList]
    rfl
  rw [withoutFirst, Array.toList_pop, ← hback, List.dropLast_concat_getLast]

theorem keyAt_withoutFirst (hi : i < h.withoutFirst.size) (h0 : i ≠ 0) :
    h.withoutFirst.keyAt i = h.keyAt i := by
  have hi' : i < h.size - 1 := by simpa [withoutFirst, size] using hi
  have hk := (exchange_keys (h := h) (i := 0) (j := h.size - 1) (by omega) (by omega)).2 i
  rw [if_neg (by omega), if_neg h0] at hk
  rw [← hk]
  have hsize : (h.keys.swapIfInBounds 0 (h.size - 1)).size = h.size := by simp [size]
  have hswap : (h.exchange 0 (h.size - 1)).keys = h.keys.swapIfInBounds 0 (h.size - 1) := rfl
  simp only [keyAt, withoutFirst, hswap, Array.getD_eq_getD_getElem?, Array.getElem?_pop, hsize,
    if_pos hi']

theorem Ok.withoutFirst (hh : Ok h) (hpos : 0 < h.size) :
    OkExcept 0 h.withoutFirst ∧ (∀ k, k ∈ h.withoutFirst.keys ↔ k ∈ h.keys ∧ k ≠ h.keyAt 0) ∧
      h.withoutFirst.size + 1 = h.size := by
  have hperm := withoutFirst_perm hpos
  have hsize : h.withoutFirst.size + 1 = h.size := by
    simpa [size] using hperm.length_eq.symm
  have hnodup := hperm.nodup_iff.1 hh.nodup
  rw [List.nodup_append] at hnodup
  have hmem : ∀ k, k ∈ h.withoutFirst.keys ↔ k ∈ h.keys ∧ k ≠ h.keyAt 0 := by
    intro k
    rw [← Array.mem_toList_iff, show k ∈ h.keys ↔ k ∈ h.keys.toList from Array.mem_toList_iff.symm,
      hperm.mem_iff, List.mem_append, List.mem_singleton]
    constructor
    · intro hk
      exact ⟨.inl hk, hnodup.2.2 k hk _ (List.mem_singleton.2 rfl)⟩
    · rintro ⟨hk | hk, hne⟩
      · exact hk
      · exact absurd hk hne
  refine ⟨⟨hnodup.1, fun i hi h0 => ?_, fun k i hk => ?_⟩, hmem, hsize⟩
  · rw [keyAt_withoutFirst hi h0]
    show (h.places.erase (h.keyAt 0)).get? (h.keyAt i) = some i
    rw [SparseTable.get?_erase, if_neg]
    · exact hh.place i (by omega)
    · exact fun he => h0 (keyAt_inj hh.nodup (by omega) hpos he)
  · have hk' : (h.places.erase (h.keyAt 0)).get? k = some i := hk
    rw [SparseTable.get?_erase] at hk'
    split at hk'
    · cases hk'
    · rename_i hk0
      exact (hmem k).2 ⟨hh.only k i hk', hk0⟩

theorem pop?_spec (hh : Ok h) {first : Nat} (hp : h.pop? before = some (first, h')) :
    Ok h' ∧ first ∈ h.keys ∧ (∀ k, k ∈ h'.keys ↔ k ∈ h.keys ∧ k ≠ first) ∧ h'.size + 1 = h.size := by
  unfold pop? at hp
  split at hp
  · cases hp
  · rename_i hne
    have hpos : 0 < h.size := by
      rw [isEmpty, Array.isEmpty_iff_size_eq_zero] at hne
      simp only [size]; omega
    obtain ⟨hexcept, hmem, hsize⟩ := hh.withoutFirst hpos
    have hfirst : h.keyAt 0 ∈ h.keys := mem_keys_iff.2 ⟨0, hpos, rfl⟩
    have hp' : some (h.keyAt 0, if h.withoutFirst.isEmpty then h.withoutFirst
        else siftDown before h.withoutFirst 0) = some (first, h') := hp
    cases hp'
    split
    · rename_i hempty
      rw [isEmpty, Array.isEmpty_iff_size_eq_zero] at hempty
      exact ⟨⟨hexcept.nodup, fun i hi => absurd hi (by simp only [size]; omega), hexcept.only⟩,
        hfirst, hmem, hsize⟩
    · rename_i hempty
      rw [isEmpty, Array.isEmpty_iff_size_eq_zero] at hempty
      have harr := siftDown_spec before _ 0 (by simp only [size]; omega) hexcept
      exact ⟨harr.ok, hfirst, fun k => by rw [harr.mem_iff, hmem], by rw [harr.size]; exact hsize⟩

theorem update_spec (before : Nat → Nat → Bool) (hh : Ok h) (key : Nat) :
    Arranged h (h.update before key) := by
  unfold update
  split
  · exact ⟨hh, .refl _⟩
  · rename_i place hp
    have hdown := siftDown_spec before h place (hh.keyAt_of_get? hp).1 (hh.except place)
    simp only
    split
    · exact hdown
    · rename_i place' hp'
      exact hdown.trans (siftUp_spec before _ place' (hdown.ok.keyAt_of_get? hp').1
        (hdown.ok.except place'))

theorem heapify_spec (before : Nat → Nat → Bool) : ∀ (n : Nat) (h : KeyHeap), n ≤ h.size → Ok h →
    Arranged h (heapify before n h)
  | 0, h, _, hh => ⟨hh, .refl _⟩
  | n + 1, h, hn, hh => by
    have hdown := siftDown_spec before h n hn (hh.except n)
    exact hdown.trans (heapify_spec before n _ (by rw [hdown.size]; omega) hdown.ok)

/-- Keys that are noted one after the other have the places at which they stand. -/
theorem get?_noted (key i : Nat) : ∀ (keys : List Nat) (start : Nat) (t : SparseTable Nat),
    keys.Nodup →
    (((keys.zipIdx start).foldl (fun t (key, i) => t.insert key i) t).get? key = some i ↔
      (start ≤ i ∧ keys[i - start]? = some key) ∨ (key ∉ keys ∧ t.get? key = some i))
  | [], start, t, _ => by simp
  | k :: keys, start, t, hn => by
    rw [List.nodup_cons] at hn
    rw [List.zipIdx_cons, List.foldl_cons, get?_noted key i keys (start + 1) _ hn.2,
      SparseTable.get?_insert]
    by_cases hk : key = k
    · subst hk
      have hnot : ∀ j, keys[j]? ≠ some key := fun j hj => hn.1 (List.mem_of_getElem? hj)
      simp only [hnot, and_false, hn.1, not_false_eq_true, if_true, true_and, false_or,
        List.mem_cons, not_true_eq_false, false_and, or_false, Option.some.injEq]
      constructor
      · rintro rfl; simp
      · rintro ⟨hle, hget⟩
        rcases Nat.eq_zero_or_pos (i - start) with h0 | hpos
        · omega
        · rw [show i - start = (i - start - 1) + 1 by omega, List.getElem?_cons_succ] at hget
          exact absurd hget (hnot _)
    · rw [if_neg hk]
      simp only [List.mem_cons, hk, false_or]
      apply or_congr_left
      constructor
      · rintro ⟨hle, hget⟩
        refine ⟨by omega, ?_⟩
        rw [show i - start = (i - (start + 1)) + 1 by omega, List.getElem?_cons_succ]
        exact hget
      · rintro ⟨hle, hget⟩
        rcases Nat.eq_zero_or_pos (i - start) with h0 | hpos
        · rw [h0, List.getElem?_cons_zero, Option.some.injEq] at hget
          exact absurd hget.symm hk
        · refine ⟨by omega, ?_⟩
          rw [show i - start = (i - (start + 1)) + 1 by omega, List.getElem?_cons_succ] at hget
          exact hget

theorem get?_placesOf {keys : List Nat} (hn : keys.Nodup) (key i : Nat) :
    (placesOf keys).get? key = some i ↔ keys[i]? = some key := by
  rw [placesOf, get?_noted key i keys 0 _ hn]
  simp [SparseTable.empty, SparseTable.get?]

/-- Before any key is sifted, each one has its right place. -/
theorem ok_placesOf {keys : List Nat} (hn : keys.Nodup) : Ok ⟨keys.toArray, placesOf keys⟩ := by
  have hat : ∀ i < keys.length, keys[i]? = some ((⟨keys.toArray, placesOf keys⟩ : KeyHeap).keyAt i) := by
    intro i hi
    simp [keyAt, Array.getD_eq_getD_getElem?, hi]
  refine ⟨hn, fun i hi => ?_, fun k i hk => ?_⟩
  · exact (get?_placesOf hn _ i).2 (hat i (by simpa [size] using hi))
  · have := List.mem_of_getElem? ((get?_placesOf hn k i).1 hk)
    simpa using this

theorem ofKeys_spec (before : Nat → Nat → Bool) {keys : List Nat} (hn : keys.Nodup) :
    Ok (ofKeys before keys) ∧ ∀ k, k ∈ (ofKeys before keys).keys ↔ k ∈ keys := by
  have harr := heapify_spec before keys.length _ (by simp [size]) (ok_placesOf hn)
  exact ⟨harr.ok, fun k => by rw [ofKeys, harr.mem_iff]; simp⟩

end KeyHeap

end ConfigSampler
