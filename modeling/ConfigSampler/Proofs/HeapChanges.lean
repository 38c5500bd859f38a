import ConfigSampler.Proofs.HeapOrder
import Mathlib.Data.Finset.Basic
import Mathlib.Data.Finset.Filter

/-!
# Heaps after any changes

A `Change` is an operation on a heap, some of which put a new order of the keys into force.
`KeyHeap.Holds` says what a heap is to look like that holds a given set of keys under an order, and
every change leads to a heap that holds the keys it should (`Holds.perform`).

`KeyHeap.leaves_in_order` is the main statement: **after any changes a heap holds exactly the keys
that were put in and have not left, each with its true position, and the least of them leaves first,
so that repeated removals deliver all of them in order**.
-/

set_option autoImplicit false

namespace ConfigSampler

namespace KeyHeap

/-- An operation on a heap. -/
inductive Change where
  | insert (key : Nat)
  | pop
  /-- The key's place in the order changes, to what `before` says. -/
  | update (key : Nat) (before : Nat → Nat → Bool)
  /-- The heap is filled with other keys, under the order `before`. -/
  | refill (keys : List Nat) (before : Nat → Nat → Bool)

namespace Change

/-- The order after a change. -/
def order (before : Nat → Nat → Bool) : Change → Nat → Nat → Bool
  | insert _ => before
  | pop => before
  | update _ before' => before'
  | refill _ before' => before'

/-- The heap after a change. -/
def perform (before : Nat → Nat → Bool) (h : KeyHeap) : Change → KeyHeap
  | insert key => h.insert before key
  | pop =>
    match h.pop? before with
    | none => h
    | some (_, rest) => rest
  | update key before' => h.update before' key
  | refill keys before' => ofKeys before' keys

/-- The keys that a heap is to hold after a change: all but the least stay after `pop`. -/
def keys (before : Nat → Nat → Bool) (present : Finset Nat) : Change → Finset Nat
  | insert key => Insert.insert key present
  | pop => present.filter fun key => ∃ other ∈ present, before other key = true
  | update _ _ => present
  | refill keys _ => keys.toFinset

/-- The keys belong to `K`, a new order is one of the keys in `K`, `update` is told of the one key
    whose place changed, and the heap is filled with keys that are pairwise different. -/
def Fits (K : Set Nat) (before : Nat → Nat → Bool) : Change → Prop
  | insert key => key ∈ K
  | pop => True
  | update key before' => Orders before' K ∧
      ∀ a ∈ K, ∀ b ∈ K, a ≠ key → b ≠ key → before' a b = before a b
  | refill keys before' => Orders before' K ∧ keys.Nodup ∧ ∀ key ∈ keys, key ∈ K

end Change

/-- The order after changes. -/
def orderAfter (before : Nat → Nat → Bool) : List Change → Nat → Nat → Bool
  | [] => before
  | change :: changes => orderAfter (change.order before) changes

/-- The heap after changes. -/
def after (before : Nat → Nat → Bool) (h : KeyHeap) : List Change → KeyHeap
  | [] => h
  | change :: changes => after (change.order before) (change.perform before h) changes

/-- The keys that a heap is to hold after changes. -/
def keysAfter (before : Nat → Nat → Bool) (present : Finset Nat) : List Change → Finset Nat
  | [] => present
  | change :: changes => keysAfter (change.order before) (change.keys before present) changes

/-- Every change fits the order that is in force when it is made. -/
def AllFit (K : Set Nat) (before : Nat → Nat → Bool) : List Change → Prop
  | [] => True
  | change :: changes => change.Fits K before ∧ AllFit K (change.order before) changes

/-- Takes keys out until `n` have left or none is left. -/
def popUpTo (before : Nat → Nat → Bool) : Nat → KeyHeap → List Nat
  | 0, _ => []
  | n + 1, h =>
    match h.pop? before with
    | none => []
    | some (first, rest) => first :: popUpTo before n rest

/-- The keys in the order in which they leave. -/
def popAll (before : Nat → Nat → Bool) (h : KeyHeap) : List Nat := popUpTo before (h.size + 1) h

variable {before : Nat → Nat → Bool} {K : Set Nat} {h rest : KeyHeap} {present : Finset Nat}
  {first : Nat} {changes : List Change}

/-- The heap holds the keys that are present, each once and each with its position, and nothing else
    has one; no key leaves ahead of its parent. -/
structure Holds (before : Nat → Nat → Bool) (present : Finset Nat) (h : KeyHeap) : Prop where
  nodup : h.keys.toList.Nodup
  mem_iff : ∀ key, key ∈ h.keys ↔ key ∈ present
  place_iff : ∀ key i, h.places.get? key = some i ↔ i < h.size ∧ h.keyAt i = key
  ordered : Ordered before h

theorem holds_of_ok (hh : Ok h) (hord : Ordered before h)
    (hmem : ∀ key, key ∈ h.keys ↔ key ∈ present) : Holds before present h where
  nodup := hh.nodup
  mem_iff := hmem
  place_iff key i := by
    constructor
    · exact hh.keyAt_of_get?
    · rintro ⟨hi, rfl⟩
      exact hh.place i hi
  ordered := hord

theorem holds_empty (before : Nat → Nat → Bool) : Holds before ∅ empty :=
  holds_of_ok ok_empty (fun _ _ hlt => absurd hlt (Nat.not_lt_zero _)) fun key => by simp [empty]

namespace Holds

theorem ok (hh : Holds before present h) : Ok h :=
  ⟨hh.nodup, fun i hi => (hh.place_iff _ i).2 ⟨hi, rfl⟩, fun key i hk =>
    mem_keys_iff.2 ⟨i, (hh.place_iff key i).1 hk⟩⟩

theorem within (hh : Holds before present h) (hK : ↑present ⊆ K) : Within K h := fun i hi =>
  hK (Finset.mem_coe.2 ((hh.mem_iff _).1 (mem_keys_iff.2 ⟨i, hi, rfl⟩)))

theorem pop?_eq_none_iff (hh : Holds before present h) : h.pop? before = none ↔ present = ∅ := by
  rw [Finset.eq_empty_iff_forall_notMem]
  constructor
  · exact fun hnone key hkey => KeyHeap.pop?_eq_none hnone key ((hh.mem_iff key).2 hkey)
  · intro hempty
    rw [KeyHeap.pop?_eq, if_pos]
    rw [isEmpty, Array.isEmpty_iff]
    exact Array.eq_empty_iff_forall_not_mem.2 fun key hkey => hempty key ((hh.mem_iff key).1 hkey)

/-- **The least key leaves**, and the heap holds the others. -/
theorem pop? (hh : Holds before present h) (ho : Orders before K) (hK : ↑present ⊆ K)
    (hp : h.pop? before = some (first, rest)) :
    first ∈ present ∧ (∀ key ∈ present, key ≠ first → before first key = true) ∧
      Holds before (present.erase first) rest ∧ rest.size + 1 = h.size := by
  obtain ⟨hok, hfirst, hmem, hsize⟩ := pop?_spec hh.ok hp
  obtain ⟨hroot, hord⟩ := pop?_ordered hh.ok hh.ordered ho (hh.within hK) hp
  have hpresent := (hh.mem_iff first).1 hfirst
  refine ⟨hpresent, fun key hkey hne => ?_, holds_of_ok hok hord fun key => ?_, hsize⟩
  · obtain ⟨i, hi, rfl⟩ := mem_keys_iff.1 ((hh.mem_iff key).2 hkey)
    have hnot := hh.ordered.root_first ho (hh.within hK) i hi
    rw [← hroot] at hnot
    rcases ho.total _ (hK hkey) _ (hK hpresent) hne with hb | hb
    · rw [hnot] at hb
      cases hb
    · exact hb
  · rw [hmem, hh.mem_iff, Finset.mem_erase, and_comm]

/-- The keys that have another one ahead of them are all but the least. -/
theorem keys_pop (hh : Holds before present h) (ho : Orders before K) (hK : ↑present ⊆ K)
    (hp : h.pop? before = some (first, rest)) :
    Change.pop.keys before present = present.erase first := by
  obtain ⟨hpresent, hleast, -⟩ := hh.pop? ho hK hp
  ext key
  rw [Change.keys, Finset.mem_filter, Finset.mem_erase]
  constructor
  · rintro ⟨hkey, other, hother, hb⟩
    refine ⟨?_, hkey⟩
    rintro rfl
    by_cases he : other = key
    · rw [he, ho.irrefl key (hK hkey)] at hb
      cases hb
    · rw [ho.asymm (hK hkey) (hK hother) (hleast other hother he)] at hb
      cases hb
  · rintro ⟨hne, hkey⟩
    exact ⟨hkey, first, hpresent, hleast key hkey hne⟩

/-- **A change leads to a heap that holds the keys it should.** -/
theorem perform (hh : Holds before present h) (ho : Orders before K) (hK : ↑present ⊆ K)
    {change : Change} (hfits : change.Fits K before) :
    Holds (change.order before) (change.keys before present) (change.perform before h) ∧
      Orders (change.order before) K ∧ ↑(change.keys before present) ⊆ K := by
  cases change with
  | insert key =>
    obtain ⟨hok, hmem⟩ := insert_spec before hh.ok key
    refine ⟨holds_of_ok hok (insert_ordered hh.ordered ho (hh.within hK) hfits) fun k => ?_, ho, ?_⟩
    · exact (hmem k).trans (by rw [hh.mem_iff, Change.keys, Finset.mem_insert])
    · rw [Change.keys, Finset.coe_insert]
      exact Set.insert_subset hfits hK
  | pop =>
    refine ⟨?_, ho, fun k hk => hK (Finset.mem_coe.2 (Finset.mem_filter.1 hk).1)⟩
    show Holds before _ (match h.pop? before with | none => h | some (_, rest) => rest)
    split
    · rename_i hnone
      obtain rfl := hh.pop?_eq_none_iff.1 hnone
      exact hh
    · rename_i first rest hp
      rw [hh.keys_pop ho hK hp]
      exact (hh.pop? ho hK hp).2.2.1
  | update key before' =>
    obtain ⟨ho', hsame⟩ := hfits
    have harr := update_spec before' hh.ok key
    exact ⟨holds_of_ok harr.ok (update_ordered hh.ok hh.ordered ho ho' (hh.within hK) hsame)
      fun k => harr.mem_iff.trans (hh.mem_iff k), ho', hK⟩
  | refill keys before' =>
    obtain ⟨ho', hnodup, hkeys⟩ := hfits
    obtain ⟨hok, hmem⟩ := ofKeys_spec before' hnodup
    exact ⟨holds_of_ok hok (ofKeys_ordered ho' hnodup hkeys) fun k =>
      (hmem k).trans List.mem_toFinset.symm, ho', fun k hk => hkeys k (List.mem_toFinset.1 hk)⟩

theorem after : ∀ (changes : List Change) {before : Nat → Nat → Bool} {present : Finset Nat}
    {h : KeyHeap}, Holds before present h → Orders before K → ↑present ⊆ K →
    AllFit K before changes →
    Holds (orderAfter before changes) (keysAfter before present changes) (h.after before changes) ∧
      Orders (orderAfter before changes) K ∧ ↑(keysAfter before present changes) ⊆ K
  | [], _, _, _, hh, ho, hK, _ => ⟨hh, ho, hK⟩
  | change :: changes, _, _, _, hh, ho, hK, hfit => by
    obtain ⟨hh', ho', hK'⟩ := hh.perform ho hK hfit.1
    exact after changes hh' ho' hK' hfit.2

/-- Keys leave in order, and all of them do. -/
theorem popUpTo : ∀ (n : Nat) {present : Finset Nat} {h : KeyHeap}, Holds before present h →
    Orders before K → ↑present ⊆ K → h.size < n →
    (popUpTo before n h).Pairwise (fun a b => before a b = true) ∧
      ∀ key, key ∈ popUpTo before n h ↔ key ∈ present
  | 0, _, _, _, _, _, hlt => absurd hlt (Nat.not_lt_zero _)
  | n + 1, present, h, hh, ho, hK, hlt => by
    unfold KeyHeap.popUpTo
    split
    · rename_i hnone
      rw [hh.pop?_eq_none_iff.1 hnone]
      exact ⟨.nil, fun key => by simp⟩
    · rename_i first rest hp
      obtain ⟨hpresent, hleast, hrest, hsize⟩ := hh.pop? ho hK hp
      have hsub : ↑(present.erase first) ⊆ K := fun key hkey =>
        hK (Finset.mem_coe.2 (Finset.mem_of_mem_erase hkey))
      obtain ⟨hsorted, hmem⟩ := popUpTo n hrest ho hsub (by omega)
      refine ⟨List.pairwise_cons.2 ⟨fun key hkey => ?_, hsorted⟩, fun key => ?_⟩
      · obtain ⟨hne, hkey⟩ := Finset.mem_erase.1 ((hmem key).1 hkey)
        exact hleast key hkey hne
      · rw [List.mem_cons, hmem, Finset.mem_erase]
        by_cases he : key = first
        · rw [he]
          exact iff_of_true (.inl rfl) hpresent
        · simp only [he, false_or, ne_eq, not_false_eq_true, true_and]

end Holds

/-- **After any changes a heap holds the keys that it should, in order.**  A key leaves unless there
    is none, it is the least of all, and the heap holds the others; and removals until the heap is
    empty deliver all keys, each one ahead of those after it. -/
theorem leaves_in_order (ho : Orders before K) (hfit : AllFit K before changes) :
    let order := orderAfter before changes
    let present := keysAfter before ∅ changes
    let h := empty.after before changes
    Holds order present h ∧ (h.pop? order = none ↔ present = ∅) ∧
    (∀ first rest, h.pop? order = some (first, rest) → first ∈ present ∧
      (∀ key ∈ present, key ≠ first → order first key = true) ∧
      Holds order (present.erase first) rest) ∧
    (h.popAll order).Pairwise (fun a b => order a b = true) ∧
    (h.popAll order).Perm h.keys.toList := by
  intro order present h
  obtain ⟨hh, ho', hK⟩ := (holds_empty before).after changes ho
    (by rw [Finset.coe_empty]; exact Set.empty_subset K) hfit
  obtain ⟨hsorted, hmem⟩ := hh.popUpTo (h.size + 1) ho' hK (Nat.lt_succ_self _)
  refine ⟨hh, hh.pop?_eq_none_iff, fun first rest hp => ?_, hsorted, ?_⟩
  · obtain ⟨hpresent, hleast, hrest, -⟩ := hh.pop? ho' hK hp
    exact ⟨hpresent, hleast, hrest⟩
  · have hin : ∀ key ∈ h.popAll order, key ∈ K := fun key hkey =>
      hK (Finset.mem_coe.2 ((hmem key).1 hkey))
    have hnodup : (h.popAll order).Nodup := hsorted.imp_of_mem fun {a b} ha _ hab he => by
      rw [← he, ho'.irrefl a (hin a ha)] at hab
      cases hab
    exact (List.perm_ext_iff_of_nodup hnodup hh.nodup).2 fun key =>
      (hmem key).trans ((hh.mem_iff key).symm.trans Array.mem_toList_iff.symm)

/-! ## Five keys -/

/-- The order by priorities, the highest first. -/
def byPriority (priorities : List Nat) (a b : Nat) : Bool :=
  decide (priorities.getD b 0 < priorities.getD a 0)

theorem orders_byPriority {priorities : List Nat} (hn : priorities.Nodup) :
    Orders (byPriority priorities) {key | key < priorities.length} where
  irrefl a _ := by simp [byPriority]
  trans a _ b _ c _ := by
    simp only [byPriority, decide_eq_true_eq]
    omega
  total a ha b hb hne := by
    have hget : ∀ k (hk : k < priorities.length), priorities.getD k 0 = priorities[k] := by
      intro k hk
      simp [List.getD_eq_getElem?_getD, hk]
    have hpriority : priorities.getD a 0 ≠ priorities.getD b 0 := by
      rw [hget a ha, hget b hb]
      exact fun he => hne ((List.Nodup.getElem_inj_iff hn).1 he)
    simp only [byPriority, decide_eq_true_eq]
    omega

/-- Another priority of one key leaves the order of the others as it is. -/
theorem byPriority_set (priorities : List Nat) (key priority : Nat) {a b : Nat} (ha : a ≠ key)
    (hb : b ≠ key) : byPriority (priorities.set key priority) a b = byPriority priorities a b := by
  simp only [byPriority, List.getD_eq_getElem?_getD, List.getElem?_set_ne ha.symm,
    List.getElem?_set_ne hb.symm]

/-- The first key of five leaves, then the last one to leave gets the second highest priority, and the
    first one comes back. -/
def fiveKeys : List Change :=
  [.insert 0, .insert 1, .insert 2, .insert 3, .insert 4, .pop,
    .update 2 (byPriority ([3, 9, 1, 7, 5].set 2 8)), .insert 1]

theorem leaves_in_order_fiveKeys :
    Orders (byPriority [3, 9, 1, 7, 5]) {key | key < 5} ∧
    AllFit {key | key < 5} (byPriority [3, 9, 1, 7, 5]) fiveKeys ∧
    (empty.after (byPriority [3, 9, 1, 7, 5]) fiveKeys).popAll (byPriority [3, 9, 8, 7, 5]) =
      [1, 2, 3, 4, 0] ∧
    ((empty.after (byPriority [3, 9, 1, 7, 5]) fiveKeys).popAll
      (byPriority [3, 9, 8, 7, 5])).Pairwise
        (fun a b => byPriority [3, 9, 8, 7, 5] a b = true) := by
  have ho : Orders (byPriority [3, 9, 1, 7, 5]) {key | key < 5} := orders_byPriority (by decide)
  have hraised : Change.Fits {key | key < 5} (byPriority [3, 9, 1, 7, 5])
      (.update 2 (byPriority ([3, 9, 1, 7, 5].set 2 8))) :=
    ⟨orders_byPriority (by decide), fun _ _ _ _ ha hb => byPriority_set _ 2 8 ha hb⟩
  have hlt : ∀ key < 5, Change.Fits {key | key < 5} (byPriority [3, 9, 1, 7, 5]) (.insert key) :=
    fun _ h => h
  have hfit : AllFit {key | key < 5} (byPriority [3, 9, 1, 7, 5]) fiveKeys :=
    ⟨hlt 0 (by decide), hlt 1 (by decide), hlt 2 (by decide), hlt 3 (by decide), hlt 4 (by decide),
      trivial, hraised, hlt 1 (by decide), trivial⟩
  exact ⟨ho, hfit, by decide +kernel, (leaves_in_order ho hfit).2.2.2.1⟩

end KeyHeap

end ConfigSampler
