import ConfigSampler.Proofs.HeapContents
import Mathlib.Data.Set.Defs

/-!
# The order of a heap

In an ordered heap no key leaves ahead of its parent (`KeyHeap.Ordered`).  A sift repairs the order
around one position: `UpOrder` and `DownOrder` are what it needs of the other positions, and an
exchange of two keys passes that on to the next position.  So every operation leaves an ordered heap.
When one key's place in the order changed, the heap is still in order around that key (`AroundOrder`),
which is enough for `update`, whichever way the key has to move (`update_ordered`).
-/

set_option autoImplicit false

namespace ConfigSampler

namespace KeyHeap

variable {before before' : Nat → Nat → Bool} {K : Set Nat} {h h' : KeyHeap} {i j k : Nat}

/-! ## Orders of keys -/

/-- A strict total order of the keys in `K`. -/
structure Orders (before : Nat → Nat → Bool) (K : Set Nat) : Prop where
  irrefl : ∀ a ∈ K, before a a = false
  trans : ∀ a ∈ K, ∀ b ∈ K, ∀ c ∈ K, before a b = true → before b c = true → before a c = true
  total : ∀ a ∈ K, ∀ b ∈ K, a ≠ b → before a b = true ∨ before b a = true

namespace Orders

variable {a b c : Nat}

theorem asymm (ho : Orders before K) (ha : a ∈ K) (hb : b ∈ K) (hab : before a b = true) :
    before b a = false := by
  rw [← Bool.not_eq_true]
  intro hba
  have haa := ho.trans a ha b hb a ha hab hba
  rw [ho.irrefl a ha] at haa
  cases haa

theorem not_before_trans (ho : Orders before K) (ha : a ∈ K) (hb : b ∈ K) (hc : c ∈ K)
    (hba : before b a = false) (hcb : before c b = false) : before c a = false := by
  rw [← Bool.not_eq_true]
  intro hca
  by_cases he : a = b
  · rw [he, hcb] at hca
    cases hca
  · rcases ho.total a ha b hb he with hab | hab
    · rw [ho.trans c hc a ha b hb hca hab] at hcb
      cases hcb
    · rw [hab] at hba
      cases hba

/-- If `b` leaves ahead of `a`, and `c` not, then `c` does not leave ahead of `b`. -/
theorem not_before_of_before (ho : Orders before K) (ha : a ∈ K) (hb : b ∈ K) (hc : c ∈ K)
    (hba : before b a = true) (hca : before c a = false) : before c b = false :=
  ho.not_before_trans hb ha hc (ho.asymm hb ha hba) hca

end Orders

/-! ## Ordered heaps -/

/-- The parent of a position; the root has none. -/
def parent (i : Nat) : Nat := (i - 1) / 2

theorem parent_lt (hi : 0 < i) : parent i < i := by unfold parent; omega

/-- From position `k` on, no child's key leaves ahead of its parent's. -/
def OrderedFrom (before : Nat → Nat → Bool) (k : Nat) (h : KeyHeap) : Prop :=
  ∀ c, 0 < c → c < h.size → k ≤ parent c → before (h.keyAt c) (h.keyAt (parent c)) = false

/-- No key leaves ahead of its parent. -/
def Ordered (before : Nat → Nat → Bool) (h : KeyHeap) : Prop :=
  ∀ c, 0 < c → c < h.size → before (h.keyAt c) (h.keyAt (parent c)) = false

theorem orderedFrom_zero : OrderedFrom before 0 h ↔ Ordered before h :=
  ⟨fun ho c hc hlt => ho c hc hlt (Nat.zero_le _), fun ho c hc hlt _ => ho c hc hlt⟩

/-- All keys of the heap are in `K`. -/
def Within (K : Set Nat) (h : KeyHeap) : Prop := ∀ i < h.size, h.keyAt i ∈ K

theorem Within.exchange (hK : Within K h) (hi : i < h.size) (hj : j < h.size) :
    Within K (h.exchange i j) := by
  intro k hk
  rw [size_exchange] at hk
  rw [(exchange_keys hi hj).2 k]
  split
  · exact hK i hi
  · split
    · exact hK j hj
    · exact hK k hk

theorem keyAt_exchange_left (hi : i < h.size) (hj : j < h.size) (hij : i ≠ j) :
    (h.exchange i j).keyAt i = h.keyAt j := by
  rw [(exchange_keys hi hj).2, if_neg hij, if_pos rfl]

theorem keyAt_exchange_right (hi : i < h.size) (hj : j < h.size) :
    (h.exchange i j).keyAt j = h.keyAt i := by
  rw [(exchange_keys hi hj).2, if_pos rfl]

theorem keyAt_exchange_of_ne (hi : i < h.size) (hj : j < h.size) {c : Nat} (hci : c ≠ i)
    (hcj : c ≠ j) : (h.exchange i j).keyAt c = h.keyAt c := by
  rw [(exchange_keys hi hj).2, if_neg hcj, if_neg hci]

/-- No key of an ordered heap leaves ahead of the one at the root. -/
theorem Ordered.root_first (hh : Ordered before h) (ho : Orders before K) (hK : Within K h) :
    ∀ i < h.size, before (h.keyAt i) (h.keyAt 0) = false := by
  intro i
  induction i using Nat.strongRecOn with
  | ind i ih =>
    intro hi
    rcases Nat.eq_zero_or_pos i with rfl | hpos
    · exact ho.irrefl _ (hK 0 hi)
    · have hp := parent_lt hpos
      have hpi : parent i < h.size := Nat.lt_trans hp hi
      exact ho.not_before_trans (hK 0 (Nat.lt_trans hpos hi)) (hK _ hpi) (hK i hi)
        (ih _ hp hpi) (hh i hpos hi)

/-! ## Towards the root -/

/-- All keys but the one at `i` are in order with their parents, and the children of `i` with the
    parent of `i`. -/
structure UpOrder (before : Nat → Nat → Bool) (h : KeyHeap) (i : Nat) : Prop where
  except : ∀ c, 0 < c → c < h.size → c ≠ i → before (h.keyAt c) (h.keyAt (parent c)) = false
  grand : 0 < i → ∀ c, 0 < c → c < h.size → parent c = i →
    before (h.keyAt c) (h.keyAt (parent i)) = false

theorem Ordered.upOrder (hh : Ordered before h) (ho : Orders before K) (hK : Within K h)
    (hi : i < h.size) : UpOrder before h i where
  except c hc hlt _ := hh c hc hlt
  grand hpos c hc hlt hp := by
    have hpi := Nat.lt_trans (parent_lt hpos) hi
    exact ho.not_before_trans (hK _ hpi) (hK i hi) (hK c hlt) (hh i hpos hi) (hp ▸ hh c hc hlt)

theorem UpOrder.exchange (hu : UpOrder before h i) (ho : Orders before K) (hK : Within K h)
    (hpos : 0 < i) (hi : i < h.size) (hb : before (h.keyAt i) (h.keyAt (parent i)) = true) :
    UpOrder before (h.exchange i (parent i)) (parent i) := by
  have hpi := parent_lt hpos
  have hp : parent i < h.size := Nat.lt_trans hpi hi
  have hself := keyAt_exchange_left hi hp (Nat.ne_of_gt hpi)
  have hother := fun c => keyAt_exchange_of_ne (c := c) hi hp
  -- the other children of the parent of `i` are in order with it
  have hsibling : ∀ c, 0 < c → c < h.size → c ≠ i → parent c = parent i →
      before (h.keyAt c) (h.keyAt (parent i)) = false := fun c hc hlt hci he =>
    he ▸ hu.except c hc hlt hci
  constructor
  · intro c hc hlt hcp
    rw [size_exchange] at hlt
    by_cases hci : c = i
    · rw [hci, hself, keyAt_exchange_right hi hp]
      exact ho.asymm (hK i hi) (hK _ hp) hb
    rw [hother c hci hcp]
    by_cases he : parent c = i
    · rw [he, hself]
      exact hu.grand hpos c hc hlt he
    by_cases he' : parent c = parent i
    · rw [he', keyAt_exchange_right hi hp]
      exact ho.not_before_of_before (hK _ hp) (hK i hi) (hK c hlt) hb (hsibling c hc hlt hci he')
    · rw [hother _ he he']
      exact hu.except c hc hlt hci
  · intro hpos' c hc hlt he
    rw [size_exchange] at hlt
    have hpp := parent_lt hpos'
    have habove := hu.except (parent i) hpos' hp (Nat.ne_of_lt hpi)
    rw [hother (parent (parent i)) (by omega) (by omega)]
    by_cases hci : c = i
    · rw [hci, hself]
      exact habove
    · have hcp : c ≠ parent i := fun hcp => by
        have := parent_lt hc
        omega
      rw [hother c hci hcp]
      exact ho.not_before_trans (hK _ (Nat.lt_trans hpp hp)) (hK _ hp) (hK c hlt) habove
        (hsibling c hc hlt hci he)

theorem siftUp_ordered (ho : Orders before K) (h : KeyHeap) (i : Nat) (hi : i < h.size)
    (hK : Within K h) (hu : UpOrder before h i) : Ordered before (siftUp before h i) := by
  fun_induction siftUp before h i with
  | case1 h => exact fun c hc hlt => hu.except c hc hlt (Nat.ne_of_gt hc)
  | case2 h i h0 p hb ih =>
    have hpos := Nat.pos_of_ne_zero h0
    have hp : p < h.size := Nat.lt_trans (parent_lt hpos) hi
    exact ih (by rw [size_exchange]; exact hp) (hK.exchange hi hp) (hu.exchange ho hK hpos hi hb)
  | case3 h i h0 p hb =>
    intro c hc hlt
    by_cases hci : c = i
    · rw [hci]
      exact (Bool.not_eq_true _).mp hb
    · exact hu.except c hc hlt hci

/-! ## Away from the root -/

/-- From position `k` on, all keys are in order with their parents but the children of `i`, and these
    are in order with the parent of `i`. -/
structure DownOrder (before : Nat → Nat → Bool) (k : Nat) (h : KeyHeap) (i : Nat) : Prop where
  except : ∀ c, 0 < c → c < h.size → k ≤ parent c → parent c ≠ i →
    before (h.keyAt c) (h.keyAt (parent c)) = false
  grand : 0 < i → k ≤ parent i → ∀ c, 0 < c → c < h.size → parent c = i →
    before (h.keyAt c) (h.keyAt (parent i)) = false

theorem parent_firstChild (before : Nat → Nat → Bool) (h : KeyHeap) (i : Nat) :
    parent (firstChild before h (2 * i + 1)) = i := by
  unfold firstChild parent
  split <;> omega

theorem firstChild_pos (before : Nat → Nat → Bool) (h : KeyHeap) (i : Nat) :
    0 < firstChild before h (2 * i + 1) := by
  unfold firstChild
  split <;> omega

/-- No child leaves ahead of the first child. -/
theorem firstChild_first (ho : Orders before K) (hK : Within K h) {c : Nat} (hc : 0 < c)
    (hlt : c < h.size) (hp : parent c = i) :
    before (h.keyAt c) (h.keyAt (firstChild before h (2 * i + 1))) = false := by
  have hside : c = 2 * i + 1 ∨ c = 2 * i + 1 + 1 := by unfold parent at hp; omega
  have hleft : 2 * i + 1 < h.size := by omega
  unfold firstChild
  split
  · rename_i hb
    simp only [Bool.and_eq_true, decide_eq_true_eq] at hb
    rcases hside with rfl | rfl
    · exact ho.asymm (hK _ hb.1) (hK _ hlt) hb.2
    · exact ho.irrefl _ (hK _ hlt)
  · rename_i hb
    rcases hside with rfl | rfl
    · exact ho.irrefl _ (hK _ hlt)
    · simpa [hlt] using hb

theorem DownOrder.exchange (hd : DownOrder before k h i) (ho : Orders before K)
    (hK : Within K h) (hi : i < h.size) (hk : k ≤ i) {child : Nat} (hpos : 0 < child)
    (hlt : child < h.size) (hparent : parent child = i)
    (hfirst : ∀ c, 0 < c → c < h.size → parent c = i →
      before (h.keyAt c) (h.keyAt child) = false)
    (hb : before (h.keyAt child) (h.keyAt i) = true) :
    DownOrder before k (h.exchange i child) child := by
  have hic : i < child := hparent ▸ parent_lt hpos
  have hself := keyAt_exchange_left hi hlt (Nat.ne_of_lt hic)
  have hother := fun c => keyAt_exchange_of_ne (c := c) hi hlt
  constructor
  · intro c hc hlt' hle hne
    rw [size_exchange] at hlt'
    by_cases hci : c = i
    · -- the child that moves up was in order with the parent of `i`
      subst hci
      have hpc := parent_lt hc
      rw [hself, hother (parent c) (Nat.ne_of_lt hpc) hne]
      exact hd.grand hc hle child hpos hlt hparent
    by_cases hcc : c = child
    · rw [hcc, keyAt_exchange_right hi hlt, hparent, hself]
      exact ho.asymm (hK child hlt) (hK i hi) hb
    rw [hother c hci hcc]
    by_cases he : parent c = i
    · rw [he, hself]
      exact hfirst c hc hlt' he
    · rw [hother _ he hne]
      exact hd.except c hc hlt' hle he
  · intro _ _ c hc hlt' he
    rw [size_exchange] at hlt'
    have hcc := parent_lt hc
    rw [hparent, hself, hother c (by omega) (by omega)]
    have := hd.except c hc hlt' (by omega) (by omega)
    rwa [he] at this

theorem siftDown_ordered (ho : Orders before K) (h : KeyHeap) (i : Nat) (hi : i < h.size)
    (hk : k ≤ i) (hK : Within K h) (hd : DownOrder before k h i) :
    OrderedFrom before k (siftDown before h i) := by
  fun_induction siftDown before h i with
  | case1 h i hle =>
    intro c hc hlt hkc
    refine hd.except c hc hlt hkc fun he => ?_
    have hlt' : c < h.size := hlt
    unfold parent at he
    omega
  | case2 h i hle child hb ih =>
    have hlt : child < h.size := firstChild_lt before (by omega)
    have hparent : parent child = i := parent_firstChild before h i
    have hpos : 0 < child := firstChild_pos before h i
    have hic := parent_lt hpos
    exact ih (by rw [size_exchange]; exact hlt) (by omega) (hK.exchange hi hlt)
      (hd.exchange ho hK hi hk hpos hlt hparent
        (fun c hc hlt' hp => firstChild_first ho hK hc hlt' hp) hb)
  | case3 h i hle child hb =>
    intro c hc hlt hkc
    have hlt' : c < h.size := hlt
    by_cases he : parent c = i
    · have hchild : child < h.size := firstChild_lt before (by omega)
      have hpi : parent c < h.size := Nat.lt_trans (parent_lt hc) hlt'
      show before (h.keyAt c) (h.keyAt (parent c)) = false
      rw [he] at hpi ⊢
      exact ho.not_before_trans (hK i hpi) (hK child hchild) (hK c hlt')
        ((Bool.not_eq_true _).mp hb) (firstChild_first ho hK hc hlt' he)
    · exact hd.except c hc hlt hkc he

/-- A key that no child leaves ahead of stays where it is. -/
theorem siftDown_of_settled (hsettled : ∀ c, 0 < c → c < h.size → parent c = i →
    before (h.keyAt c) (h.keyAt i) = false) : siftDown before h i = h.note i := by
  unfold siftDown
  split
  · rfl
  · rename_i hle
    have hfalse := hsettled _ (firstChild_pos before h i) (firstChild_lt before (by omega))
      (parent_firstChild before h i)
    simp only [hfalse, Bool.false_eq_true, if_false]

/-! ## Around one position -/

/-- All keys but the one at `i` and its children are in order with their parents, and the children of
    `i` with the parent of `i`. -/
structure AroundOrder (before : Nat → Nat → Bool) (h : KeyHeap) (i : Nat) : Prop where
  except : ∀ c, 0 < c → c < h.size → c ≠ i → parent c ≠ i →
    before (h.keyAt c) (h.keyAt (parent c)) = false
  grand : 0 < i → ∀ c, 0 < c → c < h.size → parent c = i →
    before (h.keyAt c) (h.keyAt (parent i)) = false

/-- Another place in the order for one key leaves the heap in order around it. -/
theorem Ordered.aroundOrder (hord : Ordered before h) (hh : Ok h) (ho : Orders before K)
    (hK : Within K h) (hi : i < h.size) (hsame : ∀ a ∈ K, ∀ b ∈ K, a ≠ h.keyAt i → b ≠ h.keyAt i →
      before' a b = before a b) : AroundOrder before' h i := by
  have hat : ∀ c < h.size, ∀ d < h.size, c ≠ i → d ≠ i →
      before' (h.keyAt c) (h.keyAt d) = before (h.keyAt c) (h.keyAt d) := fun c hc d hd hci hdi =>
    hsame _ (hK c hc) _ (hK d hd) (fun he => hci (keyAt_inj hh.nodup hc hi he))
      fun he => hdi (keyAt_inj hh.nodup hd hi he)
  constructor
  · intro c hc hlt hci hpi
    rw [hat c hlt _ (Nat.lt_trans (parent_lt hc) hlt) hci hpi]
    exact hord c hc hlt
  · intro hpos c hc hlt he
    have hpp := parent_lt hpos
    have hcp := parent_lt hc
    rw [hat c hlt _ (Nat.lt_trans hpp hi) (by omega) (by omega)]
    exact (hord.upOrder ho hK hi).grand hpos c hc hlt he

namespace AroundOrder

/-- A key that leaves ahead of its parent leaves ahead of its children. -/
theorem settled (ha : AroundOrder before h i) (ho : Orders before K) (hK : Within K h)
    (hpos : 0 < i) (hi : i < h.size) (hb : before (h.keyAt i) (h.keyAt (parent i)) = true) :
    ∀ c, 0 < c → c < h.size → parent c = i → before (h.keyAt c) (h.keyAt i) = false :=
  fun c hc hlt he => ho.not_before_of_before (hK _ (Nat.lt_trans (parent_lt hpos) hi)) (hK i hi)
    (hK c hlt) hb (ha.grand hpos c hc hlt he)

theorem upOrder (ha : AroundOrder before h i) (hsettled : ∀ c, 0 < c → c < h.size → parent c = i →
    before (h.keyAt c) (h.keyAt i) = false) : UpOrder before h i where
  except c hc hlt hci := by
    by_cases he : parent c = i
    · rw [he]
      exact hsettled c hc hlt he
    · exact ha.except c hc hlt hci he
  grand := ha.grand

theorem downOrder (ha : AroundOrder before h i)
    (hb : 0 < i → before (h.keyAt i) (h.keyAt (parent i)) = false) : DownOrder before 0 h i where
  except c hc hlt _ hpi := by
    by_cases hci : c = i
    · subst hci
      exact hb hc
    · exact ha.except c hc hlt hci hpi
  grand hpos _ := ha.grand hpos

end AroundOrder

/-! ## The operations -/

theorem keyAt_push (h : KeyHeap) (key : Nat) (places : SparseTable Nat) (hi : i ≤ h.size) :
    (⟨h.keys.push key, places⟩ : KeyHeap).keyAt i = if i = h.size then key else h.keyAt i := by
  have hi' : i ≤ h.keys.size := hi
  simp only [keyAt, size, Array.getD_eq_getD_getElem?, Array.getElem?_push]
  split <;> rfl

theorem insert_ordered (hh : Ordered before h) (ho : Orders before K) (hK : Within K h) {key : Nat}
    (hkey : key ∈ K) : Ordered before (h.insert before key) := by
  unfold insert
  split
  · exact hh
  · have hat := fun i => keyAt_push (i := i) h key h.places
    have hsize : size ⟨h.keys.push key, h.places⟩ = h.size + 1 := Array.size_push key
    refine siftUp_ordered ho _ _ (hsize ▸ Nat.lt_succ_self _) (fun i hi => ?_)
      ⟨fun c hc hlt hne => ?_, fun _ c hc hlt he => ?_⟩
    · rw [hsize] at hi
      rw [hat i (Nat.lt_succ_iff.1 hi)]
      split
      · exact hkey
      · exact hK i (by omega)
    · rw [hsize] at hlt
      have hp := parent_lt hc
      rw [hat c (by omega), hat (parent c) (by omega), if_neg hne, if_neg (by omega)]
      exact hh c hc (by omega)
    · -- the last position has no child
      rw [hsize] at hlt
      have := parent_lt hc
      omega

theorem pop?_eq (before : Nat → Nat → Bool) (h : KeyHeap) : h.pop? before =
    if h.isEmpty then none
    else some (h.keyAt 0, if h.withoutFirst.isEmpty then h.withoutFirst
      else siftDown before h.withoutFirst 0) := rfl

theorem pop?_ordered (hh : Ok h) (hord : Ordered before h) (ho : Orders before K)
    (hK : Within K h) {first : Nat} (hp : h.pop? before = some (first, h')) :
    first = h.keyAt 0 ∧ Ordered before h' := by
  rw [pop?_eq] at hp
  split at hp
  · cases hp
  rename_i hne
  have hpos : 0 < h.size := by
    rw [isEmpty, Array.isEmpty_iff_size_eq_zero] at hne
    exact Nat.pos_of_ne_zero hne
  obtain ⟨-, hmem, hsize⟩ := hh.withoutFirst hpos
  cases hp
  refine ⟨rfl, ?_⟩
  split
  · rename_i hempty
    rw [isEmpty, Array.isEmpty_iff_size_eq_zero] at hempty
    exact fun c _ hlt => absurd hlt (by rw [size, hempty]; exact Nat.not_lt_zero c)
  · rename_i hempty
    rw [isEmpty, Array.isEmpty_iff_size_eq_zero] at hempty
    refine orderedFrom_zero.1 (siftDown_ordered ho _ 0 (Nat.pos_of_ne_zero hempty) (Nat.le_refl 0)
      (fun i hi => ?_) ⟨fun c hc hlt _ hne => ?_, fun hlt => absurd hlt (Nat.lt_irrefl 0)⟩)
    · obtain ⟨j, hj, he⟩ := mem_keys_iff.1 ((hmem _).1 (mem_keys_iff.2 ⟨i, hi, rfl⟩)).1
      exact he ▸ hK j hj
    · rw [keyAt_withoutFirst hlt (Nat.ne_of_gt hc),
        keyAt_withoutFirst (Nat.lt_trans (parent_lt hc) hlt) hne]
      exact hord c hc (by omega)

theorem Arranged.within (ha : Arranged h h') (hK : Within K h) : Within K h' := by
  intro i hi
  obtain ⟨j, hj, he⟩ := mem_keys_iff.1 (ha.mem_iff.1 (mem_keys_iff.2 ⟨i, hi, rfl⟩))
  exact he ▸ hK j hj

/-- A key whose place in the order changed moves to its new place. -/
theorem update_ordered (hh : Ok h) (hord : Ordered before h) (ho : Orders before K)
    (ho' : Orders before' K) (hK : Within K h) {key : Nat}
    (hsame : ∀ a ∈ K, ∀ b ∈ K, a ≠ key → b ≠ key → before' a b = before a b) :
    Ordered before' (h.update before' key) := by
  unfold update
  split
  · -- the key is not there, so the order of the others is the old one
    rename_i hnone
    have hne : ∀ i < h.size, h.keyAt i ≠ key := fun i hi he => by
      have := hh.place i hi
      rw [he, hnone] at this
      cases this
    intro c hc hlt
    have hp := Nat.lt_trans (parent_lt hc) hlt
    rw [hsame _ (hK c hlt) _ (hK _ hp) (hne c hlt) (hne _ hp)]
    exact hord c hc hlt
  rename_i place hplace
  obtain ⟨hlt, rfl⟩ := hh.keyAt_of_get? hplace
  have haround := hord.aroundOrder hh ho hK hlt hsame
  dsimp only
  by_cases hup : 0 < place ∧ before' (h.keyAt place) (h.keyAt (parent place)) = true
  · -- the key moves up: it stands ahead of its children already
    have hsettled := haround.settled ho' hK hup.1 hlt hup.2
    have hnoted := (hh.except place).note hlt
    rw [siftDown_of_settled hsettled,
      show (h.note place).places.get? (h.keyAt place) = some place from hnoted.place place hlt]
    have horder := haround.upOrder hsettled
    exact siftUp_ordered ho' (h.note place) place hlt hK ⟨horder.except, horder.grand⟩
  · have hstays : 0 < place → before' (h.keyAt place) (h.keyAt (parent place)) = false :=
      fun hpos => (Bool.not_eq_true _).mp fun hb => hup ⟨hpos, hb⟩
    have hdown : Ordered before' (siftDown before' h place) := orderedFrom_zero.1
      (siftDown_ordered ho' h place hlt (Nat.zero_le _) hK (haround.downOrder hstays))
    have harr := siftDown_spec before' h place hlt (hh.except place)
    split
    · exact hdown
    · rename_i place' hplace'
      have hlt' := (harr.ok.keyAt_of_get? hplace').1
      exact siftUp_ordered ho' _ place' hlt' (harr.within hK)
        (hdown.upOrder ho' (harr.within hK) hlt')

theorem heapify_ordered (ho : Orders before K) : ∀ (n : Nat) (h : KeyHeap), n ≤ h.size → Ok h →
    Within K h → OrderedFrom before n h → Ordered before (heapify before n h)
  | 0, _, _, _, _, hord => orderedFrom_zero.1 hord
  | n + 1, h, hn, hh, hK, hord => by
    have harr := siftDown_spec before h n hn (hh.except n)
    refine heapify_ordered ho n _ (by rw [harr.size]; omega) harr.ok (harr.within hK)
      (siftDown_ordered ho h n hn (Nat.le_refl n) hK ⟨fun c hc hlt hle hne => ?_, fun hpos hle => ?_⟩)
    · exact hord c hc hlt (by omega)
    · -- no position from `n` on is the parent of `n`
      exact absurd hle (Nat.not_le.2 (parent_lt hpos))

theorem ofKeys_ordered (ho : Orders before K) {keys : List Nat} (hn : keys.Nodup)
    (hK : ∀ key ∈ keys, key ∈ K) : Ordered before (ofKeys before keys) := by
  have hsize : size ⟨keys.toArray, placesOf keys⟩ = keys.length := rfl
  refine heapify_ordered ho _ _ (Nat.le_refl _) (ok_placesOf hn) (fun i hi => ?_)
    fun c hc hlt hle => ?_
  · have hmem : keyAt ⟨keys.toArray, placesOf keys⟩ i ∈ keys.toArray :=
      mem_keys_iff (h := ⟨keys.toArray, placesOf keys⟩).2 ⟨i, hi, rfl⟩
    exact hK _ (by simpa using hmem)
  · rw [hsize] at hlt
    have := parent_lt hc
    omega

end KeyHeap

end ConfigSampler
