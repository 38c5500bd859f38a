import ConfigSampler.Proofs.ClauseNames
import Mathlib.Algebra.Ring.Nat

/-!
# The counts of clauses, literals and words

The counts of the clause lists are adjusted clause by clause, and the arena is charged for a clause
when it is stored and credited, maybe with fewer literals, when it is deleted.  `Tallied` says that
the counts are those of the listed clauses and that the arena was charged for all of them and for its
waste.  In the loops that delete and shorten in bulk the listed clauses are those kept so far and
those still to come, as in `Divided`.

`ClauseLists.Checked` has the same deletions with a check before every step: no clause is deleted
twice, nothing is subtracted from a smaller count, and no more words are wasted than there are.
**The checks never fail** (`reduce_checked`, `removeSatisfied_checked`).
-/

set_option autoImplicit false

namespace ConfigSampler

namespace Arena

variable {a b : Arena} {refs refs' : List ClauseRef}

/-- The number of literals of clauses. -/
def literals (a : Arena) (refs : List ClauseRef) : Nat := (refs.map fun r => (a.view r).size).sum

theorem literals_append (a : Arena) (refs refs' : List ClauseRef) :
    a.literals (refs ++ refs') = a.literals refs + a.literals refs' := by
  rw [literals, List.map_append, List.sum_append]
  rfl

theorem literals_cons (a : Arena) (r : ClauseRef) (refs : List ClauseRef) :
    a.literals (r :: refs) = (a.view r).size + a.literals refs := List.sum_cons

theorem literals_congr (h : ∀ r ∈ refs, (b.view r).size = (a.view r).size) :
    b.literals refs = a.literals refs := congrArg List.sum (List.map_congr_left h)

theorem literals_perm (a : Arena) (h : refs.Perm refs') : a.literals refs = a.literals refs' :=
  (h.map _).sum_nat

end Arena

namespace ClauseLists

open Arena

variable {a b : Arena} {d d' : ClauseLists} {p : Propagator} {learnt : Bool} {size : Nat}
  {r : ClauseRef} {own own' others refs rest : List ClauseRef}

/-! ## One clause more or less -/

/-- The count of the clauses of one kind. -/
def numberOf (d : ClauseLists) (learnt : Bool) : Nat :=
  if learnt then d.numLearnts else d.numClauses

/-- The count of their literals. -/
def literalsOf (d : ClauseLists) (learnt : Bool) : Nat :=
  if learnt then d.learntLiterals else d.clauseLiterals

/-- The words that the counted clauses take up. -/
def words (d : ClauseLists) : Nat :=
  d.numClauses + d.clauseLiterals + (2 * d.numLearnts + d.learntLiterals)

/-- The counts are large enough to count a clause no longer. -/
def Covers (d : ClauseLists) (learnt : Bool) (size : Nat) : Prop :=
  0 < d.numberOf learnt ∧ size ≤ d.literalsOf learnt

instance (d : ClauseLists) (learnt : Bool) (size : Nat) : Decidable (d.Covers learnt size) :=
  inferInstanceAs (Decidable (_ ∧ _))

@[simp] theorem numberOf_count (d : ClauseLists) (learnt : Bool) (size : Nat) :
    (d.count learnt size).numberOf learnt = d.numberOf learnt + 1 := by cases learnt <;> rfl

@[simp] theorem numberOf_count_not (d : ClauseLists) (learnt : Bool) (size : Nat) :
    (d.count learnt size).numberOf (!learnt) = d.numberOf (!learnt) := by cases learnt <;> rfl

@[simp] theorem literalsOf_count (d : ClauseLists) (learnt : Bool) (size : Nat) :
    (d.count learnt size).literalsOf learnt = d.literalsOf learnt + size := by cases learnt <;> rfl

@[simp] theorem literalsOf_count_not (d : ClauseLists) (learnt : Bool) (size : Nat) :
    (d.count learnt size).literalsOf (!learnt) = d.literalsOf (!learnt) := by cases learnt <;> rfl

@[simp] theorem numberOf_discount (d : ClauseLists) (learnt : Bool) (size : Nat) :
    (d.discount learnt size).numberOf learnt = d.numberOf learnt - 1 := by cases learnt <;> rfl

@[simp] theorem numberOf_discount_not (d : ClauseLists) (learnt : Bool) (size : Nat) :
    (d.discount learnt size).numberOf (!learnt) = d.numberOf (!learnt) := by cases learnt <;> rfl

@[simp] theorem literalsOf_discount (d : ClauseLists) (learnt : Bool) (size : Nat) :
    (d.discount learnt size).literalsOf learnt = d.literalsOf learnt - size := by
  cases learnt <;> rfl

@[simp] theorem literalsOf_discount_not (d : ClauseLists) (learnt : Bool) (size : Nat) :
    (d.discount learnt size).literalsOf (!learnt) = d.literalsOf (!learnt) := by
  cases learnt <;> rfl

theorem words_count (d : ClauseLists) (learnt : Bool) (size : Nat) :
    (d.count learnt size).words = d.words + Arena.words size learnt := by
  cases learnt <;> simp [count, words, Arena.words] <;> omega

theorem words_discount (h : d.Covers learnt size) :
    (d.discount learnt size).words + Arena.words size learnt = d.words := by
  obtain ⟨hnumber, hliterals⟩ := h
  cases learnt <;> simp [numberOf, literalsOf] at hnumber hliterals <;>
    simp [discount, words, Arena.words] <;> omega

/-! ## The tally -/

/-- The counts are those of the clauses with the names. -/
structure Counts (d : ClauseLists) (a : Arena) (learnt : Bool) (refs : List ClauseRef) : Prop where
  number : d.numberOf learnt = refs.length
  literals : d.literalsOf learnt = a.literals refs

/-- The names are those of the live clauses, `own` of one kind and `others` of the other kind; the
    counts are right, and the arena was charged for these clauses and for its waste. -/
structure Tallied (d : ClauseLists) (a : Arena) (learnt : Bool) (own others : List ClauseRef) :
    Prop where
  divided : Divided a learnt own others
  own : Counts d a learnt own
  other : Counts d a (!learnt) others
  charged : a.wasted + d.words ≤ a.size
  unmoved : ∀ r, a.IsLive r → (a.view r).movedTo = none

theorem Counts.congr (h : Counts d a learnt refs) (hnumber : d'.numberOf learnt = d.numberOf learnt)
    (hliterals : d'.literalsOf learnt = d.literalsOf learnt)
    (hsize : ∀ r ∈ refs, (b.view r).size = (a.view r).size) : Counts d' b learnt refs :=
  ⟨hnumber.trans h.number, hliterals.trans (h.literals.trans (literals_congr hsize).symm)⟩

/-- The counts of one clause and the clauses around it. -/
theorem counts_around : Counts d a learnt (refs ++ r :: rest) ↔
    d.numberOf learnt = (refs ++ rest).length + 1 ∧
      d.literalsOf learnt = (a.view r).size + a.literals (refs ++ rest) := by
  have hperm : (refs ++ r :: rest).Perm (r :: (refs ++ rest)) := List.perm_middle
  have hlength : (refs ++ r :: rest).length = (refs ++ rest).length + 1 := hperm.length_eq
  have hliterals : a.literals (refs ++ r :: rest) = (a.view r).size + a.literals (refs ++ rest) :=
    (a.literals_perm hperm).trans (a.literals_cons r _)
  constructor
  · intro h
    exact ⟨h.number.trans hlength, h.literals.trans hliterals⟩
  · rintro ⟨hn, hl⟩
    exact ⟨hn.trans hlength.symm, hl.trans hliterals.symm⟩

namespace Tallied

theorem symm (h : Tallied d a learnt own others) : Tallied d a (!learnt) others own :=
  ⟨h.divided.symm, h.other, by rw [Bool.not_not]; exact h.own, h.charged, h.unmoved⟩

theorem perm (h : Tallied d a learnt own others) (hperm : own'.Perm own) :
    Tallied d a learnt own' others :=
  ⟨⟨h.divided.own.perm hperm, h.divided.other⟩,
    ⟨h.own.number.trans hperm.length_eq.symm, h.own.literals.trans (a.literals_perm hperm.symm)⟩,
    h.other, h.charged, h.unmoved⟩

/-- Only counts play a part. -/
theorem relist (h : Tallied d a learnt own others) (clauses learnts : Array ClauseRef)
    (increment : Float) :
    Tallied { d with clauses := clauses, learnts := learnts, increment := increment } a learnt own
      others :=
  ⟨h.divided, ⟨h.own.number, h.own.literals⟩, ⟨h.other.number, h.other.literals⟩, h.charged,
    h.unmoved⟩

/-- Another arena with clauses of the same sizes. -/
theorem congr (h : Tallied d a learnt own others) (hlive : ∀ r, b.IsLive r ↔ a.IsLive r)
    (hlearnt : ∀ r, (b.view r).learnt = (a.view r).learnt)
    (hsize : ∀ r, (b.view r).size = (a.view r).size)
    (hmoved : ∀ r, (b.view r).movedTo = (a.view r).movedTo) (hwords : b.size = a.size)
    (hwasted : b.wasted = a.wasted) : Tallied d b learnt own others where
  divided := h.divided.congr hlive hlearnt
  own := h.own.congr rfl rfl fun r _ => hsize r
  other := h.other.congr rfl rfl fun r _ => hsize r
  charged := by
    rw [hwords, hwasted]
    exact h.charged
  unmoved r hr := (hmoved r).trans (h.unmoved r ((hlive r).1 hr))

theorem wasted_le (h : Tallied d a learnt own others) : a.wasted ≤ a.size :=
  Nat.le_of_add_right_le h.charged

theorem isLive (h : Tallied d a learnt (refs ++ r :: rest) others) :
    a.IsLive r ∧ (a.view r).learnt = learnt :=
  (h.divided.own.mem_iff r).1 (List.mem_append_right _ List.mem_cons_self)

/-- A listed clause can be counted no longer. -/
theorem covers (h : Tallied d a learnt (refs ++ r :: rest) others) :
    d.Covers learnt (a.view r).size := by
  obtain ⟨hnumber, hliterals⟩ := counts_around.1 h.own
  exact ⟨by omega, by omega⟩

/-- A listed clause is none of those around it, and none of the other kind. -/
theorem ne_of_mem (h : Tallied d a learnt (refs ++ r :: rest) others) :
    (∀ s ∈ refs ++ rest, s ≠ r) ∧ ∀ s ∈ others, s ≠ r := by
  constructor
  · rintro s hs rfl
    have hperm : (refs ++ s :: rest).Perm (s :: (refs ++ rest)) := List.perm_middle
    exact (List.nodup_cons.1 (hperm.nodup_iff.1 h.divided.own.nodup)).1 hs
  · rintro s hs rfl
    have hkind := ((h.divided.other.mem_iff s).1 hs).2
    rw [h.isLive.2] at hkind
    simp at hkind

/-- A clause that is stored is counted and charged for. -/
theorem push (h : Tallied d a learnt own others) (lits : Array Lit) (activity : Float) :
    Tallied (d.count learnt lits.size) (a.push lits learnt activity).2 learnt
      (own ++ [(a.push lits learnt activity).1]) others := by
  have hold : ∀ r, a.IsLive r → (a.push lits learnt activity).2.view r = a.view r := by
    intro r hr
    refine view_push_of_ne lits learnt activity fun hname => ?_
    rw [hname] at hr
    exact a.not_isLive_push_fst lits learnt activity hr
  have hself := a.view_push_self lits learnt activity
  have hsize : ∀ {learnt' : Bool} {refs : List ClauseRef}, Names a learnt' refs →
      ∀ r ∈ refs, ((a.push lits learnt activity).2.view r).size = (a.view r).size :=
    fun hnames r hr => congrArg Clause.size (hold r ((hnames.mem_iff r).1 hr).1)
  refine ⟨h.divided.push lits activity, ⟨?_, ?_⟩, h.other.congr (by simp) (by simp)
    (hsize h.divided.other), ?_, fun r hr => ?_⟩
  · rw [numberOf_count, h.own.number, List.length_append, List.length_singleton]
  · rw [literalsOf_count, literals_append, literals_congr (hsize h.divided.own), h.own.literals,
      literals_cons, hself]
    rfl
  · have hcharged := h.charged
    rw [words_count]
    show a.wasted + (d.words + Arena.words lits.size learnt) ≤
      a.size + Arena.words lits.size learnt
    omega
  · rcases (isLive_push lits learnt activity).1 hr with hr | rfl
    · rw [hold r hr]
      exact h.unmoved r hr
    · rw [hself]

/-- A clause that is deleted is counted no longer, and its words are wasted. -/
theorem free (h : Tallied d a learnt (refs ++ r :: rest) others) :
    Tallied (d.discount learnt (a.view r).size) (a.free r) learnt (refs ++ rest) others := by
  have hview : ∀ s,
      (a.free r).view s = { a.view s with deleted := ((a.free r).view s).deleted } := by
    intro s
    rw [view_free, view_edit _ h.isLive.1]
    split
    · rename_i hs
      rw [hs]
    · rfl
  have hsize : ∀ s, ((a.free r).view s).size = (a.view s).size := fun s => by rw [hview s]; rfl
  obtain ⟨hnumber, hliterals⟩ := counts_around.1 h.own
  refine ⟨h.divided.free, ⟨?_, ?_⟩, h.other.congr (by simp) (by simp) fun s _ => hsize s, ?_,
    fun s hs => ?_⟩
  · rw [numberOf_discount, hnumber, Nat.add_sub_cancel]
  · rw [literalsOf_discount, hliterals, literals_congr fun s _ => hsize s, Nat.add_sub_cancel_left]
  · have hcharged := h.charged
    have hwords := words_discount h.covers
    show a.wasted + Arena.words (a.view r).size (a.view r).learnt + _ ≤ a.size
    rw [h.isLive.2]
    omega
  · rw [hview s]
    exact h.unmoved s (isLive_free.1 hs).2

/-- A clause that loses literals is counted with those that are left. -/
theorem shrink (h : Tallied d a learnt (refs ++ r :: rest) others) {f : Clause → Clause}
    (hf : ∀ c, f c = { c with lits := (f c).lits }) (hle : (f (a.view r)).size ≤ (a.view r).size) :
    Tallied ((d.discount learnt (a.view r).size).count learnt (f (a.view r)).size) (a.edit r f)
      learnt (refs ++ r :: rest) others := by
  have hlive := h.isLive.1
  have hself := view_edit_self f hlive.index_lt
  have hother : ∀ s, s ≠ r → (a.edit r f).view s = a.view s := fun s hs => view_edit_of_ne f hs
  have hview : ∀ s, (a.edit r f).view s = { a.view s with lits := ((a.edit r f).view s).lits } := by
    intro s
    by_cases hs : s = r
    · rw [hs, hself]
      exact hf _
    · rw [hother s hs]
  have hliveIff : ∀ s, (a.edit r f).IsLive s ↔ a.IsLive s := fun s => by
    rw [IsLive, hview s]
    rfl
  obtain ⟨haround, hothers⟩ := h.ne_of_mem
  obtain ⟨hnumber, hliterals⟩ := counts_around.1 h.own
  have hleft : (a.edit r f).literals (refs ++ rest) = a.literals (refs ++ rest) :=
    literals_congr fun s hs => by rw [hother s (haround s hs)]
  refine ⟨h.divided.congr hliveIff fun s => by rw [hview s], counts_around.2 ⟨?_, ?_⟩,
    h.other.congr (by simp) (by simp) fun s hs => by rw [hother s (hothers s hs)], ?_,
    fun s hs => ?_⟩
  · rw [numberOf_count, numberOf_discount, hnumber, Nat.add_sub_cancel]
  · rw [literalsOf_count, literalsOf_discount, hliterals, hleft, hself, Nat.add_sub_cancel_left,
      Nat.add_comm]
  · have hcharged := h.charged
    have hwords := words_discount h.covers
    rw [words_count]
    show a.wasted + _ ≤ a.size
    simp only [Arena.words] at hwords ⊢
    omega
  · rw [hview s]
    exact h.unmoved s ((hliveIff s).1 hs)

end Tallied

/-! ## Deletions with checks -/

namespace Checked

/-- The clause is not deleted yet, the counts are large enough to count it no longer, and its words
    are no more than are left. -/
def Deletable (d : ClauseLists) (a : Arena) (r : ClauseRef) : Prop :=
  a.IsLive r ∧ d.Covers (a.view r).learnt (a.view r).size ∧
    a.wasted + Arena.words (a.view r).size (a.view r).learnt ≤ a.size

instance (d : ClauseLists) (a : Arena) (r : ClauseRef) : Decidable (Deletable d a r) :=
  inferInstanceAs (Decidable (_ = false ∧ _ ∧ _))

/-- Deletes a clause if it can be deleted. -/
def delete (d : ClauseLists) (p : Propagator) (r : ClauseRef) : Option (ClauseLists × Propagator) :=
  if Deletable d p.arena r then some (d.delete p r) else none

/-- Shortens a clause if the counts are large enough. -/
def shorten (d : ClauseLists) (p : Propagator) (r : ClauseRef) :
    Option (ClauseLists × Propagator) :=
  if d.Covers (p.arena.view r).learnt (p.arena.view r).size then some (d.shorten p r) else none

/-- `ClauseLists.reduceLoop` with checks. -/
def reduceLoop (least : Float) : List ClauseRef → Nat → Array ClauseRef → ClauseLists →
    Propagator → Option (Array ClauseRef × ClauseLists × Propagator)
  | [], _, kept, d, p => some (kept, d, p)
  | r :: rest, half, kept, d, p =>
    if isDispensable p r (decide (0 < half)) least then
      match delete d p r with
      | none => none
      | some (d, p) => reduceLoop least rest (half - 1) kept d p
    else if p.arena.isDeleted r then reduceLoop least rest (half - 1) kept d p
    else reduceLoop least rest (half - 1) (kept.push r) d p

/-- `ClauseLists.reduce` with checks. -/
def reduce (d : ClauseLists) (p : Propagator) : Option (ClauseLists × Propagator) :=
  let order := d.learnts.toList.mergeSort (deletedBefore p.arena)
  let half := order.length / 2
  let least := d.increment / Float.ofNat order.length
  match reduceLoop least order half #[] d p with
  | none => none
  | some (kept, d, p) => some ({ d with learnts := kept }, p)

/-- `ClauseLists.simplifyLoop` with checks. -/
def simplifyLoop : List ClauseRef → Array ClauseRef → ClauseLists → Propagator →
    Option (Array ClauseRef × ClauseLists × Propagator)
  | [], kept, d, p => some (kept, d, p)
  | r :: rest, kept, d, p =>
    if p.arena.isDeleted r then simplifyLoop rest kept d p
    else if isSatisfied p.trail (p.arena.view r) then
      match delete d p r with
      | none => none
      | some (d, p) => simplifyLoop rest kept d p
    else
      match shorten d p r with
      | none => none
      | some (d, p) => simplifyLoop rest (kept.push r) d p

/-- `ClauseLists.removeSatisfied` with checks. -/
def removeSatisfied (d : ClauseLists) (p : Propagator) : Option (ClauseLists × Propagator) :=
  match simplifyLoop d.learnts.toList #[] d p with
  | none => none
  | some (kept, d, p) =>
    let d := { d with learnts := kept }
    if d.settings.removeSatisfied then
      match simplifyLoop d.clauses.toList #[] d p with
      | none => none
      | some (kept, d, p) => some ({ d with clauses := kept }, p)
    else some (d, p)

end Checked

/-! ## The checks never fail -/

theorem delete_checked (h : Tallied d p.arena learnt (refs ++ r :: rest) others) :
    Checked.delete d p r = some (d.delete p r) ∧
    Tallied (d.delete p r).1 (d.delete p r).2.arena learnt (refs ++ rest) others := by
  obtain ⟨hlive, hkind⟩ := h.isLive
  have hfree := h.free
  have hdeletable : Checked.Deletable d p.arena r := by
    refine ⟨hlive, ?_, hfree.wasted_le⟩
    rw [hkind]
    exact h.covers
  refine ⟨if_pos hdeletable, ?_⟩
  show Tallied (d.discount (p.arena.view r).learnt (p.arena.view r).size) (p.arena.free r) learnt
    (refs ++ rest) others
  rw [hkind]
  exact hfree

theorem size_retainFrom_le (keep : Lit → Bool) (lits : Array Lit) (i : Nat) :
    (Clause.retainFrom keep lits i).size ≤ lits.size := by
  fun_induction Clause.retainFrom keep lits i with
  | case1 lits i hi hkeep ih => exact ih
  | case2 lits i hi hkeep ih =>
    rw [Array.size_pop, Array.size_swapIfInBounds] at ih
    omega
  | case3 lits i hi => exact Nat.le_refl _

theorem shorten_checked (h : Tallied d p.arena learnt (refs ++ r :: rest) others) :
    Checked.shorten d p r = some (d.shorten p r) ∧
    Tallied (d.shorten p r).1 (d.shorten p r).2.arena learnt (refs ++ r :: rest) others := by
  obtain ⟨hlive, hkind⟩ := h.isLive
  have hself := view_edit_self (fun c => c.retainSuffix 2 fun l => !p.trail.isFalse l) hlive.index_lt
  refine ⟨if_pos ?_, ?_⟩
  · rw [hkind]
    exact h.covers
  · unfold ClauseLists.shorten
    dsimp only
    rw [hself, hkind]
    exact h.shrink (f := fun c => c.retainSuffix 2 fun l => !p.trail.isFalse l) (fun c => rfl)
      (size_retainFrom_le _ _ _)

theorem reduceLoop_checked (least : Float) : ∀ (order : List ClauseRef) (half : Nat)
    (kept : Array ClauseRef) (d : ClauseLists) (p : Propagator),
    Tallied d p.arena true (kept.toList ++ order) others →
    Checked.reduceLoop least order half kept d p = some (reduceLoop least order half kept d p) ∧
    Tallied (reduceLoop least order half kept d p).2.1
      (reduceLoop least order half kept d p).2.2.arena true
      (reduceLoop least order half kept d p).1.toList others
  | [], half, kept, d, p, h => by
    rw [List.append_nil] at h
    exact ⟨rfl, h⟩
  | r :: rest, half, kept, d, p, h => by
    unfold Checked.reduceLoop reduceLoop
    split
    · obtain ⟨hdelete, hleft⟩ := delete_checked h
      rw [hdelete]
      exact reduceLoop_checked least rest (half - 1) kept _ _ hleft
    · rw [isDeleted_eq_false.2 h.isLive.1]
      refine reduceLoop_checked least rest (half - 1) (kept.push r) d p ?_
      rwa [Array.toList_push, List.append_assoc]

theorem simplifyLoop_checked : ∀ (order : List ClauseRef) (kept : Array ClauseRef)
    (d : ClauseLists) (p : Propagator),
    Tallied d p.arena learnt (kept.toList ++ order) others →
    Checked.simplifyLoop order kept d p = some (simplifyLoop order kept d p) ∧
    Tallied (simplifyLoop order kept d p).2.1 (simplifyLoop order kept d p).2.2.arena learnt
      (simplifyLoop order kept d p).1.toList others
  | [], kept, d, p, h => by
    rw [List.append_nil] at h
    exact ⟨rfl, h⟩
  | r :: rest, kept, d, p, h => by
    unfold Checked.simplifyLoop simplifyLoop
    rw [isDeleted_eq_false.2 h.isLive.1, if_neg Bool.false_ne_true, if_neg Bool.false_ne_true]
    split
    · obtain ⟨hdelete, hleft⟩ := delete_checked h
      rw [hdelete]
      exact simplifyLoop_checked rest kept _ _ hleft
    · obtain ⟨hshorten, hleft⟩ := shorten_checked h
      rw [hshorten]
      refine simplifyLoop_checked rest (kept.push r) _ _ ?_
      rwa [Array.toList_push, List.append_assoc]

/-- The lists name the live clauses, and the counts are right. -/
def Accounts (d : ClauseLists) (a : Arena) : Prop :=
  Tallied d a false d.clauses.toList d.learnts.toList

/-- **Reducing the learnt clauses passes all checks** and leaves the accounts in order. -/
theorem reduce_checked (h : d.Accounts p.arena) :
    Checked.reduce d p = some (d.reduce p) ∧ (d.reduce p).1.Accounts (d.reduce p).2.arena := by
  unfold Checked.reduce ClauseLists.reduce
  dsimp only
  have hperm := List.mergeSort_perm d.learnts.toList (deletedBefore p.arena)
  generalize d.learnts.toList.mergeSort (deletedBefore p.arena) = order at *
  have horder : Tallied d p.arena true (#[].toList ++ order) d.clauses.toList := h.symm.perm hperm
  obtain ⟨hchecked, hleft⟩ := reduceLoop_checked (d.increment / Float.ofNat order.length) order
    (order.length / 2) #[] d p horder
  obtain ⟨-, hclauses⟩ := reduceLoop_divided (d.increment / Float.ofNat order.length) order
    (order.length / 2) #[] d p horder.divided rfl
  rw [hchecked]
  generalize reduceLoop _ order (order.length / 2) #[] d p = out at *
  obtain ⟨kept, d', q⟩ := out
  rw [← hclauses] at hleft
  exact ⟨rfl, hleft.symm.relist d'.clauses kept d'.increment⟩

/-- **Simplifying passes all checks** and leaves the accounts in order. -/
theorem removeSatisfied_checked (h : d.Accounts p.arena) :
    Checked.removeSatisfied d p = some (d.removeSatisfied p) ∧
      (d.removeSatisfied p).1.Accounts (d.removeSatisfied p).2.arena := by
  unfold Checked.removeSatisfied ClauseLists.removeSatisfied
  have hlearnts : Tallied d p.arena true (#[].toList ++ d.learnts.toList) d.clauses.toList := h.symm
  obtain ⟨hchecked, hleft⟩ := simplifyLoop_checked _ _ _ _ hlearnts
  obtain ⟨-, hclauses, -⟩ := simplifyLoop_divided _ _ _ _ hlearnts.divided rfl
  rw [hchecked]
  generalize simplifyLoop d.learnts.toList #[] d p = out at *
  obtain ⟨kept, d1, p1⟩ := out
  dsimp only at hleft hclauses ⊢
  rw [← hclauses] at hleft
  split
  · have hproblem : Tallied { d1 with learnts := kept } p1.arena false
        (#[].toList ++ d1.clauses.toList) kept.toList :=
      hleft.symm.relist d1.clauses kept d1.increment
    obtain ⟨hchecked', hleft'⟩ := simplifyLoop_checked _ _ _ _ hproblem
    obtain ⟨-, -, hlearnts'⟩ := simplifyLoop_divided _ _ _ _ hproblem.divided rfl
    rw [hchecked']
    generalize simplifyLoop d1.clauses.toList #[] { d1 with learnts := kept } p1 = out' at *
    obtain ⟨kept', d2, p2⟩ := out'
    dsimp only at hleft' hlearnts' ⊢
    rw [← hlearnts'] at hleft'
    exact ⟨rfl, hleft'.relist kept' d2.learnts d2.increment⟩
  · exact ⟨rfl, hleft.symm.relist d1.clauses kept d1.increment⟩

end ClauseLists

end ConfigSampler
