import ConfigSampler.Proofs.Truth
import ConfigSampler.Solver.Arena
import Mathlib.Data.List.Nodup

/-!
# Clauses in the arena

`Clause.Ok` is what the solver relies on in a stored clause: at least two literals, all different
and of variables in range.  `Arena.Alike` says that two arenas hold the same clauses up to the order
of their literals; the operations that only reorder literals or change activities keep arenas alike.
-/

set_option autoImplicit false

namespace ConfigSampler

namespace Clause

variable {c d : Clause} {l : Lit}

/-- Two or more different literals over `n` variables, not moved to another arena. -/
structure Ok (n : Nat) (c : Clause) : Prop where
  two_le : 2 ≤ c.lits.size
  nodup : c.lits.toList.Nodup
  var_lt : ∀ l ∈ c.lits, l.var < n
  movedTo : c.movedTo = none

/-- The clause is watched through the literal: it is one of the first two. -/
def IsWatched (c : Clause) (l : Lit) : Prop := l = c.head ∨ l = c.second

theorem litAt_eq {i : Nat} (h : i < c.lits.size) : c.litAt i = c.lits[i] := by
  simp [litAt, Array.getD_eq_getD_getElem?, h]

theorem litAt_mem {i : Nat} (h : i < c.lits.size) : c.litAt i ∈ c.lits := by
  rw [litAt_eq h]; exact Array.getElem_mem h

theorem exists_litAt (h : l ∈ c.lits) : ∃ i < c.lits.size, c.litAt i = l := by
  obtain ⟨i, hi, rfl⟩ := Array.mem_iff_getElem.1 h
  exact ⟨i, hi, litAt_eq hi⟩

theorem litAt_swap {i j : Nat} (hi : i < c.lits.size) (hj : j < c.lits.size) (k : Nat) :
    (c.swap i j).litAt k = if k = j then c.litAt i else if k = i then c.litAt j else c.litAt k := by
  simp only [litAt, swap, Array.getD_eq_getD_getElem?, Array.swapIfInBounds_def, hi, hj, dite_true,
    Array.getElem?_swap]
  grind

theorem lits_swap_perm (c : Clause) (i j : Nat) :
    (c.swap i j).lits.toList.Perm c.lits.toList := by
  simp only [swap, Array.swapIfInBounds_def]
  split
  · split
    · exact (Array.swap_perm _ _).toList
    · exact .refl _
  · exact .refl _

namespace Ok

variable {n : Nat}

theorem head_mem (h : c.Ok n) : c.head ∈ c.lits := litAt_mem (by have := h.two_le; omega)

theorem second_mem (h : c.Ok n) : c.second ∈ c.lits := litAt_mem h.two_le

theorem mem_of_isWatched (h : c.Ok n) (hw : c.IsWatched l) : l ∈ c.lits := by
  rcases hw with rfl | rfl
  · exact h.head_mem
  · exact h.second_mem

theorem litAt_inj (h : c.Ok n) {i j : Nat} (hi : i < c.lits.size) (hj : j < c.lits.size)
    (he : c.litAt i = c.litAt j) : i = j := by
  rw [litAt_eq hi, litAt_eq hj] at he
  have hi' : i < c.lits.toList.length := hi
  have hj' : j < c.lits.toList.length := hj
  exact (List.Nodup.getElem_inj_iff h.nodup).1
    (show c.lits.toList[i] = c.lits.toList[j] by simpa using he)

theorem head_ne_second (h : c.Ok n) : c.head ≠ c.second := by
  intro he
  have := h.litAt_inj (by have := h.two_le; omega) h.two_le he
  omega

theorem mem_drop_one (h : c.Ok n) : l ∈ c.lits.toList.drop 1 ↔ l ∈ c.lits ∧ l ≠ c.head := by
  have hpos : 0 < c.lits.toList.length := by have := h.two_le; simp only [Array.length_toList]; omega
  have hhead : c.head = c.lits.toList[0] := by
    rw [head, litAt_eq (by simpa using hpos)]; simp
  have hcons := List.drop_eq_getElem_cons hpos
  have hn := h.nodup
  rw [List.drop_zero] at hcons
  rw [← Array.mem_toList_iff, hhead]
  generalize c.lits.toList[0] = k at *
  rw [hcons, List.nodup_cons] at hn
  rw [hcons]
  constructor
  · intro hl
    exact ⟨List.mem_cons_of_mem _ hl, fun he => hn.1 (he ▸ hl)⟩
  · rintro ⟨hl, hne⟩
    exact (List.mem_cons.1 hl).resolve_left hne

end Ok

/-- The clauses differ at most in the order of their literals and in activity. -/
structure Alike (c d : Clause) : Prop where
  perm : d.lits.toList.Perm c.lits.toList
  learnt : d.learnt = c.learnt
  deleted : d.deleted = c.deleted
  movedTo : d.movedTo = c.movedTo

theorem Alike.refl (c : Clause) : Alike c c := ⟨.refl _, rfl, rfl, rfl⟩

theorem Alike.trans {e : Clause} (h : Alike c d) (h' : Alike d e) : Alike c e :=
  ⟨h'.perm.trans h.perm, h'.learnt.trans h.learnt, h'.deleted.trans h.deleted,
    h'.movedTo.trans h.movedTo⟩

theorem Alike.mem_iff (h : Alike c d) : l ∈ d.lits ↔ l ∈ c.lits := by
  rw [← Array.mem_toList_iff, h.perm.mem_iff, Array.mem_toList_iff]

theorem Alike.ok {n : Nat} (h : Alike c d) (hc : c.Ok n) : d.Ok n where
  two_le := by
    have := h.perm.length_eq
    simp only [Array.length_toList] at this
    rw [this]; exact hc.two_le
  nodup := h.perm.nodup_iff.2 hc.nodup
  var_lt l hl := hc.var_lt l (h.mem_iff.1 hl)
  movedTo := h.movedTo.trans hc.movedTo

theorem alike_swap (c : Clause) (i j : Nat) : Alike c (c.swap i j) :=
  ⟨c.lits_swap_perm i j, rfl, rfl, rfl⟩

end Clause

namespace Arena

variable {a b : Arena} {r s : ClauseRef} {f : Clause → Clause}

/-- The clause is stored and not deleted. -/
def IsLive (a : Arena) (r : ClauseRef) : Prop := (a.view r).deleted = false

theorem isDeleted_eq_false : a.isDeleted r = false ↔ a.IsLive r := .rfl

theorem IsLive.index_lt (h : a.IsLive r) : r.index < a.clauses.size := by
  by_contra hge
  simp only [IsLive, view, Array.getD_eq_getD_getElem?, Array.getElem?_eq_none (Nat.le_of_not_lt hge),
    Option.getD_none] at h
  cases h

theorem view_edit_self (f : Clause → Clause) (h : r.index < a.clauses.size) :
    (a.edit r f).view r = f (a.view r) := by
  simp only [view, edit, Array.getD_eq_getD_getElem?, Array.getElem?_modify, if_true,
    Array.getElem?_eq_getElem h, Option.map_some, Option.getD_some]

/-- A clause is changed to what was made of it. -/
theorem edit_view (r : ClauseRef) (f : Clause → Clause) :
    a.edit r (fun _ => f (a.view r)) = a.edit r f := by
  have hclauses : a.clauses.modify r.index (fun _ => f (a.view r)) = a.clauses.modify r.index f := by
    refine Array.ext (by simp) fun i hi hi' => ?_
    rw [Array.getElem_modify, Array.getElem_modify]
    split
    · rename_i he
      subst he
      simp [view, Array.getD_eq_getD_getElem?, Array.getElem?_eq_getElem (by simpa using hi)]
    · rfl
  exact congrArg (fun clauses => { a with clauses := clauses }) hclauses

theorem view_edit_of_ne (f : Clause → Clause) (h : s ≠ r) : (a.edit r f).view s = a.view s := by
  have : r.index ≠ s.index := fun he => h (by cases r; cases s; simp_all)
  simp [view, edit, Array.getD_eq_getD_getElem?, Array.getElem?_modify, this]

theorem view_edit (f : Clause → Clause) (h : a.IsLive r) :
    (a.edit r f).view s = if s = r then f (a.view r) else a.view s := by
  split
  · rename_i he
    rw [he, view_edit_self f h.index_lt]
  · rename_i hne
    exact view_edit_of_ne f hne

theorem view_edit_of_le (f : Clause → Clause) (h : a.clauses.size ≤ r.index) :
    (a.edit r f).view s = a.view s := by
  simp only [view, edit, Array.getD_eq_getD_getElem?, Array.getElem?_modify]
  split
  · rename_i he
    rw [Array.getElem?_eq_none (by omega)]; rfl
  · rfl

theorem view_push_self (a : Arena) (lits : Array Lit) (learnt : Bool) (activity : Float) :
    (a.push lits learnt activity).2.view (a.push lits learnt activity).1 =
      ⟨lits, learnt, false, activity, none⟩ := by
  simp [view, push, Array.getD_eq_getD_getElem?]

theorem view_push_of_ne (lits : Array Lit) (learnt : Bool) (activity : Float)
    (h : s ≠ (a.push lits learnt activity).1) :
    (a.push lits learnt activity).2.view s = a.view s := by
  have : s.index ≠ a.clauses.size := fun he => h (by cases s; simp_all [push])
  simp [view, push, Array.getD_eq_getD_getElem?, Array.getElem?_push, this]

theorem not_isLive_push_fst (a : Arena) (lits : Array Lit) (learnt : Bool) (activity : Float) :
    ¬ a.IsLive (a.push lits learnt activity).1 := by
  intro h
  have := h.index_lt
  simp [push] at this

theorem isLive_push (lits : Array Lit) (learnt : Bool) (activity : Float) :
    (a.push lits learnt activity).2.IsLive s ↔
      a.IsLive s ∨ s = (a.push lits learnt activity).1 := by
  by_cases h : s = (a.push lits learnt activity).1
  · subst h
    simp only [IsLive, view_push_self, or_true]
  · simp only [IsLive, view_push_of_ne lits learnt activity h, h, or_false]

theorem index_lt_push (lits : Array Lit) (learnt : Bool) (activity : Float) :
    r.index < (a.push lits learnt activity).2.clauses.size ↔
      r.index < a.clauses.size ∨ r = (a.push lits learnt activity).1 := by
  have hname : r = ⟨a.clauses.size⟩ ↔ r.index = a.clauses.size := by
    cases r
    simp
  rw [show (a.push lits learnt activity).1 = ⟨a.clauses.size⟩ from rfl, hname]
  simp only [push, Array.size_push]
  omega

/-- The arenas hold the same clauses up to order of literals and activity. -/
structure Alike (a b : Arena) : Prop where
  size : b.clauses.size = a.clauses.size
  clause : ∀ r, Clause.Alike (a.view r) (b.view r)

namespace Alike

theorem refl (a : Arena) : Alike a a := ⟨rfl, fun _ => .refl _⟩

theorem trans {c : Arena} (h : Alike a b) (h' : Alike b c) : Alike a c :=
  ⟨h'.size.trans h.size, fun r => (h.clause r).trans (h'.clause r)⟩

theorem isLive_iff (h : Alike a b) : b.IsLive r ↔ a.IsLive r := by
  simp only [IsLive, (h.clause r).deleted]

end Alike

theorem size_edit (a : Arena) (r : ClauseRef) (f : Clause → Clause) :
    (a.edit r f).clauses.size = a.clauses.size := by simp [edit]

theorem alike_edit (h : ∀ c, Clause.Alike c (f c)) : Alike a (a.edit r f) := by
  refine ⟨size_edit a r f, fun s => ?_⟩
  by_cases hs : s = r
  · subst hs
    by_cases hlt : s.index < a.clauses.size
    · rw [view_edit_self f hlt]; exact h _
    · rw [view_edit_of_le f (by omega)]; exact .refl _
  · rw [view_edit_of_ne f hs]; exact .refl _

end Arena

end ConfigSampler
