import ConfigSampler.Proofs.Watching

/-!
# Watch lists

`Propagator.watchersOf` is what a list comes to when its stale entries are left out.  Replacing a
list, adding a watcher to it and marking it as stale change this one list only, and a list that is
not marked has no stale entries (`Propagator.Fresh`).
-/

set_option autoImplicit false

namespace ConfigSampler

theorem Lit.code_ne {l m : Lit} (h : l ≠ m) : l.code ≠ m.code := by
  cases l; cases m; simpa using h

namespace WatchTable

variable {w : WatchTable} {l m : Lit} {x : Watcher}

/-- The list of a literal. -/
def listOf (w : WatchTable) (l : Lit) : WatchList := w.slots.getD l.code default

theorem listOf_set_self (list : WatchList) (h : l.code < w.slots.size) :
    listOf (DenseTable.set w l.code list) l = list := by
  simp [listOf, DenseTable.set, Array.getD_eq_getD_getElem?, h]

theorem listOf_set_of_ne (list : WatchList) (h : m ≠ l) :
    listOf (DenseTable.set w l.code list) m = listOf w m := by
  simp [listOf, DenseTable.set, Array.getD_eq_getD_getElem?, Lit.code_ne h.symm]

theorem slots_set (w : WatchTable) (l : Lit) (list : WatchList) :
    (DenseTable.set w l.code list).slots.size = w.slots.size := by simp [DenseTable.set]

theorem listOf_modify_self (f : WatchList → WatchList) (h : l.code < w.slots.size) :
    listOf ⟨w.slots.modify l.code f⟩ l = f (listOf w l) := by
  simp [listOf, Array.getD_eq_getD_getElem?, Array.getElem_modify_self, h]

theorem listOf_modify_of_ne (f : WatchList → WatchList) (h : m ≠ l) :
    listOf ⟨w.slots.modify l.code f⟩ m = listOf w m := by
  simp [listOf, Array.getD_eq_getD_getElem?, Array.getElem?_modify, Lit.code_ne h.symm]

theorem slots_push (w : WatchTable) (l : Lit) (x : Watcher) :
    (push w l x).slots.size = w.slots.size := by simp [push]

theorem listOf_push_self (h : l.code < w.slots.size) :
    listOf (push w l x) l = ⟨(listOf w l).watchers.push x, (listOf w l).stale⟩ :=
  listOf_modify_self _ h

theorem listOf_push_of_ne (h : m ≠ l) : listOf (push w l x) m = listOf w m :=
  listOf_modify_of_ne _ h

end WatchTable

namespace Propagator

variable {p q : Propagator} {l m : Lit} {r : ClauseRef}

/-- The watchers of a literal, without those of deleted clauses. -/
def watchersOf (p : Propagator) (l : Lit) : List Watcher :=
  (p.watches.listOf l).watchers.toList.filter fun x => !p.arena.isDeleted x.clause

/-- The lists name stored clauses, and only lists that are marked as stale name deleted ones. -/
def Fresh (p : Propagator) : Prop :=
  ∀ l, ∀ x ∈ (p.watches.listOf l).watchers, x.clause.index < p.arena.clauses.size ∧
    ((p.watches.listOf l).stale = false → p.arena.IsLive x.clause)

theorem watchersOf_congr (hlist : q.watches.listOf l = p.watches.listOf l)
    (hlive : ∀ r, q.arena.IsLive r ↔ p.arena.IsLive r) : q.watchersOf l = p.watchersOf l := by
  have hdeleted : ∀ r, q.arena.isDeleted r = p.arena.isDeleted r := by
    intro r
    have := hlive r
    simp only [Arena.IsLive] at this
    simp only [Arena.isDeleted]
    cases hq : (q.arena.view r).deleted <;> cases hp : (p.arena.view r).deleted <;> simp_all
  simp only [watchersOf, hlist, hdeleted]

theorem isLive_of_mem_watchersOf {x : Watcher} (h : x ∈ p.watchersOf l) :
    p.arena.IsLive x.clause := by
  have := (List.mem_filter.1 h).2
  simpa [Arena.IsLive, Arena.isDeleted] using this

theorem filter_eq_self_of_live {ws : List Watcher} (h : ∀ x ∈ ws, p.arena.IsLive x.clause) :
    ws.filter (fun x => !p.arena.isDeleted x.clause) = ws :=
  List.filter_eq_self.2 fun x hx => by simp [Arena.isDeleted_eq_false.2 (h x hx)]

theorem Fresh.liveWatchers (h : p.Fresh) (l : Lit) :
    (p.liveWatchers (p.watches.listOf l)).toList = p.watchersOf l := by
  unfold Propagator.liveWatchers
  split
  · rw [Array.toList_filter]; rfl
  · rename_i hstale
    refine (filter_eq_self_of_live fun x hx => (h l x ?_).2 (by simpa using hstale)).symm
    simpa using hx

/-- Replacing a list by watchers of live clauses. -/
theorem watchersOf_set_self {kept : Array Watcher} {stale : Bool}
    (hl : l.code < p.watches.slots.size) (hkept : ∀ x ∈ kept.toList, p.arena.IsLive x.clause) :
    ({ p with watches := DenseTable.set p.watches l.code ⟨kept, stale⟩ } : Propagator).watchersOf l
      = kept.toList := by
  simp only [watchersOf, WatchTable.listOf_set_self _ hl]
  exact filter_eq_self_of_live hkept

theorem watchersOf_set_of_ne (list : WatchList) (h : m ≠ l) :
    ({ p with watches := DenseTable.set p.watches l.code list } : Propagator).watchersOf m
      = p.watchersOf m := by
  simp only [watchersOf, WatchTable.listOf_set_of_ne list h]

theorem Fresh.set (h : p.Fresh) {kept : Array Watcher} (stale : Bool)
    (hl : l.code < p.watches.slots.size) (hkept : ∀ x ∈ kept.toList, p.arena.IsLive x.clause) :
    Fresh { p with watches := DenseTable.set p.watches l.code ⟨kept, stale⟩ } := by
  intro m x hx
  by_cases hm : m = l
  · subst hm
    simp only [WatchTable.listOf_set_self _ hl] at hx
    have hlive := hkept x (by simpa using hx)
    exact ⟨hlive.index_lt, fun _ => hlive⟩
  · simp only [WatchTable.listOf_set_of_ne _ hm] at hx ⊢
    exact h m x hx

/-- Adding a watcher of a live clause to a list. -/
theorem watchersOf_push_self {x : Watcher} (hl : l.code < p.watches.slots.size)
    (hx : p.arena.IsLive x.clause) :
    ({ p with watches := p.watches.push l x } : Propagator).watchersOf l =
      p.watchersOf l ++ [x] := by
  simp only [watchersOf, WatchTable.listOf_push_self hl, Array.toList_push, List.filter_append]
  have hlive : ∀ y ∈ [x], p.arena.IsLive y.clause := by simpa using hx
  rw [filter_eq_self_of_live hlive]

theorem watchersOf_push_of_ne {x : Watcher} (h : m ≠ l) :
    ({ p with watches := p.watches.push l x } : Propagator).watchersOf m = p.watchersOf m := by
  simp only [watchersOf, WatchTable.listOf_push_of_ne h]

theorem Fresh.push (h : p.Fresh) {x : Watcher} (hl : l.code < p.watches.slots.size)
    (hx : p.arena.IsLive x.clause) : Fresh { p with watches := p.watches.push l x } := by
  intro m y hy
  by_cases hm : m = l
  · subst hm
    simp only [WatchTable.listOf_push_self hl, Array.mem_push] at hy ⊢
    rcases hy with hy | rfl
    · exact h m y hy
    · exact ⟨hx.index_lt, fun _ => hx⟩
  · simp only [WatchTable.listOf_push_of_ne hm] at hy ⊢
    exact h m y hy

theorem Fresh.of_alike (h : p.Fresh) {a : Arena} (ha : p.arena.Alike a) :
    Fresh { p with arena := a } := by
  intro l x hx
  obtain ⟨hlt, hlive⟩ := h l x hx
  exact ⟨by rw [ha.size]; exact hlt, fun hstale => ha.isLive_iff.2 (hlive hstale)⟩

end Propagator

end ConfigSampler
