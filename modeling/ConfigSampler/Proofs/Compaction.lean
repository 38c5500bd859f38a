import ConfigSampler.Proofs.Housekeeping

/-!
# Moving the clauses to a fresh arena

`Arena.Moving` describes two arenas while clauses move from one to the other: a moved clause is found
under its new name, no two clauses share a name, and the new arena holds nothing else.  Since every
live clause is watched, all of them have moved when the watch lists are done, and from then on
renaming only looks names up.  `compact_spec`: compaction changes names only.
-/

set_option autoImplicit false

namespace ConfigSampler

namespace Arena

variable {a₀ a b : Arena} {r s n : ClauseRef}

/-- The name of a clause after the move. -/
def newName (a : Arena) (r : ClauseRef) : ClauseRef := (a.view r).movedTo.getD r

/-- Clauses of `a₀` are being moved to `b`, and `a` has the notes on it. -/
structure Moving (a₀ a b : Arena) : Prop where
  view : ∀ r, ∃ m, a.view r = { a₀.view r with movedTo := m }
  moved : ∀ r n, a₀.IsLive r → (a.view r).movedTo = some n →
    b.view n = { a₀.view r with movedTo := none }
  injective : ∀ r r' n, a₀.IsLive r → a₀.IsLive r' → (a.view r).movedTo = some n →
    (a.view r').movedTo = some n → r = r'
  surjective : ∀ n, b.IsLive n → ∃ r, a₀.IsLive r ∧ (a.view r).movedTo = some n
  stored : ∀ n : ClauseRef, n.index < b.clauses.size → b.IsLive n

namespace Moving

theorem start (h : ∀ r, a.IsLive r → (a.view r).movedTo = none) : Moving a a empty where
  view r := ⟨_, rfl⟩
  moved r n hr hm := by rw [h r hr] at hm; cases hm
  injective r r' n hr _ hm := by rw [h r hr] at hm; cases hm
  surjective n hn := by
    have := hn.index_lt
    simp [empty] at this
  stored n hn := by simp [empty] at hn

theorem isLive_iff (h : Moving a₀ a b) : a.IsLive r ↔ a₀.IsLive r := by
  obtain ⟨m, hm⟩ := h.view r
  simp only [IsLive, hm]

theorem isLive_of_moved (h : Moving a₀ a b) (hr : a₀.IsLive r) (hn : (a.view r).movedTo = some n) :
    b.IsLive n := by
  rw [IsLive, h.moved r n hr hn]; exact hr

/-- Moving one clause. -/
theorem push (h : Moving a₀ a b) (hr : a₀.IsLive r) (hnone : (a.view r).movedTo = none) :
    Moving a₀ (a.edit r fun c => { c with
      movedTo := some (b.push (a.view r).lits (a.view r).learnt (a.view r).activity).1 })
      (b.push (a.view r).lits (a.view r).learnt (a.view r).activity).2 := by
  obtain ⟨m, hm⟩ := h.view r
  have hra : a.IsLive r := h.isLive_iff.2 hr
  have hfresh := b.not_isLive_push_fst (a.view r).lits (a.view r).learnt (a.view r).activity
  have hself := b.view_push_self (a.view r).lits (a.view r).learnt (a.view r).activity
  have hne : ∀ s, s ≠ (b.push (a.view r).lits (a.view r).learnt (a.view r).activity).1 →
      (b.push (a.view r).lits (a.view r).learnt (a.view r).activity).2.view s = b.view s :=
    fun s hs => view_push_of_ne _ _ _ hs
  have hlive := fun s => isLive_push (a := b) (s := s) (a.view r).lits (a.view r).learnt
    (a.view r).activity
  have hindex := fun n : ClauseRef => index_lt_push (a := b) (r := n) (a.view r).lits
    (a.view r).learnt (a.view r).activity
  generalize b.push (a.view r).lits (a.view r).learnt (a.view r).activity = out at *
  obtain ⟨name, b'⟩ := out
  dsimp only at *
  have hview := fun s => view_edit (a := a) (s := s)
    (fun c => { c with movedTo := some name }) hra
  have hold : ∀ s n, a₀.IsLive s → (a.view s).movedTo = some n → n ≠ name := by
    rintro s n hs hn rfl
    exact hfresh (h.isLive_of_moved hs hn)
  -- a clause with a note either had it before or is the one that moved
  have hnote : ∀ s n, ((a.edit r fun c => { c with movedTo := some name }).view s).movedTo = some n →
      (s = r ∧ n = name) ∨ (s ≠ r ∧ (a.view s).movedTo = some n) := by
    intro s n hn
    rw [hview] at hn
    split at hn
    · rename_i hs
      cases hn
      exact .inl ⟨hs, rfl⟩
    · rename_i hs
      exact .inr ⟨hs, hn⟩
  refine ⟨fun s => ?_, fun s n hs hn => ?_, fun s s' n hs hs' hn hn' => ?_, fun n hn => ?_,
    fun n hn => (hlive n).2 ((hindex n).1 hn |>.imp_left (h.stored n))⟩
  · rw [hview]
    split
    · rename_i hs
      exact ⟨some name, by rw [hm, hs]⟩
    · exact h.view s
  · rcases hnote s n hn with ⟨rfl, rfl⟩ | ⟨-, hn⟩
    · rw [hself, hm]
      have : (a₀.view s).deleted = false := hs
      rw [← this]
    · rw [hne n (hold s n hs hn), h.moved s n hs hn]
  · rcases hnote s n hn with ⟨rfl, rfl⟩ | ⟨-, _⟩
    · rcases hnote s' n hn' with ⟨rfl, -⟩ | ⟨-, hn'⟩
      · rfl
      · exact absurd rfl (hold s' n hs' hn')
    · rename_i hsn
      rcases hnote s' n hn' with ⟨rfl, he⟩ | ⟨-, hn'⟩
      · exact absurd he (hold s n hs hsn)
      · exact h.injective s s' n hs hs' hsn hn'
  · rcases (hlive n).1 hn with hn | rfl
    · obtain ⟨s, hs, hsn⟩ := h.surjective n hn
      refine ⟨s, hs, ?_⟩
      rw [hview, if_neg, hsn]
      rintro rfl
      rw [hnone] at hsn
      cases hsn
    · exact ⟨r, hr, by rw [hview, if_pos rfl]⟩

/-- A deleted clause gets no name, a live one its only name. -/
theorem relocate (h : Moving a₀ a b) (r : ClauseRef) {name : Option ClauseRef} {a' b' : Arena}
    (he : a.relocate b r = (name, a', b')) :
    Moving a₀ a' b' ∧
    (∀ s n, (a.view s).movedTo = some n → (a'.view s).movedTo = some n ∨ ¬ a₀.IsLive s) ∧
    (a₀.IsLive r ∧ name = (a'.view r).movedTo ∧ name.isSome = true ∨ ¬ a₀.IsLive r ∧ name = none) := by
  unfold Arena.relocate at he
  simp only at he
  split at he
  · rename_i hd
    cases he
    refine ⟨h, fun _ _ hn => .inl hn, .inr ⟨fun hr => ?_, rfl⟩⟩
    rw [← h.isLive_iff, IsLive, hd] at hr
    cases hr
  · rename_i hd
    have hr : a₀.IsLive r := h.isLive_iff.1 (by simpa [IsLive] using hd)
    split at he
    · rename_i n hn
      cases he
      exact ⟨h, fun _ _ hn => .inl hn, .inl ⟨hr, hn.symm, rfl⟩⟩
    · rename_i hnone
      cases he
      have hview := view_edit_self (fun c : Clause => { c with
        movedTo := some (b.push (a.view r).lits (a.view r).learnt (a.view r).activity).1 })
        (h.isLive_iff.2 hr).index_lt
      refine ⟨h.push hr hnone, fun s n hn => .inl ?_, .inl ⟨hr, ?_, rfl⟩⟩
      · rw [view_edit_of_ne]
        · exact hn
        · rintro rfl
          rw [hnone] at hn
          cases hn
      · rw [hview]

end Moving

end Arena

/-! ## The watch lists -/

namespace Propagator

open Arena

variable {a₀ a b : Arena}

/-- The watcher with its clause renamed. -/
def Renamed (a : Arena) (x y : Watcher) : Prop :=
  y.blocker = x.blocker ∧ (a.view x.clause).movedTo = some y.clause

/-- The live ones of the watchers, renamed. -/
def RenamedLive (a₀ a : Arena) (xs ys : List Watcher) : Prop :=
  List.Forall₂ (Renamed a) (xs.filter fun x => !a₀.isDeleted x.clause) ys

theorem RenamedLive.mono {a' : Arena} {xs ys : List Watcher}
    (hmono : ∀ s n, (a.view s).movedTo = some n → (a'.view s).movedTo = some n ∨ ¬ a₀.IsLive s)
    (h : RenamedLive a₀ a xs ys) : RenamedLive a₀ a' xs ys := by
  have hlive : ∀ x ∈ xs.filter fun x => !a₀.isDeleted x.clause, a₀.IsLive x.clause := by
    intro x hx
    simpa [isDeleted, IsLive] using (List.mem_filter.1 hx).2
  unfold RenamedLive at *
  generalize xs.filter (fun x => !a₀.isDeleted x.clause) = zs at h hlive ⊢
  induction h with
  | nil => exact .nil
  | cons hxy _ ih =>
    refine .cons ⟨hxy.1, (hmono _ _ hxy.2).resolve_right ?_⟩ (ih fun x hx => hlive x (by simp [hx]))
    exact not_not.2 (hlive _ (by simp))

theorem mono_trans {a' a'' : Arena}
    (h : ∀ s n, (a.view s).movedTo = some n → (a'.view s).movedTo = some n ∨ ¬ a₀.IsLive s)
    (h' : ∀ s n, (a'.view s).movedTo = some n → (a''.view s).movedTo = some n ∨ ¬ a₀.IsLive s) :
    ∀ s n, (a.view s).movedTo = some n → (a''.view s).movedTo = some n ∨ ¬ a₀.IsLive s :=
  fun s n hn => (h s n hn).elim (h' s n) .inr

theorem relocateWatchers_spec : ∀ (ws : List Watcher) (kept : Array Watcher) (a b : Arena),
    Moving a₀ a b → ∀ {kept' : Array Watcher} {a' b' : Arena},
    relocateWatchers ws kept a b = (kept', a', b') →
    Moving a₀ a' b' ∧
    (∀ s n, (a.view s).movedTo = some n → (a'.view s).movedTo = some n ∨ ¬ a₀.IsLive s) ∧
    ∃ new, kept'.toList = kept.toList ++ new ∧ RenamedLive a₀ a' ws new
  | [], kept, a, b, h, kept', a', b', he => by
    cases he
    exact ⟨h, fun _ _ hn => .inl hn, [], by simp, .nil⟩
  | x :: ws, kept, a, b, h, kept', a', b', he => by
    unfold relocateWatchers at he
    generalize hout : a.relocate b x.clause = out at he
    obtain ⟨name, a1, b1⟩ := out
    obtain ⟨h1, hmono1, hname⟩ := h.relocate x.clause hout
    rcases hname with ⟨hlive, hname, hsome⟩ | ⟨hdead, rfl⟩
    · obtain ⟨n, rfl⟩ := Option.isSome_iff_exists.1 hsome
      obtain ⟨h2, hmono2, new, hnew, hren⟩ := relocateWatchers_spec ws _ a1 b1 h1 he
      refine ⟨h2, mono_trans hmono1 hmono2, ⟨n, x.blocker⟩ :: new, by rw [hnew]; simp, ?_⟩
      unfold RenamedLive
      rw [List.filter_cons_of_pos (by rw [isDeleted_eq_false.2 hlive]; rfl)]
      exact .cons ⟨rfl, (hmono2 _ _ hname.symm).resolve_right (not_not.2 hlive)⟩ hren
    · obtain ⟨h2, hmono2, new, hnew, hren⟩ := relocateWatchers_spec ws _ a1 b1 h1 he
      refine ⟨h2, mono_trans hmono1 hmono2, new, hnew, ?_⟩
      unfold RenamedLive
      rw [List.filter_cons_of_neg (by simpa [isDeleted, IsLive] using hdead)]
      exact hren

theorem relocateLists_spec : ∀ (lists : List WatchList) (done : Array WatchList) (a b : Arena),
    Moving a₀ a b → ∀ {done' : Array WatchList} {a' b' : Arena},
    relocateLists lists done a b = (done', a', b') →
    Moving a₀ a' b' ∧
    (∀ s n, (a.view s).movedTo = some n → (a'.view s).movedTo = some n ∨ ¬ a₀.IsLive s) ∧
    ∃ new, done'.toList = done.toList ++ new ∧
      List.Forall₂ (fun old new => new.stale = false ∧
        RenamedLive a₀ a' old.watchers.toList new.watchers.toList) lists new
  | [], done, a, b, h, done', a', b', he => by
    cases he
    exact ⟨h, fun _ _ hn => .inl hn, [], by simp, .nil⟩
  | list :: lists, done, a, b, h, done', a', b', he => by
    unfold relocateLists at he
    generalize hout : relocateWatchers list.watchers.toList #[] a b = out at he
    obtain ⟨kept, a1, b1⟩ := out
    obtain ⟨h1, hmono1, new1, hnew1, hren1⟩ := relocateWatchers_spec _ _ a b h hout
    obtain ⟨h2, hmono2, new, hnew, hren⟩ := relocateLists_spec lists _ a1 b1 h1 he
    refine ⟨h2, mono_trans hmono1 hmono2, ⟨kept, false⟩ :: new, by rw [hnew]; simp,
      .cons ⟨rfl, ?_⟩ hren⟩
    rw [show kept.toList = new1 by simpa using hnew1]
    exact hren1.mono hmono2

end Propagator

/-! ## Looking names up -/

section Lookup

open Arena

variable {a₀ a b : Arena}

/-- The new name of a live clause. -/
def Arena.rename? (a₀ a : Arena) (r : ClauseRef) : Option ClauseRef :=
  if a₀.isDeleted r then none else (a.view r).movedTo

theorem Arena.Moving.relocate_of_moved (h : Moving a₀ a b)
    (hall : ∀ r, a₀.IsLive r → (a.view r).movedTo ≠ none) (r : ClauseRef) :
    a.relocate b r = (a₀.rename? a r, a, b) := by
  unfold Arena.relocate rename?
  obtain ⟨m, hm⟩ := h.view r
  have hdeleted : (a.view r).deleted = a₀.isDeleted r := by rw [hm]; rfl
  simp only [hdeleted]
  split
  · rfl
  · rename_i hd
    have hr : a₀.IsLive r := by simpa [isDeleted, IsLive] using hd
    split
    · rename_i n hn
      rw [hn]
    · rename_i hn
      exact absurd hn (hall r hr)

theorem Trail.relocateReasons_spec (h : Moving a₀ a b)
    (hall : ∀ r, a₀.IsLive r → (a.view r).movedTo ≠ none) : ∀ (ls : List Lit) (t : Trail),
    (ls.map Lit.var).Nodup → (∀ l ∈ ls, l.var < t.reasons.size) →
    ∀ {t' : Trail} {a' b' : Arena}, relocateReasons ls t a b = (t', a', b') →
    a' = a ∧ b' = b ∧ t' = { t with reasons := t'.reasons } ∧ t'.reasons.size = t.reasons.size ∧
    ∀ l, t'.reasonOf l =
      if l.var ∈ ls.map Lit.var then (t.reasonOf l).bind (a₀.rename? a) else t.reasonOf l
  | [], t, _, _, t', a', b', he => by
    cases he
    exact ⟨rfl, rfl, rfl, rfl, fun l => by simp⟩
  | l :: ls, t, hnodup, hlt, t', a', b', he => by
    rw [List.map_cons, List.nodup_cons] at hnodup
    unfold relocateReasons at he
    split at he
    · rename_i hnone
      obtain ⟨ha, hb, ht, hsize, hreason⟩ := relocateReasons_spec h hall ls t hnodup.2
        (fun m hm => hlt m (List.mem_cons_of_mem _ hm)) he
      refine ⟨ha, hb, ht, hsize, fun m => ?_⟩
      rw [hreason m, List.map_cons]
      by_cases hm : m.var = l.var
      · have hmnone : t.reasonOf m = none := by
          rw [← hnone]; simp only [Trail.reasonOf, hm]
        rw [hmnone]
        split <;> split <;> rfl
      · simp only [List.mem_cons, hm, false_or]
    · rename_i r hr
      rw [h.relocate_of_moved hall r] at he
      obtain ⟨ha, hb, ht, hsize, hreason⟩ := relocateReasons_spec h hall ls
        { t with reasons := t.reasons.setIfInBounds l.var (a₀.rename? a r) } hnodup.2
        (fun m hm => by simpa using hlt m (List.mem_cons_of_mem _ hm)) he
      refine ⟨ha, hb, ?_, by simpa using hsize, fun m => ?_⟩
      · rw [ht]
      · rw [hreason m, List.map_cons]
        have hl := hlt l (by simp)
        by_cases hm : m.var = l.var
        · have hmr : t.reasonOf m = some r := by
            rw [← hr]; simp only [Trail.reasonOf, hm]
          rw [if_neg (by rw [hm]; exact hnodup.1), if_pos (by rw [hm]; exact List.mem_cons_self), hmr]
          simp [Trail.reasonOf, hm, Array.getD_eq_getD_getElem?, hl]
        · have hsame : ({ t with reasons := t.reasons.setIfInBounds l.var (a₀.rename? a r) } :
              Trail).reasonOf m = t.reasonOf m := by
            simp [Trail.reasonOf, Array.getD_eq_getD_getElem?, Ne.symm hm]
          rw [hsame]
          simp only [List.mem_cons, hm, false_or]

theorem ClauseLists.relocateRefs_spec (h : Moving a₀ a b)
    (hall : ∀ r, a₀.IsLive r → (a.view r).movedTo ≠ none) : ∀ (refs : List ClauseRef)
    (kept : Array ClauseRef),
    relocateRefs refs kept a b = (kept ++ refs.filterMap (a₀.rename? a), a, b)
  | [], kept => by simp [relocateRefs]
  | r :: refs, kept => by
    unfold relocateRefs
    rw [h.relocate_of_moved hall r]
    cases hr : a₀.rename? a r with
    | none => simp only [relocateRefs_spec h hall refs kept, List.filterMap_cons, hr]
    | some n =>
      simp only [relocateRefs_spec h hall refs (kept.push n), List.filterMap_cons, hr]
      simp

end Lookup

/-! ## The outcome -/

namespace Propagator

open Arena

variable {p : Propagator} {a b : Arena} {l : Lit} {r : ClauseRef}

theorem eq_map_of_renamed {xs ys : List Watcher} (h : List.Forall₂ (Renamed a) xs ys) :
    ys = xs.map fun x => { x with clause := a.newName x.clause } := by
  induction h with
  | nil => rfl
  | @cons x y _ _ hxy _ ih =>
    obtain ⟨hblocker, hname⟩ := hxy
    rw [List.map_cons, ← ih, newName, hname]
    cases y
    cases hblocker
    rfl

/-- The renamed watch list of each literal. -/
theorem renamedLive_listOf {lists : Array WatchList}
    (h : List.Forall₂ (fun old new => new.stale = false ∧
      RenamedLive p.arena a old.watchers.toList new.watchers.toList)
      p.watches.slots.toList lists.toList) (l : Lit) :
    (WatchTable.listOf ⟨lists⟩ l).stale = false ∧
      List.Forall₂ (Renamed a) (p.watchersOf l) (WatchTable.listOf ⟨lists⟩ l).watchers.toList := by
  have hlen := h.length_eq
  simp only [Array.length_toList] at hlen
  by_cases hl : l.code < p.watches.slots.size
  · have hget := h.get (i := l.code) (by simpa using hl) (by simpa [← hlen] using hl)
    simp only [List.get_eq_getElem, Array.getElem_toList] at hget
    simp only [watchersOf, WatchTable.listOf, Array.getD_eq_getD_getElem?, hl, hlen ▸ hl,
      Array.getElem?_eq_getElem, Option.getD_some]
    exact hget
  · simp only [watchersOf, WatchTable.listOf, Array.getD_eq_getD_getElem?,
      Array.getElem?_eq_none (Nat.le_of_not_lt hl),
      Array.getElem?_eq_none (Nat.le_of_not_lt (hlen ▸ hl)), Option.getD_none]
    exact ⟨rfl, .nil⟩

theorem moved_of_renamed {xs ys : List Watcher} (h : List.Forall₂ (Renamed a) xs ys) {x : Watcher}
    (hx : x ∈ xs) : (a.view x.clause).movedTo ≠ none := by
  induction h with
  | nil => simp at hx
  | cons hxy _ ih =>
    rcases List.mem_cons.1 hx with rfl | hx
    · rw [hxy.2]; exact Option.some_ne_none _
    · exact ih hx

/-- Every live clause is watched, so it has moved with the watch lists. -/
theorem InOrder.moved (hp : p.InOrder) {f : Lit → List Watcher}
    (h : ∀ l, List.Forall₂ (Renamed a) (p.watchersOf l) (f l)) (hr : p.arena.IsLive r) :
    (a.view r).movedTo ≠ none := by
  obtain ⟨x, hx, rfl⟩ := (hp.ok.watched.mem_iff r hr (p.arena.view r).head.negate).2
    (by rw [Lit.negate_negate]; exact .inl rfl)
  exact moved_of_renamed (h _) hx

/-- The outcome of compaction: the clauses were moved from the arena to `b`, the notes on it are in
    `a`, and watchers and reasons were renamed. -/
structure Compacts (p : Propagator) (a b : Arena) (lists : Array WatchList) (t : Trail) : Prop where
  moving : Moving p.arena a b
  lists : List.Forall₂ (fun old new => new.stale = false ∧
    RenamedLive p.arena a old.watchers.toList new.watchers.toList) p.watches.slots.toList lists.toList
  moved : ∀ r, p.arena.IsLive r → (a.view r).movedTo = some (a.newName r)
  trail : t = { p.trail with reasons := t.reasons }
  reasons_size : t.reasons.size = p.trail.reasons.size
  reason : ∀ l, t.reasonOf l = if l.var ∈ p.trail.lits.toList.map Lit.var
    then (p.trail.reasonOf l).bind (p.arena.rename? a) else p.trail.reasonOf l

variable {lists : Array WatchList} {t : Trail}

theorem exists_compacts (hp : p.InOrder) (d : ClauseLists) : ∃ a b lists t, p.Compacts a b lists t ∧
    compact d p = ({ d with
      learnts := (d.learnts.toList.filterMap (p.arena.rename? a)).toArray
      clauses := (d.clauses.toList.filterMap (p.arena.rename? a)).toArray },
      { p with watches := ⟨lists⟩, trail := t, arena := b }) := by
  unfold ConfigSampler.compact
  generalize hout : relocateLists p.watches.slots.toList #[] p.arena Arena.empty = out
  obtain ⟨lists, a, b⟩ := out
  obtain ⟨hmoving, -, new, hnew, hlists⟩ := relocateLists_spec _ _ _ _
    (Arena.Moving.start fun r hr => (hp.ok.clause r hr).movedTo) hout
  rw [show new = lists.toList by simpa using hnew.symm] at hlists
  have hall : ∀ r, p.arena.IsLive r → (a.view r).movedTo ≠ none := fun r hr =>
    hp.moved (fun l => (renamedLive_listOf hlists l).2) hr
  dsimp only
  generalize htrail : p.trail.relocate a b = out'
  obtain ⟨t, a', b'⟩ := out'
  obtain ⟨rfl, rfl, ht, hsize, hreason⟩ := Trail.relocateReasons_spec hmoving hall _ _
    hp.ok.trail.nodup (fun l hl => by
      rw [hp.ok.trail.reasons_size]
      exact hp.ok.trail.var_lt l (by simpa using hl)) htrail
  refine ⟨a', b', lists, t, ⟨hmoving, hlists, fun r hr => ?_, ht, hsize, hreason⟩, ?_⟩
  · obtain ⟨n, hn⟩ := Option.ne_none_iff_exists'.1 (hall r hr)
    rw [newName, hn]
    rfl
  · unfold ClauseLists.relocate
    simp [ClauseLists.relocateRefs_spec hmoving hall]

namespace Compacts

/-- A live clause is the same under its new name. -/
theorem view (h : p.Compacts a b lists t) (hp : p.InOrder) (hr : p.arena.IsLive r) :
    b.view (a.newName r) = p.arena.view r := by
  rw [h.moving.moved r _ hr (h.moved r hr)]
  have := (hp.ok.clause r hr).movedTo
  rw [← this]

theorem isLive (h : p.Compacts a b lists t) (hr : p.arena.IsLive r) : b.IsLive (a.newName r) :=
  h.moving.isLive_of_moved hr (h.moved r hr)

theorem rename?_eq (h : p.Compacts a b lists t) (hr : p.arena.IsLive r) :
    p.arena.rename? a r = some (a.newName r) := by
  rw [rename?, Arena.isDeleted_eq_false.2 hr, if_neg Bool.false_ne_true, h.moved r hr]

theorem transfer (h : p.Compacts a b lists t) (hp : p.InOrder) :
    Transfer a.newName p { p with watches := ⟨lists⟩, trail := t, arena := b } := by
  have hnew := renamedLive_listOf h.lists
  have hlive : ∀ l, ∀ x ∈ (WatchTable.listOf ⟨lists⟩ l).watchers.toList, b.IsLive x.clause := by
    intro l x hx
    rw [eq_map_of_renamed (hnew l).2] at hx
    obtain ⟨y, hy, rfl⟩ := List.mem_map.1 hx
    exact h.isLive (isLive_of_mem_watchersOf hy)
  refine ⟨h.trail, h.reasons_size, fun i hi hpos => ?_, fun s hs => ?_, fun r r' hr hr' _ he => ?_,
    fun r hr _ => ?_, ?_, fun l => ?_, fun l x hx => ?_⟩
  · refine ⟨?_, fun r _ hf => h.isLive hf.live⟩
    show t.reasonOf _ = _
    have hmem := Array.mem_toList_iff.2 (Trail.litAt_mem hi)
    rw [h.reason, if_pos (List.mem_map_of_mem hmem)]
    rcases hp.ok.reason i hi hpos with ⟨hnone, -⟩ | ⟨r, hr, hf⟩
    · rw [hnone]; rfl
    · rw [hr, Option.bind_some, Option.map_some, h.rename?_eq hf.live]
  · obtain ⟨r, hr, hn⟩ := h.moving.surjective s hs
    exact ⟨r, hr, Option.some.inj ((h.moved r hr).symm.trans hn)⟩
  · exact h.moving.injective r r' _ hr hr' (h.moved r hr) (by rw [he]; exact h.moved r' hr')
  · exact Keeps.of_renamed (hp.ok.clause r hr) (h.view hp hr)
  · have := h.lists.length_eq
    simpa using this.symm
  · refine ⟨p.watchersOf l, .refl _, fun x hx => ?_, ?_⟩
    · exact iff_of_true hx (h.isLive (isLive_of_mem_watchersOf hx))
    · rw [watchersOf]
      refine (filter_eq_self_of_live (p := { p with watches := ⟨lists⟩, trail := t, arena := b })
        (hlive l)).trans ?_
      exact eq_map_of_renamed (hnew l).2
  · have := hlive l x (by simpa using hx)
    exact ⟨this.index_lt, fun _ => this⟩

end Compacts

end Propagator

/-- **Compaction changes names only**: the propagator stays in order and keeps its models. -/
theorem compact_spec {p : Propagator} {d : ClauseLists} (hp : p.InOrder)
    (hd : d.ListsLearnt p.arena) :
    Propagator.Tidied p (compact d p).2 ∧ (compact d p).1.ListsLearnt (compact d p).2.arena := by
  obtain ⟨a, b, lists, t, h, he⟩ := Propagator.exists_compacts hp d
  rw [he]
  refine ⟨(h.transfer hp).tidied hp fun r hr _ => .inl (h.isLive hr), fun n hn => ?_⟩
  obtain ⟨r, hr, hname⟩ : ∃ r ∈ d.learnts, p.arena.rename? a r = some n := by simpa using hn
  unfold Arena.rename? at hname
  split at hname
  · cases hname
  · rename_i hdead
    have hrlive : p.arena.IsLive r := by simpa [Arena.isDeleted, Arena.IsLive] using hdead
    refine ⟨(h.moving.isLive_of_moved hrlive hname).index_lt, ?_⟩
    rw [h.moving.moved r n hrlive hname]
    exact (hd r hr).2

end ConfigSampler
