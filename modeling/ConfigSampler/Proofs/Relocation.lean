import ConfigSampler.Proofs.ClauseNames
import ConfigSampler.Proofs.Compaction
import ConfigSampler.Proofs.TrailReasons
import Mathlib.Data.Set.Function

/-!
# The names of clauses after compaction

`Relocation σ` says what compaction comes to when `σ` gives the new names: the live clauses become
the clauses of the new arena, one to one and unchanged, and every place that holds a name has the new
one or, if the clause was deleted, none (`compact_relocates`).  So after it every name belongs to a
live clause (`Relocation.namesLive`).
-/

set_option autoImplicit false

namespace ConfigSampler

variable {σ : ClauseRef → ClauseRef} {d d' : ClauseLists} {p p' : Propagator}

/-- Every name that is held belongs to a live clause. -/
structure NamesLive (d : ClauseLists) (p : Propagator) : Prop where
  watcher : ∀ list ∈ p.watches.slots, ∀ x ∈ list.watchers, p.arena.IsLive x.clause
  reason : ∀ r, some r ∈ p.trail.reasons → p.arena.IsLive r
  clause : ∀ r ∈ d.clauses, p.arena.IsLive r
  learnt : ∀ r ∈ d.learnts, p.arena.IsLive r

/-- The live ones of the watchers, in order and with their blockers, under the new names. -/
def Arena.renameWatchers (a : Arena) (σ : ClauseRef → ClauseRef) (list : WatchList) : WatchList :=
  ⟨(list.watchers.filter fun x => !a.isDeleted x.clause).map fun x => { x with clause := σ x.clause },
    false⟩

/-- The new name of a reason, if its clause is live. -/
def Arena.renameReason (a : Arena) (σ : ClauseRef → ClauseRef) (reason : Option ClauseRef) :
    Option ClauseRef :=
  (reason.filter fun r => !a.isDeleted r).map σ

/-- The clauses were moved to a new arena, where `σ` gives their names. -/
structure Relocation (σ : ClauseRef → ClauseRef) (d : ClauseLists) (p : Propagator)
    (d' : ClauseLists) (p' : Propagator) : Prop where
  bijective : Set.BijOn σ {r | p.arena.IsLive r} {r | r.index < p'.arena.clauses.size}
  view : ∀ r, p.arena.IsLive r → p'.arena.view (σ r) = p.arena.view r
  watches : p'.watches = ⟨p.watches.slots.map (p.arena.renameWatchers σ)⟩
  reasons : p'.trail.reasons = p.trail.reasons.map (p.arena.renameReason σ)
  trail : p'.trail = { p.trail with reasons := p'.trail.reasons }
  propagations : p'.propagations = p.propagations
  listed : ∀ r, r ∈ d.clauses ∨ r ∈ d.learnts → p.arena.IsLive r
  lists : d' = { d with clauses := d.clauses.map σ, learnts := d.learnts.map σ }

namespace Propagator.Compacts

open Arena

variable {a b : Arena} {lists : Array WatchList} {t : Trail}

theorem bijOn (h : p.Compacts a b lists t) :
    Set.BijOn a.newName {r | p.arena.IsLive r} {r | r.index < b.clauses.size} := by
  refine ⟨fun r hr => (h.isLive hr).index_lt, fun r hr s hs he => ?_, fun n hn => ?_⟩
  · exact h.moving.injective r s _ hr hs (h.moved r hr) (by rw [he]; exact h.moved s hs)
  · obtain ⟨r, hr, hname⟩ := h.moving.surjective n (h.moving.stored n hn)
    exact ⟨r, hr, Option.some.inj ((h.moved r hr).symm.trans hname)⟩

theorem lists_eq (h : p.Compacts a b lists t) :
    lists = p.watches.slots.map (p.arena.renameWatchers a.newName) := by
  have hlist : ∀ old new : WatchList, new.stale = false ∧
      RenamedLive p.arena a old.watchers.toList new.watchers.toList →
      p.arena.renameWatchers a.newName old = new := by
    rintro old ⟨watchers, stale⟩ ⟨rfl, hrenamed⟩
    rw [renameWatchers, WatchList.mk.injEq, and_iff_left rfl, ← Array.toList_inj, Array.toList_map,
      Array.toList_filter]
    exact (eq_map_of_renamed hrenamed).symm
  have hall := List.forall₂_map_left_iff.2 (h.lists.imp hlist)
  rw [List.forall₂_eq_eq_eq] at hall
  rw [← Array.toList_inj, Array.toList_map, hall]

theorem renameReason_eq (h : p.Compacts a b lists t) (reason : Option ClauseRef) :
    p.arena.renameReason a.newName reason = reason.bind (p.arena.rename? a) := by
  cases reason with
  | none => rfl
  | some r =>
    rw [renameReason, Option.bind_some]
    cases hr : p.arena.isDeleted r with
    | true => simp [Option.filter, hr, rename?]
    | false =>
      rw [h.rename?_eq (isDeleted_eq_false.1 hr)]
      simp [Option.filter, hr]

theorem reasons_eq (h : p.Compacts a b lists t) (hp : p.InOrder) (ht : p.trail.Tied) :
    t.reasons = p.trail.reasons.map (p.arena.renameReason a.newName) := by
  have hreason : ∀ l, t.reasonOf l = p.arena.renameReason a.newName (p.trail.reasonOf l) := by
    intro l
    rw [h.renameReason_eq, h.reason]
    split
    · rfl
    · -- a variable that is not on the trail has no reason
      rename_i hoff
      rw [ht.reasonOf l (hp.ok.trail.isFree_of_notMem hoff)]
      rfl
  refine Array.ext (by rw [Array.size_map, h.reasons_size]) fun v hv hv' => ?_
  have hl := hreason (Lit.ofVar v false)
  rw [Array.size_map] at hv'
  simpa [Trail.reasonOf, Lit.var_ofVar, Array.getD_eq_getD_getElem?, hv, hv'] using hl

end Propagator.Compacts

/-- **Compaction relocates the live clauses**, where the lists name them and variables without a value
    have no reason. -/
theorem compact_relocates (hp : p.InOrder) (ht : p.trail.Tied) (hd : d.ListsLive p.arena) :
    ∃ σ, Relocation σ d p (compact d p).1 (compact d p).2 := by
  obtain ⟨a, b, lists, t, h, he⟩ := Propagator.exists_compacts hp d
  have hlisted : ∀ r, r ∈ d.clauses ∨ r ∈ d.learnts → p.arena.IsLive r := by
    rintro r (hr | hr)
    · exact ((hd.own.mem_iff r).1 (Array.mem_toList_iff.2 hr)).1
    · exact ((hd.other.mem_iff r).1 (Array.mem_toList_iff.2 hr)).1
  have hrefs : ∀ refs : Array ClauseRef, (∀ r ∈ refs, p.arena.IsLive r) →
      (refs.toList.filterMap (p.arena.rename? a)).toArray = refs.map a.newName := by
    intro refs hrefs
    rw [← Array.toList_inj, Array.toList_map, ← List.filterMap_eq_map]
    refine List.filterMap_congr fun r hr => ?_
    exact h.rename?_eq (hrefs r (Array.mem_toList_iff.1 hr))
  rw [he]
  exact ⟨a.newName, h.bijOn, fun r hr => h.view hp hr, congrArg _ h.lists_eq, h.reasons_eq hp ht,
    h.trail, rfl, hlisted, by
      rw [hrefs _ fun r hr => hlisted r (.inl hr), hrefs _ fun r hr => hlisted r (.inr hr)]⟩

namespace Relocation

theorem isLive (h : Relocation σ d p d' p') {r : ClauseRef} (hr : p.arena.IsLive r) :
    p'.arena.IsLive (σ r) := by
  rw [Arena.IsLive, h.view r hr]
  exact hr

/-- **After compaction every name belongs to a live clause.** -/
theorem namesLive (h : Relocation σ d p d' p') : NamesLive d' p' where
  watcher list hlist x hx := by
    rw [h.watches] at hlist
    obtain ⟨old, -, rfl⟩ := Array.mem_map.1 hlist
    obtain ⟨y, hy, rfl⟩ := Array.mem_map.1 hx
    exact h.isLive (by simpa [Arena.isDeleted, Arena.IsLive] using (Array.mem_filter.1 hy).2)
  reason r hr := by
    rw [h.reasons] at hr
    obtain ⟨reason, -, hreason⟩ := Array.mem_map.1 hr
    obtain ⟨s, hs, rfl⟩ := Option.map_eq_some_iff.1 hreason
    exact h.isLive (by simpa [Arena.isDeleted, Arena.IsLive] using (Option.filter_eq_some_iff.1 hs).2)
  clause r hr := by
    rw [h.lists] at hr
    obtain ⟨s, hs, rfl⟩ := Array.mem_map.1 hr
    exact h.isLive (h.listed s (.inl hs))
  learnt r hr := by
    rw [h.lists] at hr
    obtain ⟨s, hs, rfl⟩ := Array.mem_map.1 hr
    exact h.isLive (h.listed s (.inr hs))

theorem names (h : Relocation σ d p d' p') {learnt : Bool} {refs : List ClauseRef}
    (hrefs : ClauseLists.Names p.arena learnt refs) :
    ClauseLists.Names p'.arena learnt (refs.map σ) := by
  refine ⟨List.Nodup.map_on (fun r hr s hs he => ?_) hrefs.nodup, fun n => ?_⟩
  · exact h.bijective.injOn ((hrefs.mem_iff r).1 hr).1 ((hrefs.mem_iff s).1 hs).1 he
  · rw [List.mem_map]
    constructor
    · rintro ⟨r, hr, rfl⟩
      obtain ⟨hlive, hkind⟩ := (hrefs.mem_iff r).1 hr
      exact ⟨h.isLive hlive, by rw [h.view r hlive]; exact hkind⟩
    · rintro ⟨hn, hkind⟩
      obtain ⟨r, hr, rfl⟩ := h.bijective.surjOn hn.index_lt
      rw [h.view r hr] at hkind
      exact ⟨r, (hrefs.mem_iff r).2 ⟨hr, hkind⟩, rfl⟩

theorem listsLive (h : Relocation σ d p d' p') (hd : d.ListsLive p.arena) :
    d'.ListsLive p'.arena := by
  rw [h.lists, ClauseLists.ListsLive, Array.toList_map, Array.toList_map]
  exact ⟨h.names hd.own, h.names hd.other⟩

theorem tied (h : Relocation σ d p d' p') (ht : p.trail.Tied) : p'.trail.Tied := by
  refine ⟨?_, fun l hl => ?_⟩
  · rw [h.reasons, Array.size_map, h.trail]
    exact ht.size
  · rw [h.trail] at hl
    have hnone := ht.reasonOf l hl
    rw [Trail.reasonOf, Array.getD_eq_getD_getElem?] at hnone ⊢
    rw [h.reasons, Array.getElem?_map]
    cases hreason : p.trail.reasons[l.var]? with
    | none => rfl
    | some reason =>
      rw [hreason, Option.getD_some] at hnone
      rw [hnone]
      rfl

end Relocation

end ConfigSampler
