import ConfigSampler.Proofs.Entailment
import ConfigSampler.Solver.ClauseLists

/-!
# Changing the stored clauses

Activities, deletions, shortened clauses and a move to a fresh arena all leave the literals of the
trail alone.  `Propagator.Transfer` collects what such a change may do to clauses, reasons and watch
lists, given how clauses are renamed; from it follow the invariant of the propagator and that no
model is lost or gained (`Propagator.Tidied`).
-/

set_option autoImplicit false

namespace ConfigSampler

namespace Propagator

variable {p q : Propagator} {σ : ClauseRef → ClauseRef} {r s : ClauseRef} {l w : Lit}
  {α : Assignment}

/-- The clause under its new name: without some literals that are false at ground level, but with
    the same watched ones. -/
structure Keeps (p q : Propagator) (r s : ClauseRef) : Prop where
  ok : (q.arena.view s).Ok p.trail.numVars
  head : (q.arena.view s).head = (p.arena.view r).head
  second : (q.arena.view s).second = (p.arena.view r).second
  learnt : (q.arena.view s).learnt = (p.arena.view r).learnt
  subset : ∀ l ∈ (q.arena.view s).lits, l ∈ (p.arena.view r).lits
  dropped : ∀ l ∈ (p.arena.view r).lits, l ∈ (q.arena.view s).lits ∨
    (p.trail.isFalse l = true ∧ p.trail.levelOf l = 0)

/-- The second propagator holds clauses of the first one under the names that `σ` gives them. -/
structure Transfer (σ : ClauseRef → ClauseRef) (p q : Propagator) : Prop where
  trail : q.trail = { p.trail with reasons := q.trail.reasons }
  reasons_size : q.trail.reasons.size = p.trail.reasons.size
  reason : ∀ i < p.trail.size, 0 < p.trail.levelOf (p.trail.litAt i) →
    q.trail.reasonOf (p.trail.litAt i) = (p.trail.reasonOf (p.trail.litAt i)).map σ ∧
    ∀ r, p.trail.reasonOf (p.trail.litAt i) = some r → p.Forces r i → q.arena.IsLive (σ r)
  live : ∀ s, q.arena.IsLive s → ∃ r, p.arena.IsLive r ∧ σ r = s
  injective : ∀ r r', p.arena.IsLive r → p.arena.IsLive r' → q.arena.IsLive (σ r) → σ r = σ r' →
    r = r'
  keeps : ∀ r, p.arena.IsLive r → q.arena.IsLive (σ r) → Keeps p q r (σ r)
  slots : q.watches.slots.size = p.watches.slots.size
  watchers : ∀ l, ∃ kept : List Watcher, kept.Sublist (p.watchersOf l) ∧
    (∀ x ∈ p.watchersOf l, x ∈ kept ↔ q.arena.IsLive (σ x.clause)) ∧
    q.watchersOf l = kept.map fun x => { x with clause := σ x.clause }
  fresh : q.Fresh

theorem Keeps.isWatched_iff (h : Keeps p q r s) :
    (q.arena.view s).IsWatched l ↔ (p.arena.view r).IsWatched l := by
  simp only [Clause.IsWatched, h.head, h.second]

/-- True literals are not dropped. -/
theorem Keeps.mem_of_isTrue (h : Keeps p q r s) (hl : l ∈ (p.arena.view r).lits)
    (htrue : p.trail.isTrue l = true) : l ∈ (q.arena.view s).lits :=
  (h.dropped l hl).resolve_right fun hf => by
    rw [Trail.isTrue_not_isFalse htrue] at hf
    cases hf.1

theorem Transfer.mem_watchersOf (h : Transfer σ p q) (hs : ∀ x ∈ p.watchersOf l, p.arena.IsLive x.clause)
    {r : ClauseRef} (hr : p.arena.IsLive r) (hlive : q.arena.IsLive (σ r)) :
    (∃ x ∈ q.watchersOf l, x.clause = σ r) ↔ ∃ x ∈ p.watchersOf l, x.clause = r := by
  obtain ⟨kept, hsub, hkept, he⟩ := h.watchers l
  rw [he]
  constructor
  · rintro ⟨x, hx, hxr⟩
    obtain ⟨y, hy, rfl⟩ := List.mem_map.1 hx
    have hy' := hsub.subset hy
    exact ⟨y, hy', (h.injective r y.clause hr (hs y hy') hlive hxr.symm).symm⟩
  · rintro ⟨x, hx, rfl⟩
    exact ⟨_, List.mem_map.2 ⟨x, (hkept x hx).2 hlive, rfl⟩, rfl⟩

theorem Transfer.watched (h : Transfer σ p q) (hp : p.InOrder) : Watched q.watchersOf q := by
  have hwatched := hp.ok.watched
  refine ⟨fun l x hx => isLive_of_mem_watchersOf hx, fun s hs l => ?_, fun l => ?_, fun l x hx => ?_⟩
  · obtain ⟨r, hr, rfl⟩ := h.live s hs
    rw [h.mem_watchersOf (fun x hx => isLive_of_mem_watchersOf hx) hr hs,
      hwatched.mem_iff r hr, (h.keeps r hr hs).isWatched_iff]
  · obtain ⟨kept, hsub, hkept, he⟩ := h.watchers l
    have hn := (hsub.map Watcher.clause).nodup (hwatched.nodup l)
    have hmap : (q.watchersOf l).map Watcher.clause = (kept.map Watcher.clause).map σ := by
      rw [he, List.map_map, List.map_map]
      rfl
    rw [hmap]
    refine List.Nodup.map_on (fun r hr r' hr' hσ => ?_) hn
    obtain ⟨x, hx, rfl⟩ := List.mem_map.1 hr
    obtain ⟨y, hy, rfl⟩ := List.mem_map.1 hr'
    have hx' := hsub.subset hx
    exact h.injective _ _ (isLive_of_mem_watchersOf hx')
      (isLive_of_mem_watchersOf (hsub.subset hy)) ((hkept x hx').1 hx) hσ
  · obtain ⟨kept, hsub, hkept, he⟩ := h.watchers l
    rw [he] at hx
    obtain ⟨y, hy, rfl⟩ := List.mem_map.1 hx
    have hy' := hsub.subset hy
    have hlive := (hkept y hy').1 hy
    have htrail : q.trail.isFalse y.blocker = p.trail.isFalse y.blocker ∧
        q.trail.levelOf y.blocker = p.trail.levelOf y.blocker := by
      rw [h.trail]
      exact ⟨rfl, rfl⟩
    rw [htrail.1, htrail.2]
    rcases hwatched.blocker l y hy' with hb | hb
    · exact (h.keeps _ (isLive_of_mem_watchersOf hy') hlive).dropped _ hb
    · exact .inr hb

theorem Transfer.inOrder (h : Transfer σ p q) (hp : p.InOrder) : q.InOrder := by
  refine ⟨?_, h.fresh⟩
  have hok := hp.ok
  have hwatched := h.watched hp
  have hkeeps := h.keeps
  have hlive := h.live
  have hreason := h.reason
  have hslots := h.slots
  have hsize := h.reasons_size
  obtain ⟨t, a, watches, n⟩ := q
  obtain ⟨rs, rfl⟩ : ∃ rs, t = { p.trail with reasons := rs } := ⟨_, h.trail⟩
  have ht := hok.trail
  refine ⟨⟨ht.levels_size, hsize.trans ht.reasons_size, ht.nodup, ht.var_lt, ht.isTrue_iff,
    ht.value_negate, ht.limits_sorted, ht.limits_le, ht.levelOf_litAt, ht.queueHead_le⟩, fun s hs => ?_,
    hslots.trans hok.slots, hwatched, fun i hi hpos => ?_, hok.current,
    fun s hs w hw hfalse hlevel => ?_⟩
  · obtain ⟨r, hr, rfl⟩ := hlive s hs
    exact (hkeeps r hr hs).ok
  · obtain ⟨hsome, hlives⟩ := hreason i hi hpos
    rcases hok.reason i hi hpos with ⟨hnone, hbottom⟩ | ⟨r, hr, hf⟩
    · exact .inl ⟨by rw [hnone] at hsome; exact hsome, hbottom⟩
    · have hs := hlives r hr hf
      have hk := hkeeps r hf.live hs
      rw [hr] at hsome
      exact .inr ⟨σ r, hsome, hs, hk.head.trans hf.head, fun l hl hne => hf.others l (hk.subset l hl) hne⟩
  · obtain ⟨r, hr, rfl⟩ := hlive s hs
    have hk := hkeeps r hr hs
    obtain ⟨b, hb, htrue, hle⟩ := hok.below r hr w (hk.isWatched_iff.1 hw) hfalse hlevel
    exact ⟨b, hk.mem_of_isTrue hb htrue, htrue, hle⟩

theorem Transfer.isSettled (h : Transfer σ p q) (hp : p.IsSettled) : q.IsSettled := by
  have hkeeps := h.keeps
  have hlive := h.live
  obtain ⟨t, a, watches, n⟩ := q
  obtain ⟨rs, rfl⟩ : ∃ rs, t = { p.trail with reasons := rs } := ⟨_, h.trail⟩
  intro s hs w hw hproc
  obtain ⟨r, hr, rfl⟩ := hlive s hs
  have hk := hkeeps r hr hs
  obtain ⟨b, hb, htrue, hle⟩ := (hp r hr w (hk.isWatched_iff.1 hw) hproc).resolve_left id
  exact .inr ⟨b, hk.mem_of_isTrue hb htrue, htrue, hle⟩

theorem Transfer.models (h : Transfer σ p q) (hp : p.InOrder) (hα : p.Models α) : q.Models α := by
  refine ⟨fun s hs => ?_, ?_⟩
  · obtain ⟨r, hr, rfl⟩ := h.live s hs
    obtain ⟨l, hl, hholds⟩ := hα.clause r hr
    refine ⟨l, ((h.keeps r hr hs).dropped l hl).resolve_right fun ⟨hf, h0⟩ => ?_, hholds⟩
    have := hα.ground l.negate ((hp.ok.trail.isFalse_iff l).1 hf) (by simpa using h0)
    exact Lit.holds_negate.1 this hholds
  · rw [h.trail]
    exact hα.ground

/-- No model is gained if every problem clause is kept or true at ground level. -/
theorem Transfer.modelsProblem (h : Transfer σ p q) (hp : p.InOrder)
    (hproblem : ∀ r, p.arena.IsLive r → (p.arena.view r).learnt = false →
      q.arena.IsLive (σ r) ∨
      ∃ l ∈ (p.arena.view r).lits, p.trail.isTrue l = true ∧ p.trail.levelOf l = 0)
    (hα : q.ModelsProblem α) : p.ModelsProblem α := by
  have hground : ∀ l ∈ p.trail.lits, p.trail.levelOf l = 0 → l.Holds α := by
    have := hα.ground
    rw [h.trail] at this
    exact this
  refine ⟨fun r hr hl => ?_, hground⟩
  rcases hproblem r hr hl with hs | ⟨l, hl, htrue, h0⟩
  · have hk := h.keeps r hr hs
    obtain ⟨l, hl, hholds⟩ := hα.clause _ hs (hk.learnt.trans hl)
    exact ⟨l, hk.subset l hl, hholds⟩
  · exact ⟨l, hl, hground l ((hp.ok.trail.isTrue_iff l).1 htrue) h0⟩

/-! ## What all these changes leave as it was -/

/-- The trail still holds the same literals with the same decisions, the propagator is in order, and
    it has the same models. -/
structure Tidied (p q : Propagator) : Prop where
  trail : q.trail = { p.trail with reasons := q.trail.reasons }
  decisions : ∀ i < p.trail.size, 0 < p.trail.levelOf (p.trail.litAt i) →
    q.trail.reasonOf (p.trail.litAt i) = none → p.trail.reasonOf (p.trail.litAt i) = none
  inOrder : q.InOrder
  settled : p.IsSettled → q.IsSettled
  models : ∀ α, p.Models α → q.Models α
  modelsProblem : ∀ α, q.ModelsProblem α → p.ModelsProblem α

theorem Tidied.refl (hp : p.InOrder) : Tidied p p :=
  ⟨rfl, fun _ _ _ h => h, hp, fun h => h, fun _ h => h, fun _ h => h⟩

theorem Tidied.trans {q' : Propagator} (h : Tidied p q) (h' : Tidied q q') : Tidied p q' := by
  have hdecisions := h'.decisions
  have htrail := h'.trail
  rw [h.trail] at hdecisions htrail
  exact ⟨htrail, fun i hi hpos hnone => h.decisions i hi hpos
    (by rw [h.trail]; exact hdecisions i hi hpos hnone), h'.inOrder,
    fun hs => h'.settled (h.settled hs),
    fun α hα => h'.models α (h.models α hα), fun α hα => h.modelsProblem α (h'.modelsProblem α hα)⟩

theorem Transfer.tidied (h : Transfer σ p q) (hp : p.InOrder)
    (hproblem : ∀ r, p.arena.IsLive r → (p.arena.view r).learnt = false →
      q.arena.IsLive (σ r) ∨
      ∃ l ∈ (p.arena.view r).lits, p.trail.isTrue l = true ∧ p.trail.levelOf l = 0) :
    Tidied p q where
  trail := h.trail
  decisions i hi hpos hnone := by
    rw [(h.reason i hi hpos).1] at hnone
    simpa using hnone
  inOrder := h.inOrder hp
  settled := h.isSettled
  models _ hα := h.models hp hα
  modelsProblem _ hα := h.modelsProblem hp hproblem hα

end Propagator

/-! ## Activity -/

namespace Arena

variable {a b c : Arena}

/-- The arenas differ in activities only. -/
structure Reactivated (a b : Arena) : Prop where
  size : b.clauses.size = a.clauses.size
  view : ∀ r, ∃ activity, b.view r = { a.view r with activity := activity }

theorem Reactivated.refl (a : Arena) : Reactivated a a := ⟨rfl, fun _ => ⟨_, rfl⟩⟩

theorem Reactivated.trans (h : Reactivated a b) (h' : Reactivated b c) : Reactivated a c := by
  refine ⟨h'.size.trans h.size, fun r => ?_⟩
  obtain ⟨x, hx⟩ := h.view r
  obtain ⟨y, hy⟩ := h'.view r
  exact ⟨y, by rw [hy, hx]⟩

theorem reactivated_edit (a : Arena) (r : ClauseRef) (activity : Clause → Float) :
    Reactivated a (a.edit r fun c => c.setActivity (activity c)) := by
  refine ⟨size_edit a r _, fun s => ?_⟩
  by_cases hs : s = r
  · subst hs
    by_cases hlt : s.index < a.clauses.size
    · exact ⟨_, view_edit_self _ hlt⟩
    · exact ⟨_, view_edit_of_le _ (by omega)⟩
  · exact ⟨_, view_edit_of_ne _ hs⟩

theorem Reactivated.isLive_iff (h : Reactivated a b) {r : ClauseRef} : b.IsLive r ↔ a.IsLive r := by
  obtain ⟨x, hx⟩ := h.view r
  simp only [IsLive, hx]

end Arena

namespace ClauseLists

theorem reactivated_rescale : ∀ (learnts : List ClauseRef) (a : Arena),
    a.Reactivated (rescale learnts a)
  | [], a => .refl a
  | r :: rest, a => (a.reactivated_edit r fun c => c.activity * 1e-20).trans
      (reactivated_rescale rest _)

theorem bump_spec (d : ClauseLists) (a : Arena) (r : ClauseRef) :
    a.Reactivated (d.bump a r).2 ∧ (d.bump a r).1.learnts = d.learnts := by
  unfold bump
  simp only
  split
  · exact ⟨.refl a, rfl⟩
  · have hedit := a.reactivated_edit r fun _ => (a.view r).activity + d.increment
    split
    · exact ⟨hedit.trans (reactivated_rescale _ _), rfl⟩
    · exact ⟨hedit, rfl⟩

theorem bumpAll_spec : ∀ (used : List ClauseRef) (d : ClauseLists) (a : Arena),
    a.Reactivated (d.bumpAll a used).2 ∧ (d.bumpAll a used).1.learnts = d.learnts
  | [], d, a => ⟨.refl a, rfl⟩
  | r :: rest, d, a => by
    obtain ⟨h, hl⟩ := bump_spec d a r
    obtain ⟨h', hl'⟩ := bumpAll_spec rest (d.bump a r).1 (d.bump a r).2
    exact ⟨h.trans h', hl'.trans hl⟩

end ClauseLists

namespace Propagator

variable {p : Propagator} {a : Arena} {r s : ClauseRef} {l : Lit}

/-- A change that keeps the names and the contents of the clauses it does not delete. -/
theorem transfer_id (watches : WatchTable) (hlive : ∀ s, a.IsLive s → p.arena.IsLive s)
    (hkeeps : ∀ r, p.arena.IsLive r → a.IsLive r →
      Keeps p { p with arena := a, watches := watches } r r)
    (hreason : ∀ i < p.trail.size, 0 < p.trail.levelOf (p.trail.litAt i) →
      ∀ r, p.trail.reasonOf (p.trail.litAt i) = some r → p.Forces r i → a.IsLive r)
    (hslots : watches.slots.size = p.watches.slots.size)
    (hwatchers : ∀ l, (watches.listOf l).watchers = (p.watches.listOf l).watchers)
    (hfresh : Fresh { p with arena := a, watches := watches }) :
    Transfer id p { p with arena := a, watches := watches } where
  trail := rfl
  reasons_size := rfl
  reason i hi hpos := ⟨by simp, hreason i hi hpos⟩
  live s hs := ⟨s, hlive s hs, rfl⟩
  injective _ _ _ _ _ he := he
  keeps := hkeeps
  slots := hslots
  watchers l := by
    refine ⟨(p.watchersOf l).filter fun x => !a.isDeleted x.clause, List.filter_sublist,
      fun x hx => ?_, ?_⟩
    · simp only [List.mem_filter, hx, true_and, Bool.not_eq_true', id]
      exact Arena.isDeleted_eq_false
    · rw [watchersOf, watchersOf, List.filter_filter, hwatchers]
      simp only [id, List.map_id']
      refine List.filter_congr fun x _ => ?_
      cases hd : a.isDeleted x.clause with
      | true => rfl
      | false => simp [Arena.isDeleted_eq_false.2 (hlive _ hd)]
  fresh := hfresh

theorem Keeps.of_view (hc : (p.arena.view r).Ok p.trail.numVars) {q : Propagator} {x : Float}
    (he : q.arena.view r = { p.arena.view r with activity := x }) : Keeps p q r r where
  ok := by rw [he]; exact ⟨hc.two_le, hc.nodup, hc.var_lt, hc.movedTo⟩
  head := by rw [he]; rfl
  second := by rw [he]; rfl
  learnt := by rw [he]
  subset l hl := by rw [he] at hl; exact hl
  dropped l hl := .inl (by rw [he]; exact hl)

theorem Keeps.of_renamed (hc : (p.arena.view r).Ok p.trail.numVars) {q : Propagator}
    (he : q.arena.view s = p.arena.view r) : Keeps p q r s :=
  ⟨by rw [he]; exact hc, by rw [he], by rw [he], by rw [he], fun l hl => by rwa [he] at hl,
    fun l hl => .inl (by rwa [he])⟩

/-- Activities play no part in the invariant. -/
theorem Transfer.reactivate (hp : p.InOrder) (ha : p.arena.Reactivated a) :
    Transfer id p { p with arena := a } := by
  refine transfer_id p.watches (fun s => ha.isLive_iff.1) (fun r hr _ => ?_)
    (fun i _ _ r _ hf => ha.isLive_iff.2 hf.live) rfl (fun _ => rfl) fun l x hx => ?_
  · obtain ⟨x, hx⟩ := ha.view r
    exact .of_view (hp.ok.clause r hr) hx
  · obtain ⟨hlt, hlive⟩ := hp.fresh l x hx
    exact ⟨by rw [ha.size]; exact hlt, fun hstale => ha.isLive_iff.2 (hlive hstale)⟩

end Propagator

/-! ## Deleting a clause -/

namespace Arena

theorem view_free (a : Arena) (r s : ClauseRef) :
    (a.free r).view s = (a.edit r fun c => { c with deleted := true }).view s := rfl

theorem isLive_free {a : Arena} {r s : ClauseRef} : (a.free r).IsLive s ↔ s ≠ r ∧ a.IsLive s := by
  rw [IsLive, view_free]
  by_cases hs : s = r
  · subst hs
    simp only [ne_eq, not_true_eq_false, false_and, iff_false, Bool.not_eq_false]
    by_cases hlt : s.index < a.clauses.size
    · rw [view_edit_self _ hlt]
    · rw [view_edit_of_le _ (by omega), view, Array.getD_eq_getD_getElem?,
        Array.getElem?_eq_none (by omega)]
      rfl
  · rw [view_edit_of_ne _ hs]
    simp [hs, IsLive]

end Arena

namespace WatchTable

variable {w : WatchTable} {first second l : Lit}

theorem slots_detach (w : WatchTable) (first second : Lit) :
    (detach w first second).slots.size = w.slots.size := by simp [detach]

theorem listOf_mark (w : WatchTable) (l m : Lit) :
    (listOf ⟨w.slots.modify l.code fun list => { list with stale := true }⟩ m).watchers =
      (listOf w m).watchers ∧
    ((listOf ⟨w.slots.modify l.code fun list => { list with stale := true }⟩ m).stale = false →
      (listOf w m).stale = false ∧ (m.code < w.slots.size → m ≠ l)) := by
  by_cases hm : m = l
  · subst hm
    by_cases hlt : m.code < w.slots.size
    · rw [listOf_modify_self _ hlt]
      exact ⟨rfl, (nomatch ·)⟩
    · have hsame : listOf ⟨w.slots.modify m.code fun list => { list with stale := true }⟩ m =
          listOf w m := by
        simp [listOf, Array.getD_eq_getD_getElem?, hlt]
      rw [hsame]
      exact ⟨rfl, fun h => ⟨h, fun hlt' => absurd hlt' hlt⟩⟩
  · rw [listOf_modify_of_ne _ hm]
    exact ⟨rfl, fun h => ⟨h, fun _ => hm⟩⟩

theorem watchers_detach (w : WatchTable) (first second l : Lit) :
    (listOf (detach w first second) l).watchers = (listOf w l).watchers :=
  (listOf_mark _ second.negate l).1.trans (listOf_mark w first.negate l).1

theorem stale_detach (h : (listOf (detach w first second) l).stale = false)
    (hl : l.code < w.slots.size) :
    (listOf w l).stale = false ∧ l ≠ first.negate ∧ l ≠ second.negate := by
  obtain ⟨h', hsecond⟩ := (listOf_mark
    ⟨w.slots.modify first.negate.code fun list => { list with stale := true }⟩ second.negate l).2 h
  obtain ⟨h'', hfirst⟩ := (listOf_mark w first.negate l).2 h'
  exact ⟨h'', hfirst hl, hsecond (by simpa using hl)⟩

theorem code_lt_of_mem {x : Watcher} (h : x ∈ (listOf w l).watchers) : l.code < w.slots.size := by
  by_contra hge
  simp only [listOf, Array.getD_eq_getD_getElem?, Array.getElem?_eq_none (Nat.le_of_not_lt hge),
    Option.getD_none] at h
  exact absurd h (by simp [default, WatchList.empty])

end WatchTable

namespace Propagator

variable {p : Propagator} {r : ClauseRef}

/-- A clause that is no reason above ground may be deleted. -/
theorem Transfer.delete (hp : p.InOrder) (hr : p.arena.IsLive r)
    (hreason : ∀ i < p.trail.size, 0 < p.trail.levelOf (p.trail.litAt i) →
      p.trail.reasonOf (p.trail.litAt i) = some r → ¬ p.Forces r i) (d : ClauseLists) :
    Transfer id p (d.delete p r).2 := by
  refine transfer_id _ (fun s hs => (Arena.isLive_free.1 hs).2) (fun s hs hs' => ?_)
    (fun i hi hpos s hs hf => ?_) (WatchTable.slots_detach _ _ _)
    (WatchTable.watchers_detach _ _ _) fun l x hx => ?_
  · apply Keeps.of_view (x := (p.arena.view s).activity) (hp.ok.clause s hs)
    exact Arena.view_edit_of_ne _ (Arena.isLive_free.1 hs').1
  · refine Arena.isLive_free.2 ⟨?_, hf.live⟩
    rintro rfl
    exact hreason i hi hpos hs hf
  · have hx' : x ∈ (p.watches.listOf l).watchers := by
      rwa [← WatchTable.watchers_detach p.watches (p.arena.view r).head (p.arena.view r).second]
    obtain ⟨hlt, hlive⟩ := hp.fresh l x hx'
    refine ⟨?_, fun hstale => ?_⟩
    · show x.clause.index < (p.arena.edit r _).clauses.size
      rw [Arena.size_edit]
      exact hlt
    · obtain ⟨hfresh, hfirst, hsecond⟩ :=
        WatchTable.stale_detach hstale (WatchTable.code_lt_of_mem hx')
      have hxlive := hlive hfresh
      refine Arena.isLive_free.2 ⟨?_, hxlive⟩
      -- the clause is watched in the two marked lists only
      rintro rfl
      have hmem : x ∈ p.watchersOf l :=
        List.mem_filter.2 ⟨by simpa using hx', by rw [Arena.isDeleted_eq_false.2 hxlive]; rfl⟩
      rcases (hp.ok.watched.mem_iff x.clause hxlive l).1 ⟨x, hmem, rfl⟩ with he | he
      · exact hfirst (Lit.negate_eq_comm.1 he)
      · exact hsecond (Lit.negate_eq_comm.1 he)

end Propagator

/-! ## Shortening a clause -/

namespace Clause

/-- Putting the last literal in the place of another one. -/
theorem take_swap_pop (lits : Array Lit) {i : Nat} (hi : i < lits.size) :
    (lits.swapIfInBounds i (lits.size - 1)).pop.toList.take i = lits.toList.take i ∧
    ((lits.swapIfInBounds i (lits.size - 1)).pop.toList.drop i).Perm (lits.toList.drop (i + 1)) := by
  have hi' : i < lits.toList.length := by simpa using hi
  have hswap : lits.swapIfInBounds i (lits.size - 1) =
      lits.swap i (lits.size - 1) hi (by omega) := by
    simp [Array.swapIfInBounds_def, hi, show lits.size - 1 < lits.size by omega]
  rw [hswap]
  have hperm := (Array.swap_perm hi (show lits.size - 1 < lits.size by omega)).toList
  have hlast : lits.size - 1 < lits.size := by omega
  have hget := fun k => @Array.getElem?_swap _ lits i (lits.size - 1) hi hlast k
  generalize lits.swap i (lits.size - 1) hi (by omega) = swapped at *
  have hsize : swapped.size = lits.size := by simpa using hperm.length_eq
  have htake : swapped.pop.toList.take i = lits.toList.take i := by
    refine List.ext_getElem? fun k => ?_
    simp only [List.getElem?_take]
    split
    · rename_i hk
      simp only [Array.getElem?_toList, Array.getElem?_pop, hsize,
        if_pos (show k < lits.size - 1 by omega), hget, if_neg (show ¬ lits.size - 1 = k by omega),
        if_neg (show ¬ i = k by omega)]
    · rfl
  have hlast : swapped.toList = swapped.pop.toList ++ [lits.toList[i]] := by
    have hne : swapped.toList ≠ [] := by
      rw [← List.length_pos_iff, Array.length_toList]; omega
    have hback : swapped.toList.getLast hne = lits.toList[i] := by
      obtain ⟨_, hb⟩ := Array.getElem?_eq_some_iff.1 ((hget (lits.size - 1)).trans (if_pos rfl))
      rw [List.getLast_eq_getElem]
      simpa [hsize] using hb
    rw [Array.toList_pop, ← hback, List.dropLast_concat_getLast]
  refine ⟨htake, ?_⟩
  have hsplit : lits.toList = lits.toList.take i ++ lits.toList[i] :: lits.toList.drop (i + 1) := by
    rw [← List.drop_eq_getElem_cons hi', List.take_append_drop]
  rw [hlast, ← List.take_append_drop i swapped.pop.toList, htake] at hperm
  conv at hperm => rhs; rw [hsplit]
  rw [List.append_assoc, List.perm_append_left_iff] at hperm
  exact ((List.perm_append_singleton _ _).symm.trans hperm).cons_inv

theorem retainFrom_spec (keep : Lit → Bool) (lits : Array Lit) (i : Nat) :
    (retainFrom keep lits i).toList.take i = lits.toList.take i ∧
    ((retainFrom keep lits i).toList.drop i).Perm ((lits.toList.drop i).filter keep) := by
  fun_induction retainFrom keep lits i with
  | case1 lits i hi hkeep ih =>
    obtain ⟨htake, hdrop⟩ := ih
    generalize retainFrom keep lits (i + 1) = kept at *
    have hi' : i < lits.toList.length := by simpa using hi
    have htake' := congrArg (List.take i) htake
    have hlt : i < kept.toList.length := by
      have := congrArg List.length htake
      simp only [List.length_take] at this
      omega
    have hat : kept.toList[i] = lits.toList[i] := by
      have := congrArg (fun l => l[i]?) htake
      simp only [List.getElem?_take, Nat.lt_succ_self, if_true] at this
      rwa [List.getElem?_eq_getElem hlt, List.getElem?_eq_getElem hi', Option.some.injEq] at this
    rw [List.take_take, List.take_take, Nat.min_eq_left (Nat.le_succ i)] at htake'
    refine ⟨htake', ?_⟩
    rw [List.drop_eq_getElem_cons hlt, List.drop_eq_getElem_cons hi', hat,
      List.filter_cons_of_pos (by simpa using hkeep)]
    exact hdrop.cons _
  | case2 lits i hi hkeep ih =>
    obtain ⟨htake, hdrop⟩ := ih
    obtain ⟨htake', hdrop'⟩ := take_swap_pop lits hi
    refine ⟨htake.trans htake', hdrop.trans ?_⟩
    rw [List.drop_eq_getElem_cons (l := lits.toList) (by simpa using hi),
      List.filter_cons_of_neg (by simpa using hkeep)]
    exact hdrop'.filter keep
  | case3 lits i hi =>
    rw [List.drop_eq_nil_of_le (by simpa using hi)]
    exact ⟨rfl, .refl _⟩

/-- Removing literals after the watched ones. -/
theorem retainSuffix_spec {c : Clause} {n : Nat} (hc : c.Ok n) (keep : Lit → Bool) :
    (c.retainSuffix 2 keep).Ok n ∧ (c.retainSuffix 2 keep).head = c.head ∧
    (c.retainSuffix 2 keep).second = c.second ∧
    (∀ l ∈ (c.retainSuffix 2 keep).lits, l ∈ c.lits) ∧
    ∀ l ∈ c.lits, l ∈ (c.retainSuffix 2 keep).lits ∨ keep l = false := by
  obtain ⟨htake, hdrop⟩ := retainFrom_spec keep c.lits 2
  have hsize := hc.two_le
  have hlen := congrArg List.length htake
  have hget : ∀ k < 2, (c.retainSuffix 2 keep).litAt k = c.litAt k := by
    intro k hk
    have := congrArg (fun l => l[k]?) htake
    simp only [List.getElem?_take, if_pos hk, Array.getElem?_toList] at this
    simp only [litAt, retainSuffix, Array.getD_eq_getD_getElem?, this]
  have hperm : (retainFrom keep c.lits 2).toList.Perm
      (c.lits.toList.take 2 ++ (c.lits.toList.drop 2).filter keep) := by
    rw [← List.take_append_drop 2 (retainFrom keep c.lits 2).toList, htake]
    exact hdrop.append_left _
  have hsub : (c.lits.toList.take 2 ++ (c.lits.toList.drop 2).filter keep).Sublist c.lits.toList := by
    conv => rhs; rw [← List.take_append_drop 2 c.lits.toList]
    exact List.filter_sublist.append_left _
  have hmem : ∀ l, l ∈ (c.retainSuffix 2 keep).lits ↔
      l ∈ c.lits.toList.take 2 ++ (c.lits.toList.drop 2).filter keep := by
    intro l
    rw [← hperm.mem_iff, Array.mem_toList_iff]; rfl
  refine ⟨⟨?_, (hperm.nodup_iff).2 (hc.nodup.sublist hsub), fun l hl => ?_, hc.movedTo⟩,
    hget 0 (by decide), hget 1 (by decide), fun l hl => ?_, fun l hl => ?_⟩
  · show 2 ≤ (retainFrom keep c.lits 2).size
    simp only [List.length_take, Array.length_toList] at hlen
    omega
  · exact hc.var_lt l (by simpa using hsub.subset ((hmem l).1 hl))
  · simpa using hsub.subset ((hmem l).1 hl)
  · rw [hmem]
    rw [← Array.mem_toList_iff, ← List.take_append_drop 2 c.lits.toList, List.mem_append] at hl
    rcases hl with hl | hl
    · exact .inl (List.mem_append.2 (.inl hl))
    · cases hk : keep l with
      | true => exact .inl (List.mem_append.2 (.inr (List.mem_filter.2 ⟨hl, hk⟩)))
      | false => exact .inr rfl

end Clause

namespace Propagator

variable {p : Propagator} {r : ClauseRef}

theorem isLive_shorten (hr : p.arena.IsLive r) (d : ClauseLists) {s : ClauseRef} :
    (d.shorten p r).2.arena.IsLive s ↔ p.arena.IsLive s := by
  unfold ClauseLists.shorten
  simp only [Arena.IsLive]
  rw [Arena.view_edit _ hr]
  split
  · rename_i hs
    rw [hs]; exact Iff.rfl
  · exact Iff.rfl

/-- At ground level the false literals after the watched ones may be removed from a clause. -/
theorem Transfer.shorten (hp : p.InOrder) (hr : p.arena.IsLive r) (hground : p.trail.level = 0)
    (d : ClauseLists) : Transfer id p (d.shorten p r).2 := by
  have hedit := fun s => isLive_shorten hr d (s := s)
  refine transfer_id p.watches (fun s => (hedit s).1) (fun s hs _ => ?_)
    (fun i _ _ s _ hf => (hedit s).2 hf.live) rfl (fun _ => rfl) fun l x hx => ?_
  · by_cases hsr : s = r
    · subst hsr
      have hview := Arena.view_edit_self
        (fun c => c.retainSuffix 2 fun l => !p.trail.isFalse l) hr.index_lt
      obtain ⟨hc, hhead, hsecond, hsub, hdropped⟩ :=
        Clause.retainSuffix_spec (hp.ok.clause s hs) fun l => !p.trail.isFalse l
      rw [← hview] at hc hhead hsecond hsub hdropped
      refine ⟨hc, hhead, hsecond, (congrArg Clause.learnt hview).trans rfl, hsub, fun l hl => ?_⟩
      refine (hdropped l hl).imp id fun hf => ?_
      have hfalse : p.trail.isFalse l = true := by simpa using hf
      have := hp.ok.trail.levelOf_le ((hp.ok.trail.isFalse_iff l).1 hfalse)
      rw [Trail.levelOf_negate] at this
      exact ⟨hfalse, by omega⟩
    · exact .of_view (x := (p.arena.view s).activity) (hp.ok.clause s hs)
        (Arena.view_edit_of_ne _ hsr)
  · obtain ⟨hlt, hlive⟩ := hp.fresh l x hx
    refine ⟨?_, fun hstale => (hedit _).2 (hlive hstale)⟩
    show x.clause.index < (p.arena.edit r _).clauses.size
    rw [Arena.size_edit]
    exact hlt

end Propagator

end ConfigSampler
