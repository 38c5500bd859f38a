import ConfigSampler.Proofs.WatchLists

/-!
# Unit propagation keeps the watching invariant

`Propagator.Sweeping` is the invariant of the loop over one watch list: the lists are in order if
that one is taken to hold the watchers that were kept and the ones still to come, and only for the
ones still to come a guard may be missing.  Each case of the loop is one lemma about it.

* `Propagator.sweep_spec` — one watch list,
* `Propagator.propagate_spec` — **propagation empties the queue; it ends with every watched literal
  guarded, or with a clause whose literals are all false**.
-/

set_option autoImplicit false

namespace ConfigSampler

namespace Clause

variable {wanted : Lit → Bool} {lits : Array Lit} {i j : Nat}

theorem findFrom_eq_some (h : findFrom wanted lits i = some j) :
    i ≤ j ∧ ∃ hj : j < lits.size, wanted lits[j] = true := by
  fun_induction findFrom wanted lits i with
  | case1 i hi hw => cases h; exact ⟨Nat.le_refl _, hi, hw⟩
  | case2 i hi hw ih => exact ⟨Nat.le_of_succ_le (ih h).1, (ih h).2⟩
  | case3 i hi => cases h

theorem findFrom_eq_none (h : findFrom wanted lits i = none) (hij : i ≤ j) (hj : j < lits.size) :
    wanted lits[j] = false := by
  fun_induction findFrom wanted lits i with
  | case1 i hi hw => cases h
  | case2 i hi hw ih =>
    rcases Nat.lt_or_eq_of_le hij with hlt | rfl
    · exact ih h hlt
    · simpa using hw
  | case3 i hi => omega

end Clause

namespace Propagator

variable {p q : Propagator} {lists lists' : Lit → List Watcher} {falseLit : Lit}
  {kept rest : List Watcher} {r : ClauseRef} {x y : Watcher} {l w : Lit}

/-- The lists stay in order if watchers get another literal of their clause as a blocker. -/
theorem Watched.reblock (h : Watched lists p)
    (hclauses : ∀ l, (lists' l).map Watcher.clause = (lists l).map Watcher.clause)
    (hblocker : ∀ l, ∀ x ∈ lists' l, x.blocker ∈ (p.arena.view x.clause).lits ∨
      (p.trail.isFalse x.blocker = true ∧ p.trail.levelOf x.blocker = 0)) : Watched lists' p := by
  have hmem : ∀ l r, (∃ x ∈ lists' l, x.clause = r) ↔ ∃ x ∈ lists l, x.clause = r := by
    intro l r
    rw [← List.mem_map, hclauses, List.mem_map]
  refine ⟨fun l x hx => ?_, fun r hr l => ?_, fun l => ?_, hblocker⟩
  · obtain ⟨y, hy, he⟩ := (hmem l x.clause).1 ⟨x, hx, rfl⟩
    exact he ▸ h.live l y hy
  · rw [hmem, h.mem_iff r hr]
  · rw [hclauses]; exact h.nodup l

/-- A watcher in a list may be replaced by another one for its clause. -/
theorem Watched.replace (h : Watched (Function.update lists l (kept ++ x :: rest)) p)
    (hclause : y.clause = x.clause)
    (hblocker : y.blocker ∈ (p.arena.view x.clause).lits ∨
      (p.trail.isFalse y.blocker = true ∧ p.trail.levelOf y.blocker = 0)) :
    Watched (Function.update lists l (kept ++ y :: rest)) p := by
  refine h.reblock (fun m => ?_) fun m z hz => ?_
  · by_cases hm : m = l
    · subst hm
      simp [hclause]
    · rw [Function.update_of_ne hm, Function.update_of_ne hm]
  · by_cases hm : m = l
    · subst hm
      rw [Function.update_self, List.mem_append, List.mem_cons] at hz
      rcases hz with hz | rfl | hz
      · exact h.blocker m z (by simp [hz])
      · rw [hclause]
        exact hblocker
      · exact h.blocker m z (by simp [hz])
    · rw [Function.update_of_ne hm] at hz
      exact h.blocker m z (by rwa [Function.update_of_ne hm])

/-- The invariant of the loop over the watchers of the complement of `falseLit`. -/
structure Sweeping (falseLit : Lit) (kept rest : List Watcher) (p : Propagator) : Prop where
  ok : Ok (Function.update p.watchersOf falseLit.negate (kept ++ rest)) p
  fresh : p.Fresh
  processed : p.Processed falseLit.negate
  level : p.trail.levelOf falseLit = p.trail.level
  settled : Settled (fun r w => w = falseLit ∧ ∃ x ∈ rest, x.clause = r) p

namespace Sweeping

theorem isFalse (h : Sweeping falseLit kept rest p) : p.trail.isFalse falseLit = true :=
  h.processed.isFalse h.ok.trail

theorem live (h : Sweeping falseLit kept (x :: rest) p) : p.arena.IsLive x.clause :=
  h.ok.watched.live falseLit.negate x (by simp)

theorem isWatched (h : Sweeping falseLit kept (x :: rest) p) :
    (p.arena.view x.clause).IsWatched falseLit := by
  have := (h.ok.watched.mem_iff x.clause h.live falseLit.negate).1 ⟨x, by simp, rfl⟩
  rwa [Lit.negate_negate] at this

theorem guarded (h : Sweeping falseLit kept rest p) {b : Lit}
    (hb : b ∈ (p.arena.view r).lits) (htrue : p.trail.isTrue b = true) : p.Guarded r falseLit :=
  ⟨b, hb, htrue, by
    rw [h.level]; exact h.ok.trail.levelOf_le ((h.ok.trail.isTrue_iff b).1 htrue)⟩

/-- A watcher stays, perhaps with another blocker, if its clause is guarded. -/
theorem keep (h : Sweeping falseLit kept (x :: rest) p) (hclause : y.clause = x.clause)
    (hblocker : y.blocker ∈ (p.arena.view x.clause).lits ∨
      (p.trail.isFalse y.blocker = true ∧ p.trail.levelOf y.blocker = 0))
    (hguard : p.Guarded x.clause falseLit) : Sweeping falseLit (kept ++ [y]) rest p := by
  refine ⟨⟨h.ok.trail, h.ok.clause, h.ok.slots, ?_, h.ok.reason, h.ok.current, h.ok.below⟩,
    h.fresh, h.processed, h.level, ?_⟩
  · rw [List.append_assoc]
    exact h.ok.watched.replace hclause hblocker
  · intro r hr w hw hproc
    rcases h.settled r hr w hw hproc with ⟨rfl, z, hz, rfl⟩ | hg
    · rcases List.mem_cons.1 hz with rfl | hz
      · exact .inr hguard
      · exact .inl ⟨rfl, z, hz, rfl⟩
    · exact .inr hg

end Sweeping

/-! ## Facing away -/

/-- Reordering literals so that true heads stay in place. -/
theorem Grows.of_alike {a : Arena} (ha : p.arena.Alike a)
    (hhead : ∀ r, p.trail.isTrue (p.arena.view r).head = true →
      (a.view r).head = (p.arena.view r).head) : Grows p { p with arena := a } where
  trail := .refl _
  arena := ha
  head := hhead
  forced i hi hi' := by
    have : i < p.trail.size := hi'
    omega

theorem alike_swap (a : Arena) (r : ClauseRef) (i j : Nat) :
    a.Alike (a.edit r fun c => c.swap i j) := Arena.alike_edit fun c => c.alike_swap i j

theorem watchersOf_of_alike {a : Arena} (ha : p.arena.Alike a) :
    watchersOf { p with arena := a } = p.watchersOf :=
  funext fun _ => watchersOf_congr rfl fun _ => ha.isLive_iff

theorem Sweeping.reorder (h : Sweeping falseLit kept rest p) {a : Arena} (ha : p.arena.Alike a)
    (hhead : ∀ r, p.trail.isTrue (p.arena.view r).head = true →
      (a.view r).head = (p.arena.view r).head)
    (hwatched : ∀ r l, (a.view r).IsWatched l ↔ (p.arena.view r).IsWatched l) :
    Sweeping falseLit kept rest { p with arena := a } := by
  have hnew : ∀ r w, (a.view r).IsWatched w →
      (p.arena.view r).IsWatched w ∨ p.trail.isFalse w = false :=
    fun r w hw => .inl ((hwatched r w).1 hw)
  have hw := h.ok.watched
  refine ⟨?_, h.fresh.of_alike ha, h.processed, h.level,
    h.settled.rearrange h.ok.trail _ ha hnew⟩
  rw [watchersOf_of_alike ha]
  refine h.ok.rearrange ha hhead hnew rfl ⟨fun l x hx => ha.isLive_iff.2 (hw.live l x hx),
    fun r hr l => ?_, hw.nodup, fun l x hx => (hw.blocker l x hx).imp (ha.clause x.clause).mem_iff.2 id⟩
  show _ ↔ (a.view r).IsWatched l.negate
  rw [hwatched, hw.mem_iff r (ha.isLive_iff.1 hr)]

/-- Afterwards the clause of the next watcher has the false literal in second place. -/
theorem Sweeping.faceAway (h : Sweeping falseLit kept (x :: rest) p) :
    Sweeping falseLit kept (x :: rest) (p.faceAway x.clause falseLit) ∧
    Grows p (p.faceAway x.clause falseLit) ∧
    (p.faceAway x.clause falseLit).trail = p.trail ∧
    ((p.faceAway x.clause falseLit).arena.view x.clause).second = falseLit := by
  have hc := h.ok.clause _ h.live
  have hsize := hc.two_le
  unfold Propagator.faceAway
  split
  · rename_i hhead
    have ha := alike_swap p.arena x.clause 0 1
    have hview : ∀ s, ((p.arena.edit x.clause fun c => c.swap 0 1).view s) =
        if s = x.clause then (p.arena.view x.clause).swap 0 1 else p.arena.view s :=
      fun s => Arena.view_edit _ h.live
    have hfirst : ((p.arena.view x.clause).swap 0 1).head = (p.arena.view x.clause).second := by
      simp only [Clause.head, Clause.second, Clause.litAt_swap (show 0 < _ by omega) hsize]
      rfl
    have hsecond : ((p.arena.view x.clause).swap 0 1).second = (p.arena.view x.clause).head := by
      simp only [Clause.head, Clause.second, Clause.litAt_swap (show 0 < _ by omega) hsize]
      rfl
    have htrue : ∀ s, p.trail.isTrue (p.arena.view s).head = true →
        ((p.arena.edit x.clause fun c => c.swap 0 1).view s).head = (p.arena.view s).head := by
      intro s hs
      rw [hview, if_neg]
      rintro rfl
      rw [hhead] at hs
      have := h.isFalse
      rw [Trail.isTrue_not_isFalse hs] at this
      cases this
    refine ⟨h.reorder ha htrue fun s l => ?_, .of_alike ha htrue, rfl, ?_⟩
    · rw [hview]
      split
      · rename_i hs
        simp only [Clause.IsWatched, hfirst, hsecond, hs, or_comm]
      · rfl
    · rw [hview, if_pos rfl, hsecond, hhead]
  · rename_i hne
    exact ⟨h, .refl p, rfl, (h.isWatched.resolve_left fun he => hne he.symm).symm⟩

/-! ## Watching another literal -/

/-- A watcher is taken out of the list of `source`, and another one for its clause is put into the
    list of `target`. -/
structure Handover (lists lists' : Lit → List Watcher) (x y : Watcher) (source target : Lit) :
    Prop where
  clause : y.clause = x.clause
  ne : target ≠ source
  taken : ∃ kept rest, lists source = kept ++ x :: rest ∧ lists' source = kept ++ rest
  put : lists' target = lists target ++ [y]
  same : ∀ l, l ≠ source → l ≠ target → lists' l = lists l

namespace Handover

variable {source target : Lit} {z : Watcher}

theorem mem_source (h : Handover lists lists' x y source target) : x ∈ lists source := by
  obtain ⟨kept, rest, hfrom, -⟩ := h.taken
  rw [hfrom]
  simp

theorem mem (h : Handover lists lists' x y source target) (hz : z ∈ lists' l) :
    z = y ∨ z ∈ lists l := by
  by_cases hs : l = source
  · subst hs
    obtain ⟨kept, rest, hfrom, hto⟩ := h.taken
    rw [hto] at hz
    rw [hfrom]
    exact .inr ((List.sublist_cons_self x rest).append_left kept |>.subset hz)
  · by_cases ht : l = target
    · subst ht
      rw [h.put, List.mem_append, List.mem_singleton] at hz
      exact hz.symm
    · rw [h.same l hs ht] at hz
      exact .inr hz

/-- The lists name other clauses as before. -/
theorem names_of_ne (h : Handover lists lists' x y source target) (hr : r ≠ x.clause) :
    (∃ z ∈ lists' l, z.clause = r) ↔ ∃ z ∈ lists l, z.clause = r := by
  rw [← List.mem_map, ← List.mem_map]
  by_cases hs : l = source
  · subst hs
    obtain ⟨kept, rest, hfrom, hto⟩ := h.taken
    rw [hfrom, hto]
    simp only [List.map_append, List.map_cons, List.mem_append, List.mem_cons, hr, false_or]
  · by_cases ht : l = target
    · subst ht
      rw [h.put]
      simp only [List.map_append, List.map_cons, List.map_nil, List.mem_append, List.mem_singleton,
        h.clause, hr, or_false]
    · rw [h.same l hs ht]

/-- The clause is named at `target` now and no longer at `source`. -/
theorem names_self (h : Handover lists lists' x y source target)
    (hnodup : ((lists source).map Watcher.clause).Nodup) :
    (∃ z ∈ lists' l, z.clause = x.clause) ↔
      l = target ∨ l ≠ source ∧ ∃ z ∈ lists l, z.clause = x.clause := by
  by_cases ht : l = target
  · subst ht
    rw [h.put]
    exact ⟨fun _ => .inl rfl, fun _ => ⟨y, by simp, h.clause⟩⟩
  by_cases hs : l = source
  · subst hs
    obtain ⟨kept, rest, hfrom, hto⟩ := h.taken
    rw [hfrom, List.map_append, List.map_cons, List.perm_middle.nodup_iff, List.nodup_cons,
      ← List.map_append, List.mem_map] at hnodup
    rw [hto]
    simp only [hnodup.1, ht, ne_eq, not_true_eq_false, false_and, or_self]
  · rw [h.same l hs ht]
    simp [hs, ht]

theorem nodup (h : Handover lists lists' x y source target)
    (hnodup : ∀ l, ((lists l).map Watcher.clause).Nodup)
    (hfresh : ∀ z ∈ lists target, z.clause ≠ x.clause) (l : Lit) :
    ((lists' l).map Watcher.clause).Nodup := by
  by_cases hs : l = source
  · subst hs
    obtain ⟨kept, rest, hfrom, hto⟩ := h.taken
    have hn := hnodup l
    rw [hfrom] at hn
    rw [hto]
    exact hn.sublist (((List.sublist_cons_self x rest).append_left kept).map _)
  · by_cases ht : l = target
    · subst ht
      rw [h.put, List.map_append, List.nodup_append]
      refine ⟨hnodup l, by simp, ?_⟩
      intro s hs s' hs'
      obtain ⟨z, hz, rfl⟩ := List.mem_map.1 hs
      simp only [List.map_cons, List.map_nil, List.mem_singleton] at hs'
      rw [hs', h.clause]
      exact hfresh z hz
    · rw [h.same l hs ht]
      exact hnodup l

end Handover

/-- A watcher moves to the list of the complement of `k`, the literal that takes the place of
    `falseLit` among the first two of its clause. -/
theorem Watched.move (h : Watched lists p) {a : Arena} {watches : WatchTable} {k : Lit}
    (hmoved : Handover lists lists' x y falseLit.negate k.negate)
    (hblocker : y.blocker ∈ (p.arena.view x.clause).lits)
    (ha : p.arena.Alike a) (hother : ∀ s, s ≠ x.clause → a.view s = p.arena.view s)
    (hold : ∀ l, (p.arena.view x.clause).IsWatched l ↔
      l = falseLit ∨ l = (p.arena.view x.clause).head)
    (hnew : ∀ l, (a.view x.clause).IsWatched l ↔ l = k ∨ l = (p.arena.view x.clause).head)
    (hk : k ≠ falseLit) (hkhead : k ≠ (p.arena.view x.clause).head)
    (hfalse : falseLit ≠ (p.arena.view x.clause).head) :
    Watched lists' { p with arena := a, watches := watches } := by
  have hlive : p.arena.IsLive x.clause := h.live falseLit.negate x hmoved.mem_source
  -- the clause was not in the list that its watcher is put into
  have hfresh : ∀ z ∈ lists k.negate, z.clause ≠ x.clause := by
    intro z hz he
    have hwatched := (h.mem_iff x.clause hlive k.negate).1 ⟨z, hz, he⟩
    rw [Lit.negate_negate, hold] at hwatched
    exact hwatched.elim hk hkhead
  refine ⟨fun l z hz => ?_, fun r hr l => ?_, hmoved.nodup h.nodup hfresh, fun l z hz => ?_⟩
  · show a.IsLive z.clause
    rw [ha.isLive_iff]
    rcases hmoved.mem hz with rfl | hz
    · rw [hmoved.clause]; exact hlive
    · exact h.live l z hz
  · have hr' : p.arena.IsLive r := ha.isLive_iff.1 hr
    show _ ↔ (a.view r).IsWatched l.negate
    by_cases hrx : r = x.clause
    · subst hrx
      have htarget : l = k.negate ↔ l.negate = k := Lit.negate_eq_comm.symm
      have hsource : l = falseLit.negate ↔ l.negate = falseLit := Lit.negate_eq_comm.symm
      rw [hnew, hmoved.names_self (h.nodup _), h.mem_iff _ hr', hold, htarget, ne_eq, hsource]
      constructor
      · rintro (he | ⟨hne, he | he⟩)
        · exact .inl he
        · exact absurd he hne
        · exact .inr he
      · rintro (he | he)
        · exact .inl he
        · exact .inr ⟨fun hf => hfalse (hf.symm.trans he), .inr he⟩
    · rw [hother r hrx, ← h.mem_iff r hr' l, hmoved.names_of_ne hrx]
  · rcases hmoved.mem hz with rfl | hz
    · rw [hmoved.clause]
      exact .inl ((ha.clause x.clause).mem_iff.2 hblocker)
    · exact (h.blocker l z hz).imp (ha.clause z.clause).mem_iff.2 id

/-- The effect of exchanging the literals at places `i` and `1`. -/
theorem view_swap_second {a : Arena} (hr : a.IsLive r) {i : Nat} (hi : 2 ≤ i)
    (hlt : i < (a.view r).lits.size) :
    ((a.edit r fun c => c.swap i 1).view r).head = (a.view r).head ∧
    ((a.edit r fun c => c.swap i 1).view r).second = (a.view r).litAt i ∧
    ∀ s, s ≠ r → (a.edit r fun c => c.swap i 1).view s = a.view s := by
  rw [Arena.view_edit_self _ hr.index_lt]
  refine ⟨?_, ?_, fun s hs => Arena.view_edit_of_ne _ hs⟩
  · simp only [Clause.head, Clause.litAt_swap hlt (show 1 < _ by omega)]
    rw [if_neg (by omega), if_neg (by omega)]
  · simp only [Clause.second, Clause.litAt_swap hlt (show 1 < _ by omega), if_true]

/-- Adding a watcher to another list, after literals were reordered, hands the clause over. -/
theorem Handover.push {a : Arena} {source target : Lit} (ha : p.arena.Alike a)
    (hclause : y.clause = x.clause) (hlive : p.arena.IsLive x.clause)
    (hcode : target.code < p.watches.slots.size) (hne : target ≠ source) :
    Handover (Function.update p.watchersOf source (kept ++ x :: rest))
      (Function.update (watchersOf { p with arena := a, watches := p.watches.push target y }) source
        (kept ++ rest)) x y source target := by
  have halike : watchersOf { p with arena := a, watches := p.watches.push target y } =
      watchersOf { p with watches := p.watches.push target y } :=
    watchersOf_of_alike (p := { p with watches := p.watches.push target y }) ha
  rw [halike]
  refine ⟨hclause, hne, ⟨kept, rest, Function.update_self .., Function.update_self ..⟩, ?_, ?_⟩
  · rw [Function.update_of_ne hne, Function.update_of_ne hne]
    exact watchersOf_push_self hcode (hclause ▸ hlive)
  · intro l hs ht
    rw [Function.update_of_ne hs, Function.update_of_ne hs]
    exact watchersOf_push_of_ne ht

/-- A pull finds no literal, or it exchanges the first one that is not false with the second literal of
    the clause. -/
theorem pullOpen_cases (p : Propagator) (r : ClauseRef) :
    (p.pullOpen r = (none, p) ∧
      Clause.findFrom (fun l => !p.trail.isFalse l) (p.arena.view r).lits 2 = none) ∨
    ∃ i, 2 ≤ i ∧ i < (p.arena.view r).lits.size ∧
      p.trail.isFalse ((p.arena.view r).litAt i) = false ∧
      p.pullOpen r = (some ((p.arena.view r).litAt i),
        { p with arena := p.arena.edit r fun c => c.swap i 1 }) := by
  unfold pullOpen Clause.pullLiteral
  cases hfound : Clause.findFrom (fun l => !p.trail.isFalse l) (p.arena.view r).lits 2 with
  | none => exact .inl ⟨rfl, rfl⟩
  | some i =>
    obtain ⟨hle, hlt, hopen⟩ := Clause.findFrom_eq_some hfound
    rw [← Clause.litAt_eq hlt] at hopen
    have hpulled : ((p.arena.view r).swap i 1).litAt 1 = (p.arena.view r).litAt i := by
      rw [Clause.litAt_swap hlt (by omega), if_pos rfl]
    refine .inr ⟨i, hle, hlt, by simpa using hopen, ?_⟩
    dsimp only
    rw [hpulled, Arena.edit_view r fun c => c.swap i 1]

theorem Sweeping.rewatch (h : Sweeping falseLit kept (x :: rest) p) {i : Nat}
    (hsecond : (p.arena.view x.clause).second = falseLit) (hi : 2 ≤ i)
    (hlt : i < (p.arena.view x.clause).lits.size)
    (hfree : p.trail.isFalse ((p.arena.view x.clause).litAt i) = false) :
    let pulled := { p with arena := p.arena.edit x.clause fun c => c.swap i 1 }
    let watched := pulled.watch ⟨x.clause, (p.arena.view x.clause).head⟩
      ((p.arena.view x.clause).litAt i)
    Sweeping falseLit kept rest watched ∧ Grows p watched := by
  have hc := h.ok.clause _ h.live
  have ha := alike_swap p.arena x.clause i 1
  obtain ⟨hhead', hsecond', hother⟩ := view_swap_second h.live hi hlt
  have hk : (p.arena.view x.clause).litAt i ∈ (p.arena.view x.clause).lits := Clause.litAt_mem hlt
  have hkhead : (p.arena.view x.clause).litAt i ≠ (p.arena.view x.clause).head := by
    intro he
    have := hc.litAt_inj hlt (by omega) he
    omega
  unfold Propagator.watch
  dsimp only
  generalize p.arena.edit x.clause (fun c => c.swap i 1) = a at *
  generalize (p.arena.view x.clause).litAt i = k at *
  have hkfalse : k ≠ falseLit := by
    intro he
    rw [he, h.isFalse] at hfree
    cases hfree
  have hcode : k.negate.code < p.watches.slots.size := by
    rw [h.ok.slots, Lit.code_lt_iff, Lit.var_negate]
    exact hc.var_lt _ hk
  have hkf : k.negate ≠ falseLit.negate := fun he => hkfalse (Lit.negate_inj.1 he)
  have hhead : ∀ s, p.trail.isTrue (p.arena.view s).head = true →
      (a.view s).head = (p.arena.view s).head := by
    intro s _
    by_cases hs : s = x.clause
    · rw [hs, hhead']
    · rw [hother s hs]
  have hnew : ∀ s w, (a.view s).IsWatched w →
      (p.arena.view s).IsWatched w ∨ p.trail.isFalse w = false := by
    intro s w hw
    by_cases hs : s = x.clause
    · subst hs
      rcases hw with rfl | rfl
      · rw [hhead']; exact .inl (.inl rfl)
      · rw [hsecond']; exact .inr hfree
    · rw [hother s hs] at hw
      exact .inl hw
  have hlive : p.arena.IsLive (⟨x.clause, (p.arena.view x.clause).head⟩ : Watcher).clause := h.live
  generalize hy : (⟨x.clause, (p.arena.view x.clause).head⟩ : Watcher) = y at *
  have hyclause : y.clause = x.clause := by rw [← hy]
  have hyblocker : y.blocker = (p.arena.view x.clause).head := by rw [← hy]
  refine ⟨⟨?_, ?_, h.processed, h.level, ?_⟩,
    ⟨.refl _, ha, hhead, fun i hi hi' => absurd hi' (Nat.not_lt.2 hi)⟩⟩
  · have hmoved : Handover (Function.update p.watchersOf falseLit.negate (kept ++ x :: rest)) _ x y
        falseLit.negate k.negate := .push ha hyclause h.live hcode hkf
    refine h.ok.rearrange ha hhead hnew (WatchTable.slots_push ..) (h.ok.watched.move hmoved
      (by rw [hyblocker]; exact hc.head_mem) ha hother ?_ ?_ hkfalse hkhead ?_)
    · intro l; rw [Clause.IsWatched, hsecond, or_comm]
    · intro l; rw [Clause.IsWatched, hhead', hsecond', or_comm]
    · rw [← hsecond]; exact hc.head_ne_second.symm
  · exact Fresh.of_alike (h.fresh.push hcode hlive) ha
  · intro r hr w hw hproc
    rcases h.settled.rearrange h.ok.trail (p.watches.push k.negate y) ha hnew r hr w hw hproc with
      ⟨rfl, z, hz, rfl⟩ | hg
    · rcases List.mem_cons.1 hz with rfl | hz
      · -- the clause is not watched through the false literal any longer
        exfalso
        rcases hw with he | he
        · exact hc.head_ne_second (by rw [hsecond, he]; exact hhead'.symm)
        · exact hkfalse (hsecond'.symm.trans he.symm)
      · exact .inl ⟨rfl, z, hz, rfl⟩
    · exact .inr hg

/-! ## Making a literal true -/

theorem Guarded.assign (hp : p.trail.Ok) (hl : l.var < p.trail.numVars)
    (hfree : p.trail.isFree l.var = true) (reason : Option ClauseRef)
    (hw : p.trail.isFalse w = true) (h : p.Guarded r w) : (p.assign l reason).Guarded r w := by
  have hext := Trail.Extends.assign hp hfree reason
  obtain ⟨b, hb, htrue, hlevel⟩ := h
  refine ⟨b, hb, hext.isTrue hp (hp.assign hl hfree reason) htrue, ?_⟩
  show (p.trail.assign l reason).levelOf b ≤ (p.trail.assign l reason).levelOf w
  rwa [hext.levelOf b ((hp.isTrue_iff b).1 htrue), hext.levelOf_of_isFalse hp hw]

/-- The clause has the literal in first place, and its other literals are false. -/
structure IsUnit (p : Propagator) (r : ClauseRef) (l : Lit) : Prop where
  live : p.arena.IsLive r
  head : (p.arena.view r).head = l
  others : ∀ m ∈ (p.arena.view r).lits, m ≠ l → p.trail.isFalse m = true

theorem IsUnit.forces (h : p.IsUnit r l) (hp : p.trail.Ok) (reason : Option ClauseRef) :
    (p.assign l reason).Forces r p.trail.size where
  live := h.live
  head := h.head.trans (Trail.litAt_assign_size p.trail l reason).symm
  others m hm hne := by
    have hlast : (p.assign l reason).trail.litAt p.trail.size = l :=
      Trail.litAt_assign_size p.trail l reason
    rw [hlast] at hne
    obtain ⟨j, hj, he⟩ := Trail.exists_litAt ((hp.isFalse_iff m).1 (h.others m hm hne))
    exact ⟨j, hj, (Trail.litAt_assign_of_lt reason hj).trans he⟩

theorem Settled.assign {pending : ClauseRef → Lit → Prop} (h : Settled pending p)
    (hp : p.trail.Ok) (hl : l.var < p.trail.numVars) (hfree : p.trail.isFree l.var = true)
    (reason : Option ClauseRef) : Settled pending (p.assign l reason) := by
  intro r hr w hw ⟨i, hi, he⟩
  have hi' : i < p.trail.size := Nat.lt_of_lt_of_le hi hp.queueHead_le
  have hproc : p.Processed w.negate := ⟨i, hi, (Trail.litAt_assign_of_lt reason hi').symm.trans he⟩
  exact (h r hr w hw hproc).imp id fun hg => hg.assign hp hl hfree reason (hproc.isFalse hp)

/-- The places below keep their justification. -/
theorem Justified.assign {i : Nat} (h : p.Justified i) (hp : p.trail.Ok) (hi : i < p.trail.size)
    (hfree : p.trail.isFree l.var = true) (reason : Option ClauseRef) :
    (p.assign l reason).Justified i := by
  have hext := Trail.Extends.assign hp hfree reason
  have hat : (p.assign l reason).trail.litAt i = p.trail.litAt i := hext.litAt i hi
  have hmem := Trail.litAt_mem hi
  have hlevel : (p.assign l reason).trail.levelOf (p.trail.litAt i) =
    p.trail.levelOf (p.trail.litAt i) := hext.levelOf _ hmem
  have hreason : (p.assign l reason).trail.reasonOf (p.trail.litAt i) =
    p.trail.reasonOf (p.trail.litAt i) := hext.reasonOf _ hmem
  unfold Justified
  rw [hat, hlevel, hreason]
  refine h.imp id fun ⟨r, hr, hf⟩ => ⟨r, hr, hf.live, hf.head.trans hat.symm, ?_⟩
  rw [hat]
  intro m hm hne
  obtain ⟨j, hj, he⟩ := hf.others m hm hne
  exact ⟨j, hj, (hext.litAt j (Nat.lt_trans hj hi)).trans he⟩

/-- A literal may be made true at ground level, as the first one of a level, or by a unit clause. -/
theorem Ok.assign (h : Ok lists p) {reason : Option ClauseRef} (hl : l.var < p.trail.numVars)
    (hfree : p.trail.isFree l.var = true)
    (hreason : 0 < p.trail.level →
      (reason = none ∧ p.trail.bottom p.trail.level = p.trail.size) ∨
      ∃ r, reason = some r ∧ p.IsUnit r l) : Ok lists (p.assign l reason) := by
  have hext := Trail.Extends.assign h.trail hfree reason
  have hok := h.trail.assign hl hfree reason
  have hlast : (p.assign l reason).trail.litAt p.trail.size = l :=
    Trail.litAt_assign_size p.trail l reason
  have hlevel : (p.assign l reason).trail.levelOf l = p.trail.level :=
    h.trail.levelOf_assign hl reason
  have hlt : ∀ {i}, i < (p.assign l reason).trail.size → i < p.trail.size ∨ i = p.trail.size := by
    intro i hi
    have : i < p.trail.size + 1 := by rwa [← Trail.size_assign p.trail l reason]
    omega
  refine ⟨hok, ?_, ?_, ?_, ?_, ?_, ?_⟩
  · intro r hr
    show (p.arena.view r).Ok (p.trail.assign l reason).numVars
    rw [Trail.numVars_assign]
    exact h.clause r hr
  · show p.watches.slots.size = 2 * (p.trail.assign l reason).numVars
    rw [Trail.numVars_assign]
    exact h.slots
  · refine ⟨h.watched.live, h.watched.mem_iff, h.watched.nodup, fun m x hx => ?_⟩
    refine (h.watched.blocker m x hx).imp id fun ⟨hf, h0⟩ => ⟨hext.isFalse h.trail hok hf, ?_⟩
    exact (hext.levelOf_of_isFalse h.trail hf).trans h0
  · intro i hi hpos
    rcases hlt hi with hi | rfl
    · have hat : (p.assign l reason).trail.litAt i = p.trail.litAt i := hext.litAt i hi
      have hsame : (p.assign l reason).trail.levelOf (p.trail.litAt i) =
        p.trail.levelOf (p.trail.litAt i) := hext.levelOf _ (Trail.litAt_mem hi)
      rw [hat, hsame] at hpos
      exact (h.reason i hi hpos).assign h.trail hi hfree reason
    · have hrea : (p.assign l reason).trail.reasonOf l = reason := h.trail.reasonOf_assign hl reason
      rw [hlast, hlevel] at hpos
      unfold Justified
      rw [hlast, hlevel, hrea]
      exact (hreason hpos).imp id fun ⟨r, hr, hu⟩ => ⟨r, hr, hu.forces h.trail reason⟩
  · intro i hq hi
    rcases hlt hi with hi | rfl
    · have hat : (p.assign l reason).trail.litAt i = p.trail.litAt i := hext.litAt i hi
      rw [hat]
      exact (hext.levelOf _ (Trail.litAt_mem hi)).trans (h.current i hq hi)
    · rw [hlast]
      exact hlevel
  · intro r hr w hw hfalse hlev
    have hlev' : (p.trail.assign l reason).levelOf w < p.trail.level := hlev
    by_cases hv : w.var = l.var
    · have : (p.trail.assign l reason).levelOf w = (p.trail.assign l reason).levelOf l := by
        simp only [Trail.levelOf, hv]
      rw [this, h.trail.levelOf_assign hl] at hlev'
      omega
    · have hfalse' : p.trail.isFalse w = true := by
        rw [Trail.isFalse, ← Trail.value_assign_of_ne reason hv]
        exact hfalse
      rw [hext.levelOf_of_isFalse h.trail hfalse'] at hlev'
      exact (h.below r hr w hw hfalse' hlev').assign h.trail hl hfree reason hfalse'

theorem Grows.assign (hp : p.trail.Ok) (hl : l.var < p.trail.numVars)
    (hfree : p.trail.isFree l.var = true) (h : p.IsUnit r l) : Grows p (p.assign l (some r)) where
  trail := .assign hp hfree (some r)
  arena := .refl _
  head _ _ := rfl
  forced i hi hi' := by
    have hsize : i < p.trail.size + 1 := by rwa [← Trail.size_assign p.trail l (some r)]
    obtain rfl : i = p.trail.size := by omega
    refine ⟨r, ?_, h.forces hp (some r)⟩
    show (p.trail.assign l (some r)).reasonOf ((p.trail.assign l (some r)).litAt p.trail.size) = _
    rw [Trail.litAt_assign_size, hp.reasonOf_assign hl]

theorem Sweeping.assign (h : Sweeping falseLit kept (x :: rest) p)
    (hu : p.IsUnit x.clause l) (hfree : p.trail.isFree l.var = true) :
    Sweeping falseLit (kept ++ [⟨x.clause, l⟩]) rest (p.assign l (some x.clause)) ∧
    Grows p (p.assign l (some x.clause)) := by
  have hmem : l ∈ (p.arena.view x.clause).lits := by
    rw [← hu.head]; exact (h.ok.clause _ h.live).head_mem
  have hl := (h.ok.clause _ h.live).var_lt l hmem
  have hgrows := Grows.assign h.ok.trail hl hfree hu
  refine ⟨?_, hgrows⟩
  have hext := hgrows.trail
  have hswept : Sweeping falseLit kept (x :: rest) (p.assign l (some x.clause)) := by
    refine ⟨h.ok.assign hl hfree fun _ => .inr ⟨_, rfl, hu⟩, h.fresh, ?_, ?_,
      h.settled.assign h.ok.trail hl hfree _⟩
    · obtain ⟨i, hi, he⟩ := h.processed
      exact ⟨i, hi, (hext.litAt i (Nat.lt_of_lt_of_le hi h.ok.trail.queueHead_le)).trans he⟩
    · exact (hext.levelOf_of_isFalse h.ok.trail h.isFalse).trans h.level
  refine hswept.keep (y := ⟨x.clause, l⟩) rfl (.inl hmem) (hswept.guarded hmem ?_)
  exact (h.ok.trail.isTrue_assign hl hfree _).2 (.inl rfl)

/-! ## One watch list -/

/-- What the loop over the watchers of the complement of `falseLit` comes to. -/
structure Swept (falseLit : Lit) (p : Propagator) (kept : Array Watcher)
    (conflict : Option ClauseRef) (q : Propagator) : Prop where
  ok : Ok (Function.update q.watchersOf falseLit.negate kept.toList) q
  fresh : q.Fresh
  grows : Grows p q
  stable : conflict = none →
    Settled (fun _ _ => False) q ∧ q.trail.queueHead = p.trail.queueHead
  found : ∀ r, conflict = some r → q.IsConflict r ∧ q.trail.queueHead = q.trail.size

theorem Swept.after {q' : Propagator} {ws : Array Watcher} {conflict : Option ClauseRef}
    (hp : p.trail.Ok) (hq : q.trail.Ok) (hg : Grows p q)
    (hhead : q.trail.queueHead = p.trail.queueHead) (h : Swept falseLit q ws conflict q') :
    Swept falseLit p ws conflict q' :=
  ⟨h.ok, h.fresh, hg.trans hp hq h.grows, fun hc => ⟨(h.stable hc).1, (h.stable hc).2.trans hhead⟩,
    h.found⟩

/-- A clause without a literal to watch instead whose first literal is false is a conflict. -/
theorem Sweeping.conflict (h : Sweeping falseLit kept (x :: rest) p)
    (hall : ∀ l ∈ (p.arena.view x.clause).lits, p.trail.isFalse l = true) (ws : Array Watcher)
    (hws : ws.toList = kept ++ [⟨x.clause, (p.arena.view x.clause).head⟩] ++ rest) :
    Swept falseLit p ws (some x.clause) { p with trail := p.trail.dequeueAll } := by
  have hc := h.ok.clause _ h.live
  have hok := h.ok
  have htrail : p.trail.dequeueAll.Ok := hok.trail.withQueueHead (Nat.le_refl _)
  refine ⟨?_, h.fresh, ?_, (nomatch ·), ?_⟩
  · rw [hws, List.append_assoc]
    obtain ⟨hlive, hmem, hnodup, hblocker⟩ := hok.watched.replace
      (y := ⟨x.clause, (p.arena.view x.clause).head⟩) rfl (.inl hc.head_mem)
    refine ⟨htrail, hok.clause, hok.slots, ⟨hlive, hmem, hnodup, hblocker⟩, fun i hi hpos => ?_,
      fun i hq hi => absurd hi (Nat.not_lt.2 hq), hok.below⟩
    exact (hok.reason i hi hpos).imp id fun ⟨r, hr, hf⟩ => ⟨r, hr, ⟨hf.live, hf.head, hf.others⟩⟩
  · exact ⟨⟨rfl, rfl, Nat.le_refl _, fun _ _ => rfl, fun _ _ => rfl, fun _ _ => rfl⟩, .refl _,
      fun _ _ => rfl, fun i hi hi' => absurd hi' (Nat.not_lt.2 hi)⟩
  · rintro r hr
    cases hr
    exact ⟨⟨h.live, hall, falseLit, hc.mem_of_isWatched h.isWatched, h.level⟩, rfl⟩

/-- A true blocker is in the clause of its watcher. -/
theorem Sweeping.blocker_mem (h : Sweeping falseLit kept (x :: rest) p)
    (htrue : p.trail.isTrue x.blocker = true) : x.blocker ∈ (p.arena.view x.clause).lits := by
  refine (h.ok.watched.blocker falseLit.negate x (by simp)).resolve_right fun hf => ?_
  rw [Trail.isTrue_not_isFalse htrue] at hf
  cases hf.1

/-- If there is no literal to watch instead, all but the first literal are false. -/
theorem Sweeping.others_isFalse (h : Sweeping falseLit kept (x :: rest) p)
    (hsecond : (p.arena.view x.clause).second = falseLit)
    (hnone : Clause.findFrom (fun l => !p.trail.isFalse l) (p.arena.view x.clause).lits 2 = none) :
    ∀ l ∈ (p.arena.view x.clause).lits, l ≠ (p.arena.view x.clause).head →
      p.trail.isFalse l = true := by
  intro l hl hne
  obtain ⟨j, hj, rfl⟩ := Clause.exists_litAt hl
  rcases Nat.lt_or_ge j 2 with hj2 | hj2
  · obtain rfl | rfl : j = 0 ∨ j = 1 := by omega
    · exact absurd rfl hne
    · have hfalse := h.isFalse
      rwa [← hsecond] at hfalse
  · have hfalse := Clause.findFrom_eq_none hnone hj2 hj
    rw [← Clause.litAt_eq hj] at hfalse
    simpa using hfalse

theorem sweep_spec (falseLit : Lit) : ∀ (rest : List Watcher) (kept : Array Watcher)
    (p : Propagator), Sweeping falseLit kept.toList rest p →
      Swept falseLit p (sweep falseLit rest kept p).1 (sweep falseLit rest kept p).2.1
        (sweep falseLit rest kept p).2.2
  | [], kept, p, h => by
    refine ⟨?_, h.fresh, .refl p, fun _ => ⟨fun r hr w hw hproc => ?_, rfl⟩, fun r hr => by cases hr⟩
    · have := h.ok
      rwa [List.append_nil] at this
    · exact (h.settled r hr w hw hproc).imp (fun ⟨_, x, hx, _⟩ => by simp at hx) id
  | x :: rest, kept, p, h => by
    unfold sweep
    split
    · rename_i hblocker
      have hmem := h.blocker_mem hblocker
      apply sweep_spec falseLit rest _ p
      rw [Array.toList_push]
      exact h.keep rfl (.inl hmem) (h.guarded hmem hblocker)
    · rename_i hblocker
      obtain ⟨hs, hg, htrail, hsecond⟩ := h.faceAway
      have hhead : (p.faceAway x.clause falseLit).trail.queueHead = p.trail.queueHead := by
        rw [htrail]
      rw [← htrail] at hblocker
      have hok := h.ok.trail
      apply Swept.after hok hs.ok.trail hg hhead
      generalize p.faceAway x.clause falseLit = p at *
      have hc := hs.ok.clause _ hs.live
      dsimp only
      split
      · rename_i htrue
        simp only [Bool.and_eq_true] at htrue
        apply sweep_spec falseLit rest _ p
        rw [Array.toList_push]
        exact hs.keep rfl (.inl hc.head_mem) (hs.guarded hc.head_mem htrue.2)
      · rename_i hnot
        have hheadTrue : ¬ p.trail.isTrue (p.arena.view x.clause).head = true := by
          intro ht
          apply hnot
          simp only [ht, Bool.and_true, decide_eq_true_eq, ne_eq]
          rintro he
          exact hblocker (he ▸ ht)
        rcases p.pullOpen_cases x.clause with ⟨hpull, hnone⟩ | ⟨i, hle, hlt, hopen, hpull⟩
        · rw [hpull]
          have hothers := hs.others_isFalse hsecond hnone
          dsimp only
          split
          · rename_i hfalse
            refine hs.conflict (fun l hl => ?_) _ (by simp)
            by_cases hne : l = (p.arena.view x.clause).head
            · rw [hne]; exact hfalse
            · exact hothers l hl hne
          · rename_i hfalse
            obtain ⟨ha, hg'⟩ := hs.assign ⟨hs.live, rfl, hothers⟩
              ((hs.ok.trail.isFree_iff _).2 ⟨by simpa using hheadTrue, by simpa using hfalse⟩)
            refine Swept.after hs.ok.trail ha.ok.trail hg' rfl (sweep_spec falseLit rest _ _ ?_)
            rw [Array.toList_push]
            exact ha
        · rw [hpull]
          obtain ⟨hr, hg'⟩ := hs.rewatch hsecond hle hlt hopen
          exact Swept.after hs.ok.trail hr.ok.trail hg' rfl (sweep_spec falseLit rest kept _ hr)

/-! ## The whole queue -/

/-- The invariant of a propagator with its own watch lists. -/
structure InOrder (p : Propagator) : Prop where
  ok : Ok p.watchersOf p
  fresh : p.Fresh

/-- Every watched literal that was found false is guarded. -/
def IsSettled (p : Propagator) : Prop := Settled (fun _ _ => False) p

theorem Ok.withWatches (h : Ok lists p) {watches : WatchTable}
    (hslots : watches.slots.size = p.watches.slots.size) :
    Ok lists { p with watches := watches } where
  trail := h.trail
  clause := h.clause
  slots := hslots.trans h.slots
  watched := ⟨h.watched.live, h.watched.mem_iff, h.watched.nodup, h.watched.blocker⟩
  reason i hi hpos := (h.reason i hi hpos).imp id fun ⟨r, hr, hf⟩ => ⟨r, hr, hf.live, hf.head, hf.others⟩
  current := h.current
  below := h.below

theorem Ok.withQueueHead (h : Ok lists p) {n : Nat} (hn : p.trail.queueHead ≤ n)
    (hsize : n ≤ p.trail.size) : Ok lists { p with trail := { p.trail with queueHead := n } } where
  trail := h.trail.withQueueHead hsize
  clause := h.clause
  slots := h.slots
  watched := ⟨h.watched.live, h.watched.mem_iff, h.watched.nodup, h.watched.blocker⟩
  reason i hi hpos := (h.reason i hi hpos).imp id fun ⟨r, hr, hf⟩ => ⟨r, hr, hf.live, hf.head, hf.others⟩
  current i hq hi := h.current i (Nat.le_trans hn hq) hi
  below := h.below

/-- The loop over the list of the next literal of the queue starts in order. -/
theorem InOrder.sweeping (h : p.InOrder) (hs : p.IsSettled) {u : Trail}
    (hd : p.trail.dequeue = some (l, u)) (n : Nat) :
    Sweeping l.negate [] (p.watchersOf l)
      ⟨u, p.arena, DenseTable.set p.watches l.code WatchList.empty, n⟩ := by
  obtain ⟨hlt, hl, rfl⟩ := Trail.dequeue_eq_some hd
  have hok := (h.ok.withQueueHead (Nat.le_succ _) hlt).withWatches
    (WatchTable.slots_set p.watches l WatchList.empty)
  have hcode : l.code < p.watches.slots.size := by
    rw [h.ok.slots, Lit.code_lt_iff, hl]
    exact h.ok.trail.var_lt _ (Trail.litAt_mem hlt)
  have hlists : Function.update (watchersOf ⟨{ p.trail with queueHead := p.trail.queueHead + 1 },
      p.arena, DenseTable.set p.watches l.code WatchList.empty, n⟩) l.negate.negate
      ([] ++ p.watchersOf l) = p.watchersOf := by
    funext m
    rw [Lit.negate_negate]
    by_cases hm : m = l
    · subst hm; simp
    · rw [Function.update_of_ne hm]
      exact watchersOf_set_of_ne (p := p) _ hm
  refine ⟨?_, ?_, ?_, ?_, ?_⟩
  · rw [hlists]
    exact ⟨hok.trail, hok.clause, hok.slots,
      ⟨hok.watched.live, hok.watched.mem_iff, hok.watched.nodup, hok.watched.blocker⟩,
      fun i hi hpos => (hok.reason i hi hpos).imp id
        fun ⟨r, hr, hf⟩ => ⟨r, hr, hf.live, hf.head, hf.others⟩, hok.current, hok.below⟩
  · exact h.fresh.set false hcode (by simp)
  · refine ⟨p.trail.queueHead, Nat.lt_succ_self _, ?_⟩
    rw [Lit.negate_negate, hl]; rfl
  · rw [Trail.levelOf_negate, hl]
    exact h.ok.current _ (Nat.le_refl _) hlt
  · intro r hr w hw ⟨i, hi, he⟩
    rcases Nat.lt_succ_iff_lt_or_eq.1 hi with hi | rfl
    · exact .inr ((hs r hr w hw ⟨i, hi, he⟩).resolve_left id)
    · have hwl : w = l.negate := by
        rw [hl, ← Lit.negate_eq_comm]; exact he.symm
      subst hwl
      exact .inl ⟨rfl, (h.ok.watched.mem_iff r hr l).2 hw⟩

theorem visit_spec (h : p.InOrder) (hs : p.IsSettled) {u : Trail}
    (hd : p.trail.dequeue = some (l, u)) :
    (visit { p with trail := u } l).2.InOrder ∧ Grows p (visit { p with trail := u } l).2 ∧
    ((visit { p with trail := u } l).1 = none →
      (visit { p with trail := u } l).2.IsSettled ∧
      (visit { p with trail := u } l).2.trail.queueHead = p.trail.queueHead + 1) ∧
    ∀ r, (visit { p with trail := u } l).1 = some r →
      (visit { p with trail := u } l).2.IsConflict r ∧
      (visit { p with trail := u } l).2.trail.queueHead =
        (visit { p with trail := u } l).2.trail.size := by
  have hsweep := h.sweeping hs hd (p.propagations + 1)
  have hlist : ({ p with trail := u } : Propagator).liveWatchers
      (p.watches.slots.getD l.code default) = (p.watchersOf l).toArray := by
    rw [← h.fresh.liveWatchers l]; rfl
  have hspec := sweep_spec l.negate (p.watchersOf l) #[] _ hsweep
  unfold visit
  simp only [hlist]
  generalize sweep l.negate (p.watchersOf l) #[] _ = out at hspec ⊢
  obtain ⟨kept, conflict, q⟩ := out
  obtain ⟨hlt, hl, rfl⟩ := Trail.dequeue_eq_some hd
  obtain ⟨hok, hfresh, hgrows, hstable, hfound⟩ := hspec
  rw [Lit.negate_negate] at hok
  have hlive : ∀ x ∈ kept.toList, q.arena.IsLive x.clause := fun x hx =>
    hok.watched.live l x (by rwa [Function.update_self])
  have hnum : q.trail.numVars = p.trail.numVars := hgrows.trail.numVars
  have hcode : l.code < q.watches.slots.size := by
    rw [hok.slots, Lit.code_lt_iff, hl, hnum]
    exact h.ok.trail.var_lt _ (Trail.litAt_mem hlt)
  have hlists : watchersOf { q with watches := DenseTable.set q.watches l.code ⟨kept, false⟩ } =
      Function.update q.watchersOf l kept.toList := by
    funext m
    by_cases hm : m = l
    · subst hm
      rw [watchersOf_set_self hcode hlive, Function.update_self]
    · rw [watchersOf_set_of_ne _ hm, Function.update_of_ne hm]
  have hgrows' : Grows p q :=
    ⟨⟨hnum, hgrows.trail.limits, hgrows.trail.size_le, hgrows.trail.litAt, hgrows.trail.levelOf,
      hgrows.trail.reasonOf⟩, hgrows.arena, hgrows.head, hgrows.forced⟩
  refine ⟨⟨?_, hfresh.set false hcode hlive⟩,
    ⟨hgrows'.trail, hgrows'.arena, hgrows'.head, fun i hi hi' => ?_⟩, fun hc => ?_, fun r hr => ?_⟩
  · rw [hlists]
    exact hok.withWatches (WatchTable.slots_set ..)
  · obtain ⟨r, hr, hf⟩ := hgrows'.forced i hi hi'
    exact ⟨r, hr, hf.live, hf.head, hf.others⟩
  · exact ⟨fun r hr w hw hproc => (hstable hc).1 r hr w hw hproc, (hstable hc).2⟩
  · obtain ⟨⟨hl, hf, hcur⟩, hq⟩ := hfound r hr
    exact ⟨⟨hl, hf, hcur⟩, hq⟩

/-- Rounds that start without a conflict. -/
theorem propagateUpTo_spec : ∀ (n : Nat) (p : Propagator), p.InOrder → p.IsSettled →
    p.trail.numVars + 1 ≤ n + p.trail.queueHead →
    ∀ {c : Option ClauseRef} {q : Propagator}, propagateUpTo n none p = (c, q) →
      q.InOrder ∧ Grows p q ∧ q.trail.queueHead = q.trail.size ∧ (c = none → q.IsSettled) ∧
      ∀ r, c = some r → q.IsConflict r
  | 0, p, h, _, hn, c, q, _ => by
    have := h.ok.trail.queueHead_le
    have := h.ok.trail.size_le
    omega
  | n + 1, p, h, hs, hn, c, q, hq => by
    unfold propagateUpTo at hq
    split at hq
    · rename_i hd
      cases hq
      refine ⟨h, .refl p, ?_, fun _ => hs, fun _ hr => nomatch hr⟩
      exact Nat.le_antisymm h.ok.trail.queueHead_le (Trail.dequeue_eq_none hd)
    · rename_i l u hd
      obtain ⟨hin, hgrows, hstable, hfound⟩ := visit_spec h hs hd
      generalize visit { p with trail := u } l = out at *
      obtain ⟨found, p'⟩ := out
      dsimp only at *
      cases found with
      | none =>
        obtain ⟨hs', hhead⟩ := hstable rfl
        have hnum := hgrows.trail.numVars
        obtain ⟨h1, h2, h3, h4, h5⟩ := propagateUpTo_spec n p' hin hs' (by omega) hq
        exact ⟨h1, hgrows.trans h.ok.trail hin.ok.trail h2, h3, h4, h5⟩
      | some r =>
        -- the queue is empty now, so the next round is the last one
        obtain ⟨hconflict, hhead⟩ := hfound r rfl
        have hend : propagateUpTo n (some r) p' = (some r, p') := by
          cases n with
          | zero => rfl
          | succ n =>
            unfold propagateUpTo
            rw [Trail.dequeue, if_neg (by rw [hhead]; exact Nat.lt_irrefl _)]
        simp only [Option.or_none, hend] at hq
        cases hq
        refine ⟨hin, hgrows, hhead, (nomatch ·), ?_⟩
        rintro _ ⟨⟩
        exact hconflict

/-- **Propagation empties the queue and keeps the invariant.**  Without a conflict every watched
    literal that is false is guarded; a conflict is a clause whose literals are all false. -/
theorem propagate_spec (h : p.InOrder) (hs : p.IsSettled) {c : Option ClauseRef}
    (hq : p.propagate = (c, q)) :
    q.InOrder ∧ Grows p q ∧ q.trail.queueHead = q.trail.size ∧ (c = none → q.IsSettled) ∧
      ∀ r, c = some r → q.IsConflict r :=
  propagateUpTo_spec _ p h hs (Nat.le_add_right _ _) hq

end Propagator

end ConfigSampler
