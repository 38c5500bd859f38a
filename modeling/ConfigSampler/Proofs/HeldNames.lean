import ConfigSampler.Proofs.ReachableStates
import ConfigSampler.Proofs.Relocation

/-!
# Names of clauses in reachable states

In every state that a search comes through, the lists name the live clauses and only variables with a
value have a reason (`Search.Reachable.orderly`).

`Search.compact_relocates_reachable` is the main statement: **compaction moves the live clauses of a
reachable state to a new arena, one to one and unchanged, and wherever a clause was named there is its
new name afterwards, and no name of a deleted clause**.
-/

set_option autoImplicit false

namespace ConfigSampler

namespace Search

variable {s s' : Search} {n : Nat} {stage : Stage} {q : Propagator} {lists : ClauseLists}

/-- The lists name the live clauses, and only variables with a value have a reason. -/
structure Orderly (s : Search) : Prop where
  lists : s.lists.ListsLive s.propagator.arena
  trail : s.propagator.trail.Tied

theorem Orderly.congr (h : s.Orderly) (hp : s'.propagator = s.propagator)
    (hl : s'.lists = s.lists) : s'.Orderly :=
  ⟨by rw [hp, hl]; exact h.lists, by rw [hp]; exact h.trail⟩

theorem orderly_empty (settings : SolverSettings) : (empty settings).Orderly := by
  have hnone : ∀ learnt, ClauseLists.Names Arena.empty learnt [] := fun learnt =>
    ⟨List.nodup_nil, fun r => iff_of_false List.not_mem_nil fun hr =>
      Nat.not_lt_zero r.index hr.1.index_lt⟩
  exact ⟨⟨hnone false, hnone true⟩, Trail.tied_empty⟩

theorem orderly_newVars : ∀ (n : Nat) {s : Search}, s.Orderly → (newVars n s).Orderly
  | 0, _, h => h
  | n + 1, _, h => orderly_newVars n ⟨h.lists, h.trail.newVar⟩

/-! ## The steps keep it -/

theorem Orderly.assign (h : s.Orderly) (l : Lit) (reason : Option ClauseRef) :
    Orderly { s with propagator := s.propagator.assign l reason } :=
  ⟨h.lists, h.trail.assign l reason⟩

theorem Orderly.propagate {F : Assignment → Prop} (h : s.Orderly) (hp : s.Poised n F)
    {conflict : Option ClauseRef} (he : s.propagator.propagate = (conflict, q)) :
    Orderly { s with propagator := q } := by
  obtain ⟨-, hg, -⟩ := Propagator.propagate_spec hp.ok.inOrder hp.settled he
  obtain rfl : s.propagator.propagate.2 = q := congrArg Prod.snd he
  exact ⟨h.lists.congr (fun _ => hg.arena.isLive_iff) fun r => (hg.arena.clause r).learnt,
    Propagator.tied_propagate h.trail⟩

theorem Orderly.addClause (h : s.Orderly) {lits : List Lit} {r : ClauseRef}
    (he : s.addClause lits = (.stored r, s')) : s'.Orderly := by
  unfold Search.addClause at he
  dsimp only at he
  split at he
  · cases he
  · split at he
    · cases he
    · split at he <;> cases he
    · cases he
      exact ⟨h.lists.addClause _, h.trail⟩

theorem Orderly.backtrack (h : s.Orderly) (ht : s.propagator.trail.Ok) (target : Nat) :
    (s.backtrack target).Orderly :=
  ⟨h.lists, h.trail.rewindTo ht target⟩

theorem Orderly.storeLearnt (h : s.Orderly) (lits : Array Lit) : (s.storeLearnt lits).Orderly :=
  ⟨h.lists.learnClause lits, h.trail.assign _ _⟩

theorem Orderly.follow (h : s.Orderly) (ht : s.propagator.trail.Ok) (lesson : Lesson) :
    (s.follow lesson).Orderly := by
  cases lesson with
  | contradiction => exact h
  | unit l => exact (h.backtrack ht 0).assign l none
  | clause level lits =>
    rw [follow_clause]
    exact (h.backtrack ht level).storeLearnt lits

theorem Orderly.settle (h : s.Orderly) (limit : LearntLimit) : (s.settle limit).2.Orderly := by
  unfold Search.settle
  dsimp only
  split <;> exact ⟨h.lists, h.trail⟩

theorem Orderly.learn (h : s.Orderly) (ht : s.propagator.trail.Ok) {conflict : ClauseRef}
    {limit limit' : LearntLimit} (he : s.learn limit conflict = (true, limit', s')) :
    s'.Orderly := by
  unfold Search.learn at he
  dsimp only at he
  generalize analyze _ _ _ _ _ = a at he
  have habsorbed : ({ s with marks := #[], conflicts := s.conflicts + 1 }.absorb a).Orderly :=
    ⟨h.lists.bumpAll a.usedClauses, h.trail⟩
  split at he
  · cases he
  · cases he
    exact (habsorbed.follow ht _).settle limit

/-- Compaction keeps it, and so does doing without. -/
theorem Orderly.collectGarbage (h : s.Orderly) (hp : s.propagator.InOrder) :
    s.collectGarbage.Orderly := by
  unfold Search.collectGarbage
  split
  · obtain ⟨σ, hσ⟩ := compact_relocates hp h.trail h.lists
    exact ⟨hσ.listsLive h.lists, hσ.tied h.trail⟩
  · exact h

theorem Orderly.reduce (h : s.Orderly) : Orderly { s with
    lists := (s.lists.reduce s.propagator).1
    propagator := (s.lists.reduce s.propagator).2 } :=
  ⟨h.lists.reduce, by rw [ClauseLists.trail_reduce]; exact h.trail⟩

theorem Orderly.removeSatisfied (h : s.Orderly) : Orderly { s with
    lists := (s.lists.removeSatisfied s.propagator).1
    propagator := (s.lists.removeSatisfied s.propagator).2 } :=
  ⟨h.lists.removeSatisfied, by rw [ClauseLists.trail_removeSatisfied]; exact h.trail⟩

theorem Orderly.reduceLearnts {F : Assignment → Prop} (h : s.Orderly) (hok : s.Ok n F) :
    s.reduceLearnts.Orderly := by
  obtain ⟨ht, -⟩ := ClauseLists.reduce_spec hok.inOrder hok.listed
  exact h.reduce.collectGarbage ht.inOrder

theorem Orderly.simplify {F : Assignment → Prop} (h : s.Orderly) (hok : s.Ok n F) :
    s.simplify.Orderly := by
  unfold Search.simplify
  split
  · exact h
  · rename_i hskip
    have hground := level_of_simplifies hskip
    obtain ⟨ht, -⟩ := ClauseLists.removeSatisfied_spec hok.inOrder hground hok.listed
    exact (h.removeSatisfied.collectGarbage ht.inOrder).congr rfl rfl

/-- **In every reachable state the lists name the live clauses**, and only variables with a value
    have a reason. -/
theorem Reachable.orderly (h : Reachable n stage s) : s.Orderly := by
  induction h with
  | start settings => exact orderly_newVars n (orderly_empty settings)
  | store _ _ _ he ih => exact ih.addClause he
  | assert _ _ _ _ ih => exact ih.assign _ none
  | propagate h he ih => exact ih.propagate h.poised he
  | fail h he ih => exact ih.propagate h.poised he
  | learn h he ih => exact ih.learn h.ok.inOrder.ok.trail he
  | simplify h ih => exact ih.simplify h.ok
  | reduce h ih => exact ih.reduceLearnts h.ok
  | openLevel _ ih => exact ⟨ih.lists, ih.trail.newLevel⟩
  | decide _ _ _ _ ih => exact ⟨ih.lists, ih.trail.newLevel.assign _ none⟩
  | backtrack target h ih => exact ih.backtrack h.ok.inOrder.ok.trail target
  | pause _ ih => exact ih
  | requeue _ _ ih => exact ih.congr rfl rfl
  | note _ hp hl _ _ ih => exact ih.congr hp hl

/-! ## Compaction -/

/-- Compaction relocates the live clauses, and every name that is held afterwards belongs to one. -/
def Relocates (d : ClauseLists) (p : Propagator) : Prop :=
  (∃ σ, Relocation σ d p (compact d p).1 (compact d p).2) ∧
    NamesLive (compact d p).1 (compact d p).2

theorem Orderly.relocates (h : s.Orderly) (hp : s.propagator.InOrder) :
    Relocates s.lists s.propagator := by
  obtain ⟨σ, hσ⟩ := compact_relocates hp h.trail h.lists
  exact ⟨⟨σ, hσ⟩, hσ.namesLive⟩

/-- **Compaction relocates the live clauses of every reachable state**, on any level, and so it does
    where it takes place in a search: after learnt clauses were deleted, and after the clauses were
    simplified at ground level. -/
theorem compact_relocates_reachable (h : Reachable n stage s) :
    Relocates s.lists s.propagator ∧
    Relocates (s.lists.reduce s.propagator).1 (s.lists.reduce s.propagator).2 ∧
    (s.propagator.trail.level = 0 → ∀ settings : ClauseSettings,
      Relocates (({ s.lists with settings := settings } : ClauseLists).removeSatisfied s.propagator).1
        (({ s.lists with settings := settings } : ClauseLists).removeSatisfied s.propagator).2) := by
  have hok := h.ok
  have horderly := h.orderly
  obtain ⟨hreduced, -⟩ := ClauseLists.reduce_spec hok.inOrder hok.listed
  refine ⟨horderly.relocates hok.inOrder, horderly.reduce.relocates hreduced.inOrder,
    fun hground settings => ?_⟩
  obtain ⟨hsimplified, -⟩ := ClauseLists.removeSatisfied_spec
    (d := { s.lists with settings := settings }) hok.inOrder hground hok.listed
  have hset : Orderly { s with lists := { s.lists with settings := settings } } :=
    ⟨horderly.lists, horderly.trail⟩
  exact hset.removeSatisfied.relocates hsimplified.inOrder

/-- The satisfied clause is deleted, and the other one gets its name. -/
theorem compact_relocates_satisfied :
    let simplified := ({ satisfied.lists with
      settings := { removeSatisfied := true } } : ClauseLists).removeSatisfied satisfied.propagator
    Relocates taught.lists taught.propagator ∧
      satisfied.propagator.trail.level = 0 ∧ Relocates simplified.1 simplified.2 ∧
      simplified.2.arena.isDeleted ⟨0⟩ = true ∧ simplified.1.clauses = #[⟨1⟩] ∧
      (compact simplified.1 simplified.2).1.clauses = #[⟨0⟩] ∧
      ((compact simplified.1 simplified.2).2.arena.view ⟨0⟩).lits = #[⟨1⟩, ⟨3⟩] := by
  intro simplified
  have hground : satisfied.propagator.trail.level = 0 := by decide +kernel
  have hsatisfied := compact_relocates_reachable reachable_satisfied
  exact ⟨(compact_relocates_reachable reachable_taught).1, hground,
    hsatisfied.2.2 hground { removeSatisfied := true }, by decide +kernel, by decide +kernel,
    by decide +kernel, by decide +kernel⟩

end Search

end ConfigSampler
