import ConfigSampler.Proofs.Housekeeping

/-!
# The names in the clause lists

The two lists have the name of every live clause, the problem clauses in one and the learnt clauses
in the other, each once, and no name of a deleted clause (`ClauseLists.ListsLive`).  Storing, deleting
and shortening clauses keeps it.  In the loops that do it in bulk, what was kept so far and what is
still to come are the live clauses of one kind (`Divided`).
-/

set_option autoImplicit false

namespace ConfigSampler

namespace ClauseLists

open Arena

variable {a b : Arena} {p q : Propagator} {d d' : ClauseLists} {r : ClauseRef} {learnt : Bool}
  {refs refs' : List ClauseRef}

/-- The names of all live clauses of one kind, each once. -/
structure Names (a : Arena) (learnt : Bool) (refs : List ClauseRef) : Prop where
  nodup : refs.Nodup
  mem_iff : ∀ r, r ∈ refs ↔ a.IsLive r ∧ (a.view r).learnt = learnt

/-- The live clauses of one kind have the first names, those of the other kind the second ones. -/
structure Divided (a : Arena) (learnt : Bool) (refs others : List ClauseRef) : Prop where
  own : Names a learnt refs
  other : Names a (!learnt) others

variable {others : List ClauseRef}

theorem Names.congr (h : Names a learnt refs) (hlive : ∀ r, b.IsLive r ↔ a.IsLive r)
    (hlearnt : ∀ r, (b.view r).learnt = (a.view r).learnt) : Names b learnt refs :=
  ⟨h.nodup, fun r => by rw [h.mem_iff, hlive, hlearnt]⟩

theorem Names.perm (h : Names a learnt refs) (hperm : refs'.Perm refs) : Names a learnt refs' :=
  ⟨hperm.nodup_iff.2 h.nodup, fun r => by rw [hperm.mem_iff, h.mem_iff]⟩

namespace Divided

theorem congr (h : Divided a learnt refs others) (hlive : ∀ r, b.IsLive r ↔ a.IsLive r)
    (hlearnt : ∀ r, (b.view r).learnt = (a.view r).learnt) : Divided b learnt refs others :=
  ⟨h.own.congr hlive hlearnt, h.other.congr hlive hlearnt⟩

theorem symm (h : Divided a learnt refs others) : Divided a (!learnt) others refs :=
  ⟨h.other, by rw [Bool.not_not]; exact h.own⟩

/-- A new clause is named at the end of the list of its kind. -/
theorem push (h : Divided a learnt refs others) (lits : Array Lit) (activity : Float) :
    Divided (a.push lits learnt activity).2 learnt (refs ++ [(a.push lits learnt activity).1])
      others := by
  have hnew := not_isLive_push_fst a lits learnt activity
  have hlive := fun r => isLive_push (a := a) (s := r) lits learnt activity
  have hself := view_push_self a lits learnt activity
  have hold := fun r => view_push_of_ne (a := a) (s := r) lits learnt activity
  generalize a.push lits learnt activity = out at *
  obtain ⟨name, b⟩ := out
  dsimp only at *
  refine ⟨⟨?_, fun r => ?_⟩, ⟨h.other.nodup, fun r => ?_⟩⟩
  · rw [List.nodup_append_comm]
    exact List.nodup_cons.2 ⟨fun hmem => hnew ((h.own.mem_iff _).1 hmem).1, h.own.nodup⟩
  · rw [List.mem_append, List.mem_singleton, hlive, h.own.mem_iff]
    by_cases hr : r = name
    · rw [hr, hself]
      exact iff_of_true (.inr rfl) ⟨.inr rfl, rfl⟩
    · rw [hold r hr, or_iff_left hr, or_iff_left hr]
  · rw [hlive, h.other.mem_iff]
    by_cases hr : r = name
    · rw [hr, hself]
      exact iff_of_false (fun hlive => hnew hlive.1) fun hkind => by simp at hkind
    · rw [hold r hr, or_iff_left hr]

/-- A clause that is deleted is named no longer. -/
theorem free {rest : List ClauseRef} (h : Divided a learnt (refs ++ r :: rest) others) :
    Divided (a.free r) learnt (refs ++ rest) others := by
  have hperm : (refs ++ r :: rest).Perm (r :: (refs ++ rest)) := List.perm_middle
  obtain ⟨hnew, hnodup⟩ := List.nodup_cons.1 (hperm.nodup_iff.1 h.own.nodup)
  have hkind : (a.view r).learnt = learnt :=
    ((h.own.mem_iff r).1 (List.mem_append_right _ List.mem_cons_self)).2
  have hview : ∀ s, s ≠ r → (a.free r).view s = a.view s := fun s hs => view_edit_of_ne _ hs
  refine ⟨⟨hnodup, fun s => ?_⟩, ⟨h.other.nodup, fun s => ?_⟩⟩
  · rw [isLive_free]
    by_cases hs : s = r
    · rw [hs]
      exact iff_of_false hnew fun hlive => hlive.1.1 rfl
    · have hmem := h.own.mem_iff s
      rw [hperm.mem_iff, List.mem_cons, or_iff_right hs] at hmem
      rw [hmem, hview s hs, and_iff_right hs]
  · rw [isLive_free]
    by_cases hs : s = r
    · rw [hs, h.other.mem_iff, hkind]
      exact iff_of_false (fun hlive => by simp at hlive) fun hlive => hlive.1.1 rfl
    · rw [h.other.mem_iff, hview s hs, and_iff_right hs]

end Divided

/-- The lists name the live clauses. -/
def ListsLive (d : ClauseLists) (a : Arena) : Prop :=
  Divided a false d.clauses.toList d.learnts.toList

/-! ## Storing clauses -/

theorem clauses_count (d : ClauseLists) (learnt : Bool) (size : Nat) :
    (d.count learnt size).clauses = d.clauses := by unfold count; split <;> rfl

theorem clauses_discount (d : ClauseLists) (learnt : Bool) (size : Nat) :
    (d.discount learnt size).clauses = d.clauses := by unfold discount; split <;> rfl

theorem clauses_bump (d : ClauseLists) (a : Arena) (r : ClauseRef) :
    (d.bump a r).1.clauses = d.clauses := by
  unfold bump
  dsimp only
  split
  · rfl
  · split <;> rfl

theorem clauses_bumpAll : ∀ (used : List ClauseRef) (d : ClauseLists) (a : Arena),
    (d.bumpAll a used).1.clauses = d.clauses
  | [], _, _ => rfl
  | r :: rest, d, a => (clauses_bumpAll rest _ _).trans (clauses_bump d a r)

theorem ListsLive.reactivated (h : d.ListsLive a) (hre : a.Reactivated b)
    (hclauses : d'.clauses = d.clauses) (hlearnts : d'.learnts = d.learnts) : d'.ListsLive b := by
  rw [ListsLive, hclauses, hlearnts]
  exact h.congr (fun _ => hre.isLive_iff) hre.sameLearnt.learnt

theorem ListsLive.bumpAll (h : d.ListsLive a) (used : List ClauseRef) :
    (d.bumpAll a used).1.ListsLive (d.bumpAll a used).2 := by
  obtain ⟨hre, hlearnts⟩ := bumpAll_spec used d a
  exact h.reactivated hre (clauses_bumpAll used d a) hlearnts

theorem ListsLive.addClause (h : d.ListsLive a) (lits : Array Lit) :
    (d.addClause a lits).2.1.ListsLive (d.addClause a lits).2.2 := by
  have hpush := Divided.push h lits 0
  have hclauses : (d.addClause a lits).2.1.clauses = d.clauses.push (a.push lits false 0).1 :=
    congrArg (fun refs => refs.push (a.push lits false 0).1) (clauses_count d false lits.size)
  have hlearnts : (d.addClause a lits).2.1.learnts = d.learnts := learnts_count d false lits.size
  rw [ListsLive, hclauses, hlearnts, Array.toList_push]
  exact hpush

theorem ListsLive.learnClause (h : d.ListsLive a) (lits : Array Lit) :
    (d.learnClause a lits).2.1.ListsLive (d.learnClause a lits).2.2 := by
  have hpush := (Divided.push h.symm lits 0).symm
  have hstored : ListsLive { d.count true lits.size with
      learnts := (d.count true lits.size).learnts.push (a.push lits true 0).1 }
      (a.push lits true 0).2 := by
    rw [ListsLive, clauses_count, learnts_count, Array.toList_push]
    exact hpush
  obtain ⟨hre, hlearnts⟩ := bump_spec { d.count true lits.size with
    learnts := (d.count true lits.size).learnts.push (a.push lits true 0).1 }
    (a.push lits true 0).2 (a.push lits true 0).1
  exact hstored.reactivated hre (clauses_bump _ _ _) hlearnts

/-! ## Deleting clauses in bulk -/

theorem reduceLoop_divided (least : Float) : ∀ (order : List ClauseRef) (half : Nat)
    (kept : Array ClauseRef) (d : ClauseLists) (p : Propagator),
    Divided p.arena true (kept.toList ++ order) others →
    ∀ {kept' : Array ClauseRef} {d' : ClauseLists} {q : Propagator},
      reduceLoop least order half kept d p = (kept', d', q) →
      Divided q.arena true kept'.toList others ∧ d'.clauses = d.clauses
  | [], half, kept, d, p, h, kept', d', q, he => by
    cases he
    rw [List.append_nil] at h
    exact ⟨h, rfl⟩
  | r :: rest, half, kept, d, p, h, kept', d', q, he => by
    unfold reduceLoop at he
    split at he
    · obtain ⟨hloop, hclauses⟩ := reduceLoop_divided least rest (half - 1) kept _ _ h.free he
      exact ⟨hloop, hclauses.trans (clauses_discount d _ _)⟩
    · split at he
      · rename_i hdead
        have hlive := ((h.own.mem_iff r).1 (List.mem_append_right _ List.mem_cons_self)).1
        rw [isDeleted_eq_false.2 hlive] at hdead
        cases hdead
      · refine reduceLoop_divided least rest (half - 1) (kept.push r) d p ?_ he
        rwa [Array.toList_push, List.append_assoc]

theorem trail_reduceLoop (least : Float) : ∀ (order : List ClauseRef) (half : Nat)
    (kept : Array ClauseRef) (d : ClauseLists) (p : Propagator),
    (reduceLoop least order half kept d p).2.2.trail = p.trail
  | [], _, _, _, _ => rfl
  | r :: rest, half, kept, d, p => by
    unfold reduceLoop
    split
    · exact trail_reduceLoop least rest _ kept _ _
    · split
      · exact trail_reduceLoop least rest _ kept d p
      · exact trail_reduceLoop least rest _ _ d p

theorem trail_reduce (d : ClauseLists) (p : Propagator) : (d.reduce p).2.trail = p.trail :=
  trail_reduceLoop _ _ _ _ _ _

theorem ListsLive.reduce (h : d.ListsLive p.arena) :
    (d.reduce p).1.ListsLive (d.reduce p).2.arena := by
  unfold ClauseLists.reduce
  dsimp only
  generalize hout : reduceLoop _ _ _ _ _ _ = out
  obtain ⟨kept, d', q⟩ := out
  have hperm := List.mergeSort_perm d.learnts.toList (deletedBefore p.arena)
  obtain ⟨hloop, hclauses⟩ := reduceLoop_divided _ _ _ _ _ _
    (⟨h.other.perm hperm, h.own⟩ : Divided p.arena true _ d.clauses.toList) hout
  show Divided q.arena false d'.clauses.toList kept.toList
  rw [hclauses]
  exact hloop.symm

theorem simplifyLoop_divided : ∀ (order : List ClauseRef) (kept : Array ClauseRef)
    (d : ClauseLists) (p : Propagator), Divided p.arena learnt (kept.toList ++ order) others →
    ∀ {kept' : Array ClauseRef} {d' : ClauseLists} {q : Propagator},
      simplifyLoop order kept d p = (kept', d', q) →
      Divided q.arena learnt kept'.toList others ∧ d'.clauses = d.clauses ∧ d'.learnts = d.learnts
  | [], kept, d, p, h, kept', d', q, he => by
    cases he
    rw [List.append_nil] at h
    exact ⟨h, rfl, rfl⟩
  | r :: rest, kept, d, p, h, kept', d', q, he => by
    have hlive := ((h.own.mem_iff r).1 (List.mem_append_right _ List.mem_cons_self)).1
    unfold simplifyLoop at he
    rw [isDeleted_eq_false.2 hlive, if_neg Bool.false_ne_true] at he
    split at he
    · obtain ⟨hloop, hclauses, hlearnts⟩ := simplifyLoop_divided rest kept _ _ h.free he
      exact ⟨hloop, hclauses.trans (clauses_discount d _ _),
        hlearnts.trans (learnts_discount d _ _)⟩
    · have hshorter : Divided (d.shorten p r).2.arena learnt
          ((kept.push r).toList ++ rest) others := by
        rw [Array.toList_push, List.append_assoc]
        exact h.congr (fun _ => Propagator.isLive_shorten hlive d) (sameLearnt_shorten d p r).learnt
      obtain ⟨hloop, hclauses, hlearnts⟩ := simplifyLoop_divided rest (kept.push r) _ _ hshorter he
      exact ⟨hloop, hclauses.trans ((clauses_count _ _ _).trans (clauses_discount d _ _)),
        hlearnts.trans ((learnts_count _ _ _).trans (learnts_discount d _ _))⟩

theorem trail_simplifyLoop : ∀ (order : List ClauseRef) (kept : Array ClauseRef)
    (d : ClauseLists) (p : Propagator), (simplifyLoop order kept d p).2.2.trail = p.trail
  | [], _, _, _ => rfl
  | r :: rest, kept, d, p => by
    unfold simplifyLoop
    split
    · exact trail_simplifyLoop rest kept d p
    · split
      · exact trail_simplifyLoop rest kept _ _
      · exact trail_simplifyLoop rest _ _ _

theorem trail_removeSatisfied (d : ClauseLists) (p : Propagator) :
    (d.removeSatisfied p).2.trail = p.trail := by
  unfold ClauseLists.removeSatisfied
  dsimp only
  split
  · exact (trail_simplifyLoop _ _ _ _).trans (trail_simplifyLoop _ _ _ _)
  · exact trail_simplifyLoop _ _ _ _

theorem ListsLive.removeSatisfied (h : d.ListsLive p.arena) :
    (d.removeSatisfied p).1.ListsLive (d.removeSatisfied p).2.arena := by
  unfold ClauseLists.removeSatisfied
  generalize hout : simplifyLoop d.learnts.toList #[] d p = out
  obtain ⟨kept, d1, p1⟩ := out
  obtain ⟨hlearnt, hclauses, -⟩ := simplifyLoop_divided _ _ _ _
    (⟨h.other, h.own⟩ : Divided p.arena true _ d.clauses.toList) hout
  dsimp only
  split
  · generalize hout' : simplifyLoop d1.clauses.toList #[] { d1 with learnts := kept } p1 = out'
    obtain ⟨kept', d2, p2⟩ := out'
    rw [hclauses] at hout'
    obtain ⟨hproblem, -, hlearnts⟩ := simplifyLoop_divided _ _ _ _
      (hlearnt.symm : Divided p1.arena false _ kept.toList) hout'
    show Divided p2.arena false kept'.toList d2.learnts.toList
    rw [hlearnts]
    exact hproblem
  · show Divided p1.arena false d1.clauses.toList kept.toList
    rw [hclauses]
    exact hlearnt.symm

end ClauseLists

end ConfigSampler
