import ConfigSampler.Proofs.Tidying

/-!
# Deleting and simplifying clauses in bulk

Both loops over clause lists are sequences of changes that `Propagator.Tidied` describes: deleting
learnt clauses of little use (`ClauseLists.reduce_spec`), and deleting satisfied clauses and
shortening the others at ground level (`ClauseLists.removeSatisfied_spec`).
-/

set_option autoImplicit false

namespace ConfigSampler

namespace Arena

variable {a b c : Arena} {r : ClauseRef}

/-- The arenas store as many clauses, each learnt in both or in none. -/
structure SameLearnt (a b : Arena) : Prop where
  size : b.clauses.size = a.clauses.size
  learnt : ∀ r, (b.view r).learnt = (a.view r).learnt

theorem SameLearnt.refl (a : Arena) : SameLearnt a a := ⟨rfl, fun _ => rfl⟩

theorem SameLearnt.trans (h : SameLearnt a b) (h' : SameLearnt b c) : SameLearnt a c :=
  ⟨h'.size.trans h.size, fun r => (h'.learnt r).trans (h.learnt r)⟩

theorem sameLearnt_edit {f : Clause → Clause} (hf : ∀ c, (f c).learnt = c.learnt) :
    SameLearnt a (a.edit r f) := by
  refine ⟨size_edit a r f, fun s => ?_⟩
  by_cases hs : s = r
  · subst hs
    by_cases hlt : s.index < a.clauses.size
    · rw [view_edit_self f hlt, hf]
    · rw [view_edit_of_le f (by omega)]
  · rw [view_edit_of_ne f hs]

theorem Reactivated.sameLearnt (h : Reactivated a b) : SameLearnt a b := by
  refine ⟨h.size, fun r => ?_⟩
  obtain ⟨x, hx⟩ := h.view r
  rw [hx]

/-- The name belongs to a learnt clause, deleted or not. -/
def IsLearnt (a : Arena) (r : ClauseRef) : Prop :=
  r.index < a.clauses.size ∧ (a.view r).learnt = true

theorem IsLearnt.of_same (h : SameLearnt a b) (hr : a.IsLearnt r) : b.IsLearnt r :=
  ⟨by rw [h.size]; exact hr.1, (h.learnt r).trans hr.2⟩

end Arena

namespace ClauseLists

open Propagator

variable {p q : Propagator} {d : ClauseLists} {r : ClauseRef}

theorem learnts_count (d : ClauseLists) (learnt : Bool) (size : Nat) :
    (d.count learnt size).learnts = d.learnts := by unfold count; split <;> rfl

theorem learnts_discount (d : ClauseLists) (learnt : Bool) (size : Nat) :
    (d.discount learnt size).learnts = d.learnts := by unfold discount; split <;> rfl

theorem sameLearnt_delete (d : ClauseLists) (p : Propagator) (r : ClauseRef) :
    p.arena.SameLearnt (d.delete p r).2.arena := by
  have h := Arena.sameLearnt_edit (a := p.arena) (r := r) (f := fun c => { c with deleted := true })
    fun _ => rfl
  exact ⟨h.size, h.learnt⟩

theorem sameLearnt_shorten (d : ClauseLists) (p : Propagator) (r : ClauseRef) :
    p.arena.SameLearnt (d.shorten p r).2.arena := Arena.sameLearnt_edit fun _ => rfl

theorem tidied_delete (hp : p.InOrder) (hr : p.arena.IsLive r)
    (hreason : ∀ i < p.trail.size, 0 < p.trail.levelOf (p.trail.litAt i) →
      p.trail.reasonOf (p.trail.litAt i) = some r → ¬ p.Forces r i)
    (hproblem : (p.arena.view r).learnt = false →
      ∃ l ∈ (p.arena.view r).lits, p.trail.isTrue l = true ∧ p.trail.levelOf l = 0)
    (d : ClauseLists) : Tidied p (d.delete p r).2 := by
  refine (Transfer.delete hp hr hreason d).tidied hp fun s hs hl => ?_
  by_cases he : s = r
  · subst he
    exact .inr (hproblem hl)
  · exact .inl (Arena.isLive_free.2 ⟨he, hs⟩)

/-! ## Learnt clauses of little use -/

theorem not_forces_of_isDispensable {firstHalf : Bool} {least : Float} (hp : p.trail.Ok)
    (h : isDispensable p r firstHalf least = true) : p.arena.IsLive r ∧
      ∀ i < p.trail.size, p.trail.reasonOf (p.trail.litAt i) = some r → ¬ p.Forces r i := by
  simp only [isDispensable, Bool.and_eq_true, Bool.not_eq_true'] at h
  obtain ⟨⟨⟨hlive, -⟩, hreason⟩, -⟩ := h
  refine ⟨hlive, fun i hi hr hf => ?_⟩
  rw [Trail.isReasonFor, hf.head, hp.isTrue_litAt hi, hr] at hreason
  simp at hreason

theorem reduceLoop_spec (least : Float) : ∀ (order : List ClauseRef) (half : Nat)
    (kept : Array ClauseRef) (d : ClauseLists) (p : Propagator), p.InOrder →
    (∀ r ∈ order, p.arena.IsLearnt r) →
    ∀ {kept' : Array ClauseRef} {d' : ClauseLists} {q : Propagator},
      reduceLoop least order half kept d p = (kept', d', q) →
      Tidied p q ∧ p.arena.SameLearnt q.arena ∧ ∀ r ∈ kept', r ∈ kept ∨ r ∈ order
  | [], half, kept, d, p, hp, _, kept', d', q, he => by
    cases he
    exact ⟨.refl hp, .refl _, fun r hr => .inl hr⟩
  | r :: rest, half, kept, d, p, hp, hlearnt, kept', d', q, he => by
    unfold reduceLoop at he
    have hrest : ∀ s ∈ rest, p.arena.IsLearnt s := fun s hs => hlearnt s (List.mem_cons_of_mem _ hs)
    split at he
    · rename_i hd
      obtain ⟨hr, hnot⟩ := not_forces_of_isDispensable hp.ok.trail hd
      have htidied := tidied_delete hp hr (fun i hi _ => hnot i hi)
        (fun hl => by rw [(hlearnt r (by simp)).2] at hl; cases hl) d
      have hsame := sameLearnt_delete d p r
      obtain ⟨h1, h2, h3⟩ := reduceLoop_spec least rest (half - 1) kept _ _ htidied.inOrder
        (fun s hs => (hrest s hs).of_same hsame) he
      exact ⟨htidied.trans h1, hsame.trans h2, fun s hs => (h3 s hs).imp id (List.mem_cons_of_mem _)⟩
    · split at he
      · obtain ⟨h1, h2, h3⟩ := reduceLoop_spec least rest (half - 1) kept d p hp hrest he
        exact ⟨h1, h2, fun s hs => (h3 s hs).imp id (List.mem_cons_of_mem _)⟩
      · obtain ⟨h1, h2, h3⟩ := reduceLoop_spec least rest (half - 1) (kept.push r) d p hp hrest he
        refine ⟨h1, h2, fun s hs => ?_⟩
        rcases h3 s hs with hs | hs
        · exact (Array.mem_push.1 hs).imp id fun hsr => List.mem_cons.2 (.inl hsr)
        · exact .inr (List.mem_cons_of_mem _ hs)

/-- Every listed name belongs to a learnt clause. -/
def ListsLearnt (d : ClauseLists) (a : Arena) : Prop := ∀ r ∈ d.learnts, a.IsLearnt r

/-- Deleting learnt clauses of little use loses no model. -/
theorem reduce_spec (hp : p.InOrder) (hd : d.ListsLearnt p.arena) :
    Tidied p (d.reduce p).2 ∧ (d.reduce p).1.ListsLearnt (d.reduce p).2.arena := by
  unfold reduce
  simp only
  generalize hout : reduceLoop _ _ _ _ _ _ = out
  obtain ⟨kept, d', q⟩ := out
  have hperm := List.mergeSort_perm d.learnts.toList (deletedBefore p.arena)
  obtain ⟨h1, h2, h3⟩ := reduceLoop_spec _ _ _ _ _ _ hp
    (fun r hr => hd r (by simpa using hperm.mem_iff.1 hr)) hout
  refine ⟨h1, fun r hr => ?_⟩
  have hr' := (h3 r hr).resolve_left (by simp)
  exact (hd r (by simpa using hperm.mem_iff.1 hr')).of_same h2

/-! ## Satisfied clauses -/

theorem simplifyLoop_spec : ∀ (order : List ClauseRef) (kept : Array ClauseRef) (d : ClauseLists)
    (p : Propagator), p.InOrder → p.trail.level = 0 →
    ∀ {kept' : Array ClauseRef} {d' : ClauseLists} {q : Propagator},
      simplifyLoop order kept d p = (kept', d', q) →
      Tidied p q ∧ p.arena.SameLearnt q.arena ∧ d'.learnts = d.learnts ∧
        ∀ r ∈ kept', r ∈ kept ∨ r ∈ order
  | [], kept, d, p, hp, _, kept', d', q, he => by
    cases he
    exact ⟨.refl hp, .refl _, rfl, fun r hr => .inl hr⟩
  | r :: rest, kept, d, p, hp, hground, kept', d', q, he => by
    unfold simplifyLoop at he
    have hlevel : ∀ l ∈ p.trail.lits, p.trail.levelOf l = 0 := by
      intro l hl
      have := hp.ok.trail.levelOf_le hl
      omega
    have hcons : ∀ {s : ClauseRef} {k : Array ClauseRef}, s ∈ k ∨ s ∈ rest → s ∈ k ∨ s ∈ r :: rest :=
      fun h => h.imp id (List.mem_cons_of_mem _)
    split at he
    · obtain ⟨h1, h2, h3, h4⟩ := simplifyLoop_spec rest kept d p hp hground he
      exact ⟨h1, h2, h3, fun s hs => hcons (h4 s hs)⟩
    · rename_i hdeleted
      have hr : p.arena.IsLive r := by simpa [Arena.isDeleted, Arena.IsLive] using hdeleted
      split at he
      · rename_i hsat
        obtain ⟨l, hl, htrue⟩ := Array.any_eq_true'.1 hsat
        have htidied := tidied_delete hp hr (fun i hi hpos => by
          rw [hlevel _ (Trail.litAt_mem hi)] at hpos
          exact absurd hpos (Nat.lt_irrefl 0))
          (fun _ => ⟨l, hl, htrue, hlevel l ((hp.ok.trail.isTrue_iff l).1 htrue)⟩) d
        obtain ⟨h1, h2, h3, h4⟩ := simplifyLoop_spec rest kept _ _ htidied.inOrder
          (by rw [htidied.trail]; exact hground) he
        exact ⟨htidied.trans h1, (sameLearnt_delete d p r).trans h2,
          h3.trans (learnts_discount d _ _), fun s hs => hcons (h4 s hs)⟩
      · have htidied := (Transfer.shorten hp hr hground d).tidied hp fun s hs _ =>
          .inl ((isLive_shorten hr d).2 hs)
        obtain ⟨h1, h2, h3, h4⟩ := simplifyLoop_spec rest (kept.push r) _ _ htidied.inOrder
          (by rw [htidied.trail]; exact hground) he
        refine ⟨htidied.trans h1, (sameLearnt_shorten d p r).trans h2,
          h3.trans ((learnts_count _ _ _).trans (learnts_discount d _ _)), fun s hs => ?_⟩
        rcases h4 s hs with hs | hs
        · exact (Array.mem_push.1 hs).imp id fun hsr => List.mem_cons.2 (.inl hsr)
        · exact .inr (List.mem_cons_of_mem _ hs)

/-- Simplifying at ground level loses no model. -/
theorem removeSatisfied_spec (hp : p.InOrder) (hground : p.trail.level = 0)
    (hd : d.ListsLearnt p.arena) :
    Tidied p (d.removeSatisfied p).2 ∧
      (d.removeSatisfied p).1.ListsLearnt (d.removeSatisfied p).2.arena := by
  unfold removeSatisfied
  generalize hout : simplifyLoop d.learnts.toList #[] d p = out
  obtain ⟨kept, d1, p1⟩ := out
  obtain ⟨h1, h2, -, h4⟩ := simplifyLoop_spec _ _ _ _ hp hground hout
  have hkept : ∀ r ∈ kept, p1.arena.IsLearnt r := fun r hr =>
    (hd r (by simpa using (h4 r hr).resolve_left (by simp))).of_same h2
  dsimp only
  split
  · generalize hout' : simplifyLoop d1.clauses.toList #[] { d1 with learnts := kept } p1 = out'
    obtain ⟨kept', d2, p2⟩ := out'
    obtain ⟨h1', h2', h3', -⟩ := simplifyLoop_spec _ _ _ _ h1.inOrder
      (by rw [h1.trail]; exact hground) hout'
    refine ⟨h1.trans h1', fun r hr => ?_⟩
    have hr' : r ∈ d2.learnts := hr
    rw [h3'] at hr'
    exact (hkept r hr').of_same h2'
  · exact ⟨h1, hkept⟩

end ClauseLists

end ConfigSampler
