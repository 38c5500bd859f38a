import ConfigSampler.Proofs.Searching

/-!
# Adding clauses between searches

A new clause is brought into order, without repetitions and without the literals that are false at
ground level.  What is left holds already, is contradictory, becomes a ground literal or is stored;
in each case the search stands for the assignments that satisfy the clause as well
(`Search.addClause_spec`).
-/

set_option autoImplicit false

namespace ConfigSampler

namespace Search

variable {s s' : Search} {n : Nat} {F : Assignment → Prop} {lits : List Lit} {l : Lit} {t : Trail}
  {α : Assignment}

/-! ## Bringing literals into order -/

/-- Literals in strict order of their codes. -/
def Ascending (lits : List Lit) : Prop := lits.Pairwise fun l m => l.code < m.code

theorem Ascending.nodup (h : Ascending lits) : lits.Nodup := by
  refine List.Pairwise.imp (fun {l m} hlt he => ?_) h
  rw [he] at hlt
  exact Nat.lt_irrefl _ hlt

/-- Repetitions in an ordered list stand side by side. -/
theorem eraseReps_spec : ∀ (rest : List Lit) (last : Lit) (done : List Lit),
    (last :: rest).Pairwise (fun l m => l.code ≤ m.code) → Ascending (last :: done).reverse →
    Ascending (List.eraseRepsBy.loop (· == ·) last rest done) ∧
    ∀ l, l ∈ List.eraseRepsBy.loop (· == ·) last rest done ↔ l ∈ last :: rest ∨ l ∈ done
  | [], last, done, _, hdone => by
    unfold List.eraseRepsBy.loop
    exact ⟨hdone, fun l => by simp [or_comm]⟩
  | l :: rest, last, done, hsorted, hdone => by
    obtain ⟨hfirst, hrest⟩ := List.pairwise_cons.1 hsorted
    unfold List.eraseRepsBy.loop
    split
    · rename_i hsame
      obtain rfl : last = l := by simpa using hsame
      obtain ⟨h1, h2⟩ := eraseReps_spec rest last done hrest hdone
      exact ⟨h1, fun m => by rw [h2]; simp⟩
    · rename_i hdiff
      have hne : last ≠ l := by simpa using hdiff
      have hlt : last.code < l.code := by
        have := hfirst l (by simp)
        have := Lit.code_ne hne
        omega
      have hnext : Ascending (l :: last :: done).reverse := by
        rw [List.reverse_cons]
        refine List.pairwise_append.2 ⟨hdone, List.pairwise_singleton _ _, fun m hm k hk => ?_⟩
        rw [List.mem_singleton.1 hk]
        rw [List.reverse_cons, List.mem_append, List.mem_singleton] at hm
        rcases hm with hm | rfl
        · rw [List.reverse_cons] at hdone
          exact Nat.lt_trans ((List.pairwise_append.1 hdone).2.2 m hm last (by simp)) hlt
        · exact hlt
      obtain ⟨h1, h2⟩ := eraseReps_spec rest l (last :: done) hrest hnext
      refine ⟨h1, fun m => ?_⟩
      rw [h2]
      simp only [List.mem_cons]
      tauto

theorem sortLits_spec (lits : List Lit) :
    Ascending (sortLits lits) ∧ ∀ l, l ∈ sortLits lits ↔ l ∈ lits := by
  have hsorted : (lits.mergeSort fun a b => decide (a.code ≤ b.code)).Pairwise
      fun a b => decide (a.code ≤ b.code) = true :=
    List.pairwise_mergeSort (by simpa using fun _ _ _ => Nat.le_trans)
      (by simpa using fun a b : Lit => Nat.le_total a.code b.code) lits
  have hmem : ∀ l, l ∈ lits.mergeSort (fun a b => decide (a.code ≤ b.code)) ↔ l ∈ lits := fun l =>
    List.mem_mergeSort
  unfold sortLits List.eraseReps List.eraseRepsBy
  generalize lits.mergeSort _ = sorted at *
  cases sorted with
  | nil => exact ⟨List.Pairwise.nil, hmem⟩
  | cons a rest =>
    obtain ⟨h1, h2⟩ := eraseReps_spec rest a [] (by simpa using hsorted) (List.pairwise_singleton _ _)
    exact ⟨h1, fun l => by rw [h2, ← hmem]; simp⟩

/-- Literals in strict order are in order already. -/
theorem Ascending.sortLits_eq (h : Ascending lits) : sortLits lits = lits := by
  obtain ⟨hsorted, hmem⟩ := sortLits_spec lits
  refine List.Perm.eq_of_pairwise (fun a b _ _ hab hba => ?_) hsorted h
    ((List.perm_ext_iff_of_nodup hsorted.nodup h.nodup).2 hmem)
  exact absurd hab (Nat.lt_asymm hba)

/-- A true literal or a literal with its complement is found, if there is one in order. -/
theorem holdsAlready_eq_true : ∀ (lits : List Lit) (last : Option Lit),
    holdsAlready t last lits = true →
    ∃ l ∈ lits, t.isTrue l = true ∨ last = some l.negate ∨ l.negate ∈ lits
  | [], _, h => nomatch h
  | l :: rest, last, h => by
    simp only [holdsAlready, Bool.or_eq_true, beq_iff_eq] at h
    rcases h with (htrue | hlast) | h
    · exact ⟨l, by simp, .inl htrue⟩
    · exact ⟨l, by simp, .inr (.inl hlast)⟩
    · obtain ⟨m, hm, htrue | hlast | hneg⟩ := holdsAlready_eq_true rest (some l) h
      · exact ⟨m, List.mem_cons_of_mem _ hm, .inl htrue⟩
      · cases hlast
        exact ⟨m, List.mem_cons_of_mem _ hm, .inr (.inr (by simp))⟩
      · exact ⟨m, List.mem_cons_of_mem _ hm, .inr (.inr (List.mem_cons_of_mem _ hneg))⟩

theorem holdsAlready_eq_false : ∀ (lits : List Lit) (last : Option Lit),
    holdsAlready t last lits = false → ∀ l ∈ lits, t.isTrue l = false
  | [], _, _, l, hl => nomatch hl
  | m :: rest, last, h, l, hl => by
    simp only [holdsAlready, Bool.or_eq_false_iff] at h
    rcases List.mem_cons.1 hl with rfl | hl
    · exact h.1.1
    · exact holdsAlready_eq_false rest (some m) h.2 l hl

/-! ## The clause -/

/-- The literals of a clause that are not false at ground level, in order. -/
def openLits (t : Trail) (lits : List Lit) : List Lit := (sortLits lits).filter fun l => !t.isFalse l

theorem mem_openLits : l ∈ openLits t lits ↔ l ∈ lits ∧ t.isFalse l = false := by
  simp [openLits, (sortLits_spec lits).2]

theorem Resting.ground_holds (h : s.Resting n F) (hα : F α) (hl : s.propagator.trail.isTrue l = true) :
    l.Holds α := by
  have ht := h.ok.inOrder.ok.trail
  have hmem := (ht.isTrue_iff l).1 hl
  have := ht.levelOf_le hmem
  exact (h.ok.sound α hα).ground l hmem (by have := h.ground; omega)

/-- Accepted assignments satisfy a clause by literals that are not false at ground level. -/
theorem Resting.holds_openLits (h : s.Resting n F) (hα : F α) :
    (∃ l ∈ lits, l.Holds α) ↔ ∃ l ∈ openLits s.propagator.trail lits, l.Holds α := by
  constructor
  · rintro ⟨l, hl, hholds⟩
    refine ⟨l, mem_openLits.2 ⟨hl, ?_⟩, hholds⟩
    by_contra hfalse
    rw [Bool.not_eq_false, h.ok.inOrder.ok.trail.isFalse_eq] at hfalse
    exact Lit.holds_negate.1 (h.ground_holds hα hfalse) hholds
  · rintro ⟨l, hl, hholds⟩
    exact ⟨l, (mem_openLits.1 hl).1, hholds⟩

/-- A clause with a true literal or a literal and its complement constrains nothing. -/
theorem Resting.holds_of_holdsAlready (h : s.Resting n F) (hα : F α)
    (hholds : holdsAlready s.propagator.trail none (openLits s.propagator.trail lits) = true) :
    ∃ l ∈ lits, l.Holds α := by
  rw [h.holds_openLits hα]
  obtain ⟨l, hl, htrue | hnone | hneg⟩ := holdsAlready_eq_true _ _ hholds
  · exact ⟨l, hl, h.ground_holds hα htrue⟩
  · cases hnone
  · by_cases hl' : l.Holds α
    · exact ⟨l, hl, hl'⟩
    · exact ⟨l.negate, hneg, Lit.holds_negate.2 hl'⟩

/-- What is relied on after a clause was added, for the assignments that satisfy it as well. -/
def Admits (n : Nat) (F : Assignment → Prop) (s : Search) : Addition → Prop
  | .contradiction => s.numVars = n ∧ ∀ α, ¬ F α
  | .absorbed => s.Resting n F
  | .stored _ => s.Resting n F

theorem Resting.change (h : s.Resting n F) {F' : Assignment → Prop} (hF : ∀ α, F' α ↔ F α) :
    s.Resting n F' :=
  ⟨⟨h.ok.numVars, h.ok.inOrder, fun α hα => h.ok.sound α ((hF α).1 hα),
    fun α hα => (hF α).2 (h.ok.complete α hα), h.ok.listed, h.ok.waits, h.ok.marks⟩, h.settled,
    h.ground⟩

/-- A single literal becomes true at ground level. -/
theorem Resting.addUnit (h : s.Resting n F) (hl : l.var < n)
    (hfree : s.propagator.trail.isFree l.var = true) {conflict : Option ClauseRef} {q : Propagator}
    (hq : (s.propagator.assign l none).propagate = (conflict, q)) :
    q.trail.numVars = n ∧ (conflict ≠ none → ∀ α, F α → ¬ l.Holds α) ∧
    (conflict = none → Resting { s with propagator := q } n fun α => F α ∧ l.Holds α) := by
  have hok := h.ok.assignGround h.ground hl hfree (fun α => Iff.rfl)
  have hsettled : (s.propagator.assign l none).IsSettled := h.settled.assign h.ok.inOrder.ok.trail
    (by rw [h.ok.numVars]; exact hl) hfree none
  obtain ⟨hin, hg, -, hnone, hconflict⟩ := Propagator.propagate_spec hok.inOrder hsettled hq
  have hgrown := hok.grow hin hg
  have hground : q.trail.level = 0 := (hg.trail.level).trans h.ground
  refine ⟨hgrown.numVars, fun hne α hα hholds => ?_, fun hnil => ⟨hgrown, hnone hnil, hground⟩⟩
  obtain ⟨r, hr⟩ := Option.ne_none_iff_exists'.1 hne
  exact (hconflict r hr).not_models hin.ok.trail hground (hgrown.sound α ⟨hα, hholds⟩)

/-- A clause of two or more literals without values is stored. -/
theorem Resting.storeClause (h : s.Resting n F) {first second : Lit} {rest : List Lit}
    (hnodup : (first :: second :: rest).Nodup) (hvars : ∀ l ∈ first :: second :: rest, l.var < n)
    (hopen : ∀ l ∈ first :: second :: rest, s.propagator.trail.isFalse l = false)
    (lists : ClauseLists) (hlists : lists.learnts = s.lists.learnts) :
    Resting { s with
      propagator := s.propagator.withClause (first :: second :: rest).toArray false 0 first second
      lists := lists } n fun α => F α ∧ ∃ l ∈ first :: second :: rest, l.Holds α := by
  have hc : (Propagator.newClause (first :: second :: rest).toArray false 0).Ok
      s.propagator.trail.numVars :=
    ⟨Nat.le_add_left 2 _, hnodup, fun l hl => by
      rw [h.ok.numVars]
      exact hvars l (List.mem_toArray.1 hl), rfl⟩
  have hin := h.ok.inOrder.withClause hc fun w _ _ => by
    rw [h.ground]
    exact Nat.zero_le _
  refine ⟨h.ok.withClause hin (fun r hr => ?_) (fun α hα => ⟨hα.1, by simpa using hα.2⟩)
    fun α hα hclause => ⟨hα, by simpa using hclause rfl⟩, fun r hr w hw hproc => ?_, h.ground⟩
  · have hr' : r ∈ lists.learnts := hr
    rw [hlists] at hr'
    exact isLearnt_push _ _ (h.ok.listed r hr')
  · rcases h.settled.withClause r hr w hw hproc with rfl | hg
    · -- the watched literals of the new clause are not false
      have hfalse : s.propagator.trail.isFalse w = true :=
        hproc.isFalse (p := s.propagator.withClause _ _ _ _ _) h.ok.inOrder.ok.trail
      have hview : (s.propagator.withClause (first :: second :: rest).toArray false 0 first
          second).arena.view s.propagator.nextName =
          Propagator.newClause (first :: second :: rest).toArray false 0 :=
        Propagator.view_withClause_new
      dsimp only at hw
      rw [hview] at hw
      have hmem := hc.mem_of_isWatched hw
      rw [hopen w (by simpa [Propagator.newClause] using hmem)] at hfalse
      cases hfalse
    · exact .inr hg

/-- **A clause that is added narrows the assignments down** to those that satisfy it; the clauses
    are found contradictory only when there are none. -/
theorem addClause_spec (h : s.Resting n F) (hvars : ∀ l ∈ lits, l.var < n) :
    (s.addClause lits).2.Admits n (fun α => F α ∧ ∃ l ∈ lits, l.Holds α) (s.addClause lits).1 := by
  have hnodup : (openLits s.propagator.trail lits).Nodup := (sortLits_spec lits).1.nodup.filter _
  have hopen : ∀ l ∈ openLits s.propagator.trail lits, l.var < n ∧
      s.propagator.trail.isFalse l = false := fun l hl =>
    ⟨hvars l (mem_openLits.1 hl).1, (mem_openLits.1 hl).2⟩
  have hiff : ∀ α, (F α ∧ ∃ l ∈ lits, l.Holds α) ↔
      F α ∧ ∃ l ∈ openLits s.propagator.trail lits, l.Holds α := fun α =>
    and_congr_right fun hα => h.holds_openLits hα
  have halready : ∀ α, F α → holdsAlready s.propagator.trail none
      (openLits s.propagator.trail lits) = true → ∃ l ∈ lits, l.Holds α := fun α hα =>
    h.holds_of_holdsAlready hα
  unfold Search.addClause
  dsimp only
  rw [show (sortLits lits).filter (fun l => !s.propagator.trail.isFalse l) =
    openLits s.propagator.trail lits from rfl]
  generalize openLits s.propagator.trail lits = kept at *
  split
  · rename_i hholds
    exact h.change fun α => and_iff_left_of_imp fun hα => halready α hα hholds
  · rename_i hnot
    have hunset := holdsAlready_eq_false _ _ (by simpa using hnot)
    split
    · exact ⟨h.ok.numVars, fun α hα => by simpa using (hiff α).1 hα⟩
    · rename_i l
      have hfree : s.propagator.trail.isFree l.var = true :=
        (h.ok.inOrder.ok.trail.isFree_iff _).2 ⟨hunset l (by simp), (hopen l (by simp)).2⟩
      split <;> rename_i hq <;> obtain ⟨hnum, hcon, hok⟩ := h.addUnit (hopen l (by simp)).1 hfree hq
      · exact (hok rfl).change fun α => (hiff α).trans (by simp)
      · exact ⟨hnum, fun α hα => hcon (by simp) α hα.1 (by simpa using ((hiff α).1 hα).2)⟩
    · rename_i first second rest
      exact (h.storeClause hnodup (fun l hl => (hopen l hl).1) (fun l hl => (hopen l hl).2)
        (s.lists.addClause s.propagator.arena (first :: second :: rest).toArray).2.1
        (ClauseLists.learnts_count ..)).change hiff

end Search

end ConfigSampler
