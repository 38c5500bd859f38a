import ConfigSampler.Proofs.ReasonChains

/-!
# How far learnt clauses are shortened

The literals of lower levels of a learnt clause are put to the test one after the other, each with
the marks that the tests before it left.  Since these agree with the definition of a redundant literal,
every test comes to the right answer (`TestedRightly`), and deep shortening drops the redundant
literals and no others.  A literal that is dropped because its reason alone is covered is redundant
as well, so the ways of shortening keep fewer and fewer literals (`Shortens`).

`Search.redundancy_decided` says this of **every reachable conflict above ground level**.
-/

set_option autoImplicit false

namespace ConfigSampler

/-! ## Tests in order -/

/-- The marking after literals were put to the test in order. -/
def Marking.afterTests (trail : Trail) (arena : Arena) (m : Marking) (ls : List Lit) : Marking :=
  ls.foldl (fun m l => (isRedundant trail arena l m).2) m

theorem dropRedundant_snd (trail : Trail) (arena : Arena) : ∀ (ls : List Lit) (kept : Array Lit)
    (m : Marking), (dropRedundant trail arena ls kept m).2 = m.afterTests trail arena ls
  | [], _, _ => rfl
  | l :: ls, kept, m => by
    have hrest := fun kept m => dropRedundant_snd trail arena ls kept m
    unfold dropRedundant
    split <;> rename_i he <;> rw [hrest, Marking.afterTests, Marking.afterTests, List.foldl_cons, he]

/-- The test of a literal finds out whether it is redundant: the search with a stack ends with the
    answer and the marks of the recursion, and the marks agree with the definition all the way. -/
structure TestedRightly (trail : Trail) (arena : Arena) (head : Lit) (lower : List Lit) (m : Marking)
    (l : Lit) : Prop where
  redundant_iff : (isRedundant trail arena l m).1 = true ↔ Redundant trail arena (head :: lower) l
  agrees : MarksAgree trail arena head lower (isRedundant trail arena l m).2
  ends : ∃ steps m', ReasonSearch.after trail arena steps (.start trail arena l m) =
      .done (isRedundant trail arena l m).1 m' ∧ m'.Same (isRedundant trail arena l m).2
  along : ∀ steps stack m', ReasonSearch.after trail arena steps (.start trail arena l m) =
    .searching stack m' → MarksAgree trail arena head lower m'

section

variable {p : Propagator} {lists : Lit → List Watcher} {head l : Lit} {lower ls : List Lit}
  {m : Marking} {i : Nat}

theorem MarksAgree.testedRightly (hm : MarksAgree p.trail p.arena head lower m) (hok : p.Ok lists)
    (hhead : p.trail.levelOf head = p.trail.level) (hl : p.Lies i l) (hpos : 0 < p.trail.levelOf l) :
    TestedRightly p.trail p.arena head lower m l := by
  have hgood := fun steps => ReasonSearch.Good.after hok hhead steps
    (ReasonSearch.good_start hl hpos hm)
  obtain ⟨steps, m', he, hsame⟩ := ReasonSearch.ends hok hl hpos m
  have hend := hgood steps
  rw [he] at hend
  refine ⟨hend.1, hend.2.same hsame, ⟨steps, m', he, hsame⟩, fun steps stack m' hs => ?_⟩
  have halong := hgood steps
  rw [hs] at halong
  exact halong.2

/-- The literals are false, above ground level and below the current level. -/
def AllLie (p : Propagator) (ls : List Lit) : Prop :=
  ∀ l ∈ ls, (∃ i, p.Lies i l) ∧ 0 < p.trail.levelOf l

theorem MarksAgree.afterTests (hok : p.Ok lists) (hhead : p.trail.levelOf head = p.trail.level) :
    ∀ (ls : List Lit) {m : Marking}, AllLie p ls → MarksAgree p.trail p.arena head lower m →
      MarksAgree p.trail p.arena head lower (m.afterTests p.trail p.arena ls)
  | [], _, _, hm => hm
  | l :: ls, m, hls, hm => by
    obtain ⟨⟨⟨i, hl⟩, hpos⟩, hrest⟩ := List.forall_mem_cons.1 hls
    exact MarksAgree.afterTests hok hhead ls hrest (hm.testedRightly hok hhead hl hpos).agrees

open scoped Classical in
/-- Deep shortening drops the redundant literals and no others. -/
theorem dropRedundant_eq (hok : p.Ok lists) (hhead : p.trail.levelOf head = p.trail.level) :
    ∀ (ls : List Lit) (kept : Array Lit) (m : Marking), AllLie p ls →
      MarksAgree p.trail p.arena head lower m →
      (dropRedundant p.trail p.arena ls kept m).1.toList =
        kept.toList ++ ls.filter fun l => ¬ Redundant p.trail p.arena (head :: lower) l
  | [], kept, m, _, _ => by simp [dropRedundant]
  | l :: ls, kept, m, hls, hm => by
    obtain ⟨⟨⟨i, hl⟩, hpos⟩, hrest⟩ := List.forall_mem_cons.1 hls
    have htest := hm.testedRightly hok hhead hl hpos
    have hanswer := htest.redundant_iff
    have hagrees := htest.agrees
    unfold dropRedundant
    generalize isRedundant p.trail p.arena l m = out at hanswer hagrees ⊢
    obtain ⟨redundant, m'⟩ := out
    cases redundant with
    | true =>
      rw [List.filter_cons_of_neg (by simpa using hanswer)]
      exact dropRedundant_eq hok hhead ls kept m' hrest hagrees
    | false =>
      rw [List.filter_cons_of_pos (by simpa using hanswer)]
      refine (dropRedundant_eq hok hhead ls (kept.push l) m' hrest hagrees).trans ?_
      simp

/-- A literal whose reason is covered by the clause is redundant. -/
theorem MarksAgree.redundant_of_basic (hm : MarksAgree p.trail p.arena head lower m)
    (hmarks : ∀ v, markOf m.marks v = .unseen ∨ markOf m.marks v = .source)
    (hl : isRedundantBasic p.trail p.arena m.marks l = true) :
    Redundant p.trail p.arena (head :: lower) l := by
  unfold isRedundantBasic at hl
  split at hl
  · cases hl
  · rename_i r hr
    refine redundant_iff.2 ⟨r, hr, fun q hq => ReasonSearch.settled_of_supported hm ?_⟩
    have hcovered := List.all_eq_true.1 hl q hq
    simp only [isCovered, Bool.or_eq_true, decide_eq_true_eq, beq_iff_eq] at hcovered
    exact hcovered.symm.imp id fun hne => .inl ((hmarks _).resolve_left hne)

end

/-! ## The ways of shortening -/

/-- Deep shortening keeps the literals that are not redundant, some of those that are kept when
    reasons are looked at alone; and all ways of shortening keep the first literal. -/
structure Shortens (trail : Trail) (arena : Arena) (head : Lit) (lower : Array Lit) (m : Marking)
    (deep basic : List Lit) : Prop where
  none_eq : (minimise .none trail arena head lower m).1.toList = head :: lower.toList
  basic_eq : (minimise .basic trail arena head lower m).1.toList = head :: basic
  deep_eq : (minimise .deep trail arena head lower m).1.toList = head :: deep
  basic_sublist : basic.Sublist lower.toList
  deep_sublist : deep.Sublist basic
  deep_marks : (minimise .deep trail arena head lower m).2 = m.afterTests trail arena lower.toList
  mem_deep_iff : ∀ l ∈ lower, l ∈ deep ↔ ¬ Redundant trail arena (head :: lower.toList) l

namespace Resolution.Walked

variable {p : Propagator} {lists : Lit → List Watcher} {head : Lit} {r : Resolution}

/-- When the walk is over, the marks are those of the literals that were found. -/
theorem marksAgree (h : Walked p head r) :
    MarksAgree p.trail p.arena head r.lower.toList ⟨r.marks, []⟩ := by
  obtain ⟨i, htracks⟩ := h.tracks
  have hmarked : ∀ v, markOf r.marks v ≠ .unseen ↔ v ∈ r.lower.toList.map Lit.var := fun v => by
    simpa using htracks.marked v
  refine ⟨fun v => ?_, fun l hl => ?_, fun l hl => ?_, fun v hv => .inl ((hmarked v).1 hv)⟩
  · rw [← hmarked]
    rcases htracks.marks v with hm | hm <;> rw [hm] <;> decide
  all_goals rcases htracks.marks l.var with hm | hm <;> rw [hm] at hl <;> cases hl

theorem allLie (h : Walked p head r) (ht : p.trail.Ok) : AllLie p r.lower.toList := by
  obtain ⟨k, htracks⟩ := h.tracks
  intro l hl
  obtain ⟨hfalse, hpos, hbelow⟩ := htracks.lower l (by simpa using hl)
  obtain ⟨i, hi, hat⟩ := Trail.exists_litAt ((ht.isFalse_iff l).1 hfalse)
  exact ⟨⟨i, hi, hat, hbelow⟩, hpos⟩

/-- Each literal that was found is tested rightly after those before it. -/
theorem testedRightly (h : Walked p head r) (hok : p.Ok lists) {before rest : List Lit} {l : Lit}
    (hsplit : r.lower.toList = before ++ l :: rest) :
    TestedRightly p.trail p.arena head r.lower.toList
      (Marking.afterTests p.trail p.arena ⟨r.marks, []⟩ before) l := by
  have hlie := h.allLie hok.trail
  have hbefore : AllLie p before := fun q hq => hlie q (by
    rw [hsplit]
    exact List.mem_append_left _ hq)
  obtain ⟨⟨i, hl⟩, hpos⟩ := hlie l (by simp [hsplit])
  exact (h.marksAgree.afterTests hok h.level before hbefore).testedRightly hok h.level hl hpos

open scoped Classical in
theorem shortens (h : Walked p head r) (hok : p.Ok lists) :
    ∃ deep basic, Shortens p.trail p.arena head r.lower ⟨r.marks, []⟩ deep basic := by
  obtain ⟨k, htracks⟩ := h.tracks
  refine ⟨r.lower.toList.filter fun l => ¬ Redundant p.trail p.arena (head :: r.lower.toList) l,
    r.lower.toList.filter fun l => !isRedundantBasic p.trail p.arena r.marks l, ?_⟩
  exact {
    none_eq := by simp [minimise]
    basic_eq := by simp [minimise]
    deep_eq := dropRedundant_eq hok h.level r.lower.toList #[head] ⟨r.marks, []⟩
      (h.allLie hok.trail) h.marksAgree
    basic_sublist := List.filter_sublist
    deep_sublist := by
      refine List.monotone_filter_right _ fun l hl => ?_
      have hnot : ¬ Redundant p.trail p.arena (head :: r.lower.toList) l := by simpa using hl
      rw [Bool.not_eq_true', Bool.eq_false_iff]
      exact fun hbasic => hnot (h.marksAgree.redundant_of_basic htracks.marks hbasic)
    deep_marks := dropRedundant_snd _ _ _ _ _
    mem_deep_iff := fun l hl => by simp [hl] }

end Resolution.Walked

/-! ## Reachable conflicts -/

namespace Search

variable {s : Search} {n : Nat} {r : ClauseRef}

/-- The first literal of the clause that a conflict leads to, and the resolution with the others. -/
def resolved (s : Search) (conflict : ClauseRef) : Lit × Resolution :=
  Resolution.walk s.propagator.trail s.propagator.arena conflict s.propagator.trail.size
    (s.resolutionOf conflict)

/-- Analysis shortens what the conflict leads to. -/
theorem lesson_analyze (hpos : 0 < s.propagator.trail.level) (mode : Minimisation) :
    (analyze mode s.propagator.trail s.propagator.arena s.marks r).lesson =
      lessonOf s.propagator.trail
        (minimise mode s.propagator.trail s.propagator.arena (s.resolved r).1 (s.resolved r).2.lower
          ⟨(s.resolved r).2.marks, []⟩).1 := by
  unfold analyze
  rw [if_neg (by simpa [Trail.atGround, Trail.level] using Nat.ne_of_gt hpos)]
  rfl

/-- **Shortening the clause of a reachable conflict decides for each literal whether it is
    redundant.**  The tests leave the right marks, deep shortening drops the redundant literals, and
    the other ways of shortening keep at least what it keeps; the lesson is what was kept. -/
theorem redundancy_decided (h : Reachable n (.conflict r) s) (hpos : 0 < s.propagator.trail.level) :
    (∀ before l rest, (s.resolved r).2.lower.toList = before ++ l :: rest →
      TestedRightly s.propagator.trail s.propagator.arena (s.resolved r).1
        (s.resolved r).2.lower.toList
        (Marking.afterTests s.propagator.trail s.propagator.arena ⟨(s.resolved r).2.marks, []⟩ before)
        l) ∧
    (∃ deep basic, Shortens s.propagator.trail s.propagator.arena (s.resolved r).1
      (s.resolved r).2.lower ⟨(s.resolved r).2.marks, []⟩ deep basic) ∧
    ∀ mode, (analyze mode s.propagator.trail s.propagator.arena s.marks r).lesson =
      lessonOf s.propagator.trail
        (minimise mode s.propagator.trail s.propagator.arena (s.resolved r).1 (s.resolved r).2.lower
          ⟨(s.resolved r).2.marks, []⟩).1 := by
  have hok := h.ok
  have hmarks : s.marks.Clear s.propagator.trail.numVars := by
    rw [hok.numVars]
    exact hok.marks
  have hwalked : Resolution.Walked s.propagator (s.resolved r).1 (s.resolved r).2 :=
    Resolution.walk_of_conflict hok.inOrder.ok hpos h.isConflict hmarks.size hmarks.unseen rfl
  exact ⟨fun before l rest hsplit => hwalked.testedRightly hok.inOrder.ok hsplit,
    hwalked.shortens hok.inOrder.ok, lesson_analyze hpos⟩

/-- The first of four variables implies the second one, and if the first three are true, the fourth
    one is both true and false. -/
def linked : Search :=
  (((newVars 4 (empty {})).stored ⟨1⟩ ⟨2⟩ []).stored ⟨1⟩ ⟨3⟩ [⟨5⟩, ⟨6⟩]).stored ⟨1⟩ ⟨3⟩ [⟨5⟩, ⟨7⟩]

theorem reachable_linked : Reachable 4 .ready linked := by
  have hfirst : Reachable 4 .ready ((newVars 4 (empty {})).stored ⟨1⟩ ⟨2⟩ []) :=
    (Reachable.start {}).stored (by decide +kernel) (by decide +kernel) (by decide +kernel)
      (by decide +kernel) (by decide +kernel)
  have hsecond : Reachable 4 .ready
      (((newVars 4 (empty {})).stored ⟨1⟩ ⟨2⟩ []).stored ⟨1⟩ ⟨3⟩ [⟨5⟩, ⟨6⟩]) :=
    hfirst.stored (by decide +kernel) (by decide +kernel) (by decide +kernel) (by decide +kernel)
      (by decide +kernel)
  exact hsecond.stored (by decide +kernel) (by decide +kernel) (by decide +kernel)
    (by decide +kernel) (by decide +kernel)

/-- The first and the third variable were decided, which led to a conflict. -/
def linkedConflict : Search :=
  ((linked.propagated.decided ⟨0⟩).propagated.decided ⟨4⟩).propagated

theorem reachable_linkedConflict : Reachable 4 (.conflict ⟨2⟩) linkedConflict := by
  have hfirst : Reachable 4 .ready (linked.propagated.decided ⟨0⟩) :=
    (reachable_linked.propagated (by decide +kernel)).decided (by decide) (by decide +kernel)
  exact ((hfirst.propagated (by decide +kernel)).decided (by decide) (by decide +kernel)).failed
    (by decide +kernel)

/-- The literal of the second variable follows from that of the first one. -/
theorem redundancy_decided_linked :
    Reachable 4 (.conflict ⟨2⟩) linkedConflict ∧ 0 < linkedConflict.propagator.trail.level ∧
    (linkedConflict.resolved ⟨2⟩).2.lower.toList = [⟨1⟩] ++ [⟨3⟩] ∧
    Redundant linkedConflict.propagator.trail linkedConflict.propagator.arena
      ((linkedConflict.resolved ⟨2⟩).1 :: (linkedConflict.resolved ⟨2⟩).2.lower.toList) ⟨3⟩ := by
  have hpos : 0 < linkedConflict.propagator.trail.level := by decide +kernel
  have hlower : (linkedConflict.resolved ⟨2⟩).2.lower.toList = [⟨1⟩] ++ [⟨3⟩] := by decide +kernel
  have htested := (redundancy_decided reachable_linkedConflict hpos).1 [⟨1⟩] ⟨3⟩ [] hlower
  exact ⟨reachable_linkedConflict, hpos, hlower, htested.redundant_iff.1 (by decide +kernel)⟩

end Search

end ConfigSampler
