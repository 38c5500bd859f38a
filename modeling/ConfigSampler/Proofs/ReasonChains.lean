import ConfigSampler.Proofs.AssertingLessons

/-!
# Searching chains of reasons

A literal of a clause is `Redundant` if the other literals of its reason belong to the ground level
or to the clause, or are redundant themselves.  `ReasonSearch` finds that out with a stack of the
literals whose reasons are being looked through, and notes what it found in the marks: a literal that
leaves the stack is marked as removable, and when some literal turns out not to be redundant, all
literals on the stack are marked as failed at once, because each of them rests on the one above it.

In every state of the search the marks agree with the definition (`Good.after`), and the search ends
with the answer and the marks of the recursion `isRedundant` (`ReasonSearch.ends`).
-/

set_option autoImplicit false

namespace ConfigSampler

/-! ## Redundant literals -/

/-- The literal follows from the others of the clause by a chain of reasons: it has a reason, whose
    other literals above ground level are redundant unless the clause has their variable. -/
inductive Redundant (trail : Trail) (arena : Arena) (clause : List Lit) : Lit → Prop
  | intro {l : Lit} {r : ClauseRef} : trail.reasonOf l = some r →
      (∀ q ∈ otherLits arena r, trail.levelOf q ≠ 0 → q.var ∉ clause.map Lit.var →
        Redundant trail arena clause q) →
      Redundant trail arena clause l

/-- The literal needs no further search: it belongs to the ground level or to the clause, or it is
    redundant. -/
def Settled (trail : Trail) (arena : Arena) (clause : List Lit) (q : Lit) : Prop :=
  trail.levelOf q = 0 ∨ q.var ∈ clause.map Lit.var ∨ Redundant trail arena clause q

section

variable {trail : Trail} {arena : Arena} {clause : List Lit} {l q : Lit}

/-- **The recursive definition.** -/
theorem redundant_iff : Redundant trail arena clause l ↔
    ∃ r, trail.reasonOf l = some r ∧ ∀ q ∈ otherLits arena r, Settled trail arena clause q := by
  constructor
  · rintro ⟨hr, hothers⟩
    refine ⟨_, hr, fun q hq => ?_⟩
    by_cases h0 : trail.levelOf q = 0
    · exact .inl h0
    by_cases hv : q.var ∈ clause.map Lit.var
    · exact .inr (.inl hv)
    · exact .inr (.inr (hothers q hq h0 hv))
  · rintro ⟨r, hr, hothers⟩
    exact .intro hr fun q hq h0 hv => ((hothers q hq).resolve_left h0).resolve_left hv

/-- Only the variable matters. -/
theorem Redundant.congr (h : Redundant trail arena clause l) (hv : l.var = q.var) :
    Redundant trail arena clause q := by
  obtain ⟨r, hr, hothers⟩ := redundant_iff.1 h
  refine redundant_iff.2 ⟨r, ?_, hothers⟩
  rw [← hr]
  simp only [Trail.reasonOf, hv]

end

/-! ## Marks -/

namespace Marking

variable {m m' m'' : Marking} {v w : Nat} {mark : Mark}

theorem markOf_set_of_ne (marks : Marks) (hne : w ≠ v) :
    markOf (marks.setIfInBounds v mark) w = markOf marks w := by
  simp only [markOf, Array.getD_eq_getD_getElem?, Array.getElem?_setIfInBounds_ne (Ne.symm hne)]

/-- Recording changes nothing but the mark of a variable that had none. -/
theorem record_cases (m : Marking) (v : Nat) (mark : Mark) (w : Nat) :
    markOf (m.record v mark).marks w = markOf m.marks w ∨
    (w = v ∧ markOf m.marks v = .unseen ∧ markOf (m.record v mark).marks w = mark) := by
  unfold record
  split
  · rename_i hu
    by_cases hv : v < m.marks.size
    · by_cases hw : w = v
      · refine .inr ⟨hw, hu, ?_⟩
        rw [markOf_set hv, if_pos hw]
      · exact .inl (markOf_set_of_ne _ hw)
    · refine .inl ?_
      rw [Array.setIfInBounds_eq_of_size_le (Nat.le_of_not_lt hv)]
  · exact .inl rfl

theorem touched_record (m : Marking) (v : Nat) (mark : Mark) :
    (∀ w ∈ m.touched, w ∈ (m.record v mark).touched) ∧
    (markOf m.marks v = .unseen → v ∈ (m.record v mark).touched) := by
  unfold record
  split
  · exact ⟨fun w hw => List.mem_cons_of_mem _ hw, fun _ => List.mem_cons_self⟩
  · rename_i hu
    exact ⟨fun w hw => hw, fun h => absurd h hu⟩

/-- The same marks, noted in any order. -/
structure Same (m m' : Marking) : Prop where
  marks : m.marks = m'.marks
  touched : m.touched.Perm m'.touched

namespace Same

theorem refl (m : Marking) : Same m m := ⟨rfl, .refl _⟩

theorem trans (h : Same m m') (h' : Same m' m'') : Same m m'' :=
  ⟨h.marks.trans h'.marks, h.touched.trans h'.touched⟩

theorem record (h : Same m m') (v : Nat) (mark : Mark) : Same (m.record v mark) (m'.record v mark) := by
  unfold Marking.record
  rw [h.marks]
  split
  · exact ⟨rfl, h.touched.cons v⟩
  · exact h

end Same

/-- Equal marks can be recorded in any order. -/
theorem same_record_record (m : Marking) (v w : Nat) (mark : Mark) :
    Same ((m.record v mark).record w mark) ((m.record w mark).record v mark) := by
  by_cases hvw : v = w
  · rw [hvw]
    exact .refl _
  have hv : ∀ marks, markOf (Array.setIfInBounds marks w mark) v = markOf marks v := fun marks =>
    markOf_set_of_ne marks hvw
  have hw : ∀ marks, markOf (Array.setIfInBounds marks v mark) w = markOf marks w := fun marks =>
    markOf_set_of_ne marks (Ne.symm hvw)
  by_cases hvu : markOf m.marks v = .unseen <;> by_cases hwu : markOf m.marks w = .unseen <;>
    simp only [record, hvu, hwu, hv, hw, if_true, if_false]
  · exact ⟨Array.setIfInBounds_comm _ _ hvw, .swap _ _ _⟩
  all_goals exact .refl _

end Marking

/-! ## The search with a stack -/

/-- A literal whose reason is looked through, and the literals of the reason that are left. -/
abbrev Frame := Lit × List Lit

/-- A search along chains of reasons. -/
inductive ReasonSearch where
  /-- The topmost frame comes first. -/
  | searching (stack : List Frame) (m : Marking)
  | done (redundant : Bool) (m : Marking)

namespace ReasonSearch

/-- Marks the literals on the stack as failed, those at the bottom first. -/
def failAll : List Frame → Marking → Marking
  | [], m => m
  | (l, _) :: stack, m => (failAll stack m).record l.var .failed

/-- Looks at the next literal of the topmost reason. -/
def next (trail : Trail) (arena : Arena) : ReasonSearch → ReasonSearch
  | done redundant m => done redundant m
  | searching [] m => done true m
  | searching ((l, []) :: stack) m => searching stack (m.record l.var .removable)
  | searching ((l, q :: rest) :: stack) m =>
    let mark := markOf m.marks q.var
    if trail.levelOf q = 0 || mark = .source || mark = .removable then
      searching ((l, rest) :: stack) m
    else
      match trail.reasonOf q with
      | none => done false (failAll ((l, rest) :: stack) m)
      | some r =>
        if mark = .unseen then searching ((q, otherLits arena r) :: (l, rest) :: stack) m
        else done false (failAll ((l, rest) :: stack) m)

/-- A literal without a reason is not redundant; otherwise its reason is looked through. -/
def start (trail : Trail) (arena : Arena) (l : Lit) (m : Marking) : ReasonSearch :=
  match trail.reasonOf l with
  | none => done false m
  | some r => searching [(l, otherLits arena r)] m

/-- The search after so many steps. -/
def after (trail : Trail) (arena : Arena) : Nat → ReasonSearch → ReasonSearch
  | 0, s => s
  | steps + 1, s => after trail arena steps (next trail arena s)

theorem after_add (trail : Trail) (arena : Arena) (more : Nat) : ∀ (steps : Nat) (s : ReasonSearch),
    after trail arena (more + steps) s = after trail arena more (after trail arena steps s)
  | 0, _ => rfl
  | steps + 1, s => after_add trail arena more steps (next trail arena s)

section Steps

variable {p : Propagator} {m : Marking} {l q : Lit} {rest : List Lit} {stack : List Frame}

theorem supported_iff : (decide (p.trail.levelOf q = 0) || decide (markOf m.marks q.var = .source) ||
    decide (markOf m.marks q.var = .removable)) = true ↔ p.Supported m.marks q := by
  simp only [Bool.or_eq_true, decide_eq_true_eq, or_assoc]
  exact Iff.rfl

theorem next_supported (hq : p.Supported m.marks q) :
    next p.trail p.arena (searching ((l, q :: rest) :: stack) m) =
      searching ((l, rest) :: stack) m := if_pos (supported_iff.2 hq)

theorem next_none (hq : ¬ p.Supported m.marks q) (hnone : p.trail.reasonOf q = none) :
    next p.trail p.arena (searching ((l, q :: rest) :: stack) m) =
      done false (failAll ((l, rest) :: stack) m) := by
  refine (if_neg fun hs => hq (supported_iff.1 hs)).trans ?_
  rw [hnone]

theorem next_some {r : ClauseRef} (hq : ¬ p.Supported m.marks q) (hr : p.trail.reasonOf q = some r) :
    next p.trail p.arena (searching ((l, q :: rest) :: stack) m) =
      if markOf m.marks q.var = .unseen then
        searching ((q, otherLits p.arena r) :: (l, rest) :: stack) m
      else done false (failAll ((l, rest) :: stack) m) := by
  refine (if_neg fun hs => hq (supported_iff.1 hs)).trans ?_
  rw [hr]

end Steps

end ReasonSearch

/-! ## Literals below the current level -/

/-- The literal has been false since place `i`, on a level below the current one. -/
structure Propagator.Lies (p : Propagator) (i : Nat) (l : Lit) : Prop where
  lt : i < p.trail.size
  litAt : p.trail.litAt i = l.negate
  below : p.trail.levelOf l < p.trail.level

section

variable {p : Propagator} {lists : Lit → List Watcher} {i : Nat} {l q head : Lit} {r : ClauseRef}

/-- The other literals of a reason lie before the literal that it forces. -/
theorem Propagator.Lies.other (h : p.Lies i l) (hok : p.Ok lists) (hpos : 0 < p.trail.levelOf l)
    (hr : p.trail.reasonOf l = some r) (hq : q ∈ otherLits p.arena r) : ∃ j < i, p.Lies j q := by
  have hf := hok.forces_of_reasonOf h.lt h.litAt hpos hr
  obtain ⟨j, hj, hat⟩ := hf.others_before (hok.clause _ hf.live) hq
  have hjs := Nat.lt_trans hj h.lt
  refine ⟨j, hj, hjs, hat, Nat.lt_of_le_of_lt ?_ h.below⟩
  rw [← Trail.levelOf_negate, ← hat, ← p.trail.levelOf_negate l, ← h.litAt,
    hok.trail.levelOf_litAt j hjs, hok.trail.levelOf_litAt i h.lt]
  exact p.trail.levelAt_mono (Nat.le_of_lt hj)

/-- The literal of the current level has another variable. -/
theorem Propagator.Lies.var_ne (h : p.Lies i l) (hhead : p.trail.levelOf head = p.trail.level) :
    l.var ≠ head.var := by
  intro hv
  have hlevel : p.trail.levelOf l = p.trail.levelOf head := by simp only [Trail.levelOf, hv]
  have := h.below
  omega

end

/-! ## Marks in agreement with the definition -/

/-- The marks agree with the definition for the clause with the first literal `head` and the other
    literals `lower`, and the variables that got one are noted. -/
structure MarksAgree (trail : Trail) (arena : Arena) (head : Lit) (lower : List Lit) (m : Marking) :
    Prop where
  source : ∀ v, markOf m.marks v = .source ↔ v ∈ lower.map Lit.var
  removable : ∀ l, markOf m.marks l.var = .removable → Redundant trail arena (head :: lower) l
  failed : ∀ l, markOf m.marks l.var = .failed → ¬ Redundant trail arena (head :: lower) l
  noted : ∀ v, markOf m.marks v ≠ .unseen → v ∈ lower.map Lit.var ∨ v ∈ m.touched

namespace MarksAgree

variable {trail : Trail} {arena : Arena} {head l : Lit} {lower : List Lit} {m m' : Marking}
  {mark : Mark}

theorem same (h : MarksAgree trail arena head lower m) (hsame : m.Same m') :
    MarksAgree trail arena head lower m' where
  source := hsame.marks ▸ h.source
  removable := hsame.marks ▸ h.removable
  failed := hsame.marks ▸ h.failed
  noted v hv := (h.noted v (hsame.marks ▸ hv)).imp id hsame.touched.mem_iff.1

/-- What is found out about a literal is recorded. -/
theorem record (h : MarksAgree trail arena head lower m)
    (hmark : mark = .removable ∧ Redundant trail arena (head :: lower) l ∨
      mark = .failed ∧ ¬ Redundant trail arena (head :: lower) l) :
    MarksAgree trail arena head lower (m.record l.var mark) := by
  obtain ⟨hkept, hnew⟩ := m.touched_record l.var mark
  refine ⟨fun v => ?_, fun q hq => ?_, fun q hq => ?_, fun v hv => ?_⟩
  · rcases m.record_cases l.var mark v with he | ⟨rfl, hunseen, he⟩
    · rw [he, h.source]
    · have hnot : l.var ∉ lower.map Lit.var := by
        rw [← h.source, hunseen]
        decide
      refine iff_of_false ?_ hnot
      rw [he]
      rcases hmark with ⟨rfl, -⟩ | ⟨rfl, -⟩ <;> decide
  · rcases m.record_cases l.var mark q.var with he | ⟨hv, -, he⟩
    · exact h.removable q (he ▸ hq)
    · obtain ⟨-, hred⟩ := hmark.resolve_right fun hf => by
        rw [he, hf.1] at hq
        cases hq
      exact hred.congr hv.symm
  · rcases m.record_cases l.var mark q.var with he | ⟨hv, -, he⟩
    · exact h.failed q (he ▸ hq)
    · obtain ⟨-, hred⟩ := hmark.resolve_left fun hr => by
        rw [he, hr.1] at hq
        cases hq
      exact fun hqred => hred (hqred.congr hv)
  · rcases m.record_cases l.var mark v with he | ⟨rfl, hunseen, -⟩
    · exact (h.noted v (he ▸ hv)).imp id (hkept v)
    · exact .inr (hnew hunseen)

theorem failAll (h : MarksAgree trail arena head lower m) : ∀ (stack : List Frame),
    (∀ f ∈ stack, ¬ Redundant trail arena (head :: lower) f.1) →
    MarksAgree trail arena head lower (ReasonSearch.failAll stack m)
  | [], _ => h
  | f :: stack, hstack =>
    (h.failAll stack fun g hg => hstack g (List.mem_cons_of_mem _ hg)).record
      (.inr ⟨rfl, hstack f List.mem_cons_self⟩)

end MarksAgree

namespace ReasonSearch

section Agreement

variable {p : Propagator} {lists : Lit → List Watcher} {head target l q : Lit} {lower rest : List Lit}
  {stack : List Frame} {m : Marking} {s : ReasonSearch}

/-- The reason of the literal is looked through, and all of its other literals but the `rest` are
    settled. -/
structure Looks (p : Propagator) (clause : List Lit) (l : Lit) (rest : List Lit) : Prop where
  lies : ∃ i, p.Lies i l
  pos : 0 < p.trail.levelOf l
  reason : ∃ r before, p.trail.reasonOf l = some r ∧ otherLits p.arena r = before ++ rest ∧
    ∀ q ∈ before, Settled p.trail p.arena clause q

/-- What a stack stands for: the literal of each frame waits for the one above it.  If that one is
    redundant, the search may go on with the frame; if not, neither is any literal below. -/
def Waits (p : Propagator) (clause : List Lit) (target : Lit) : List Frame → Prop
  | [] => Redundant p.trail p.arena clause target
  | (l, rest) :: stack => Looks p clause l rest ∧
    (Redundant p.trail p.arena clause l → Waits p clause target stack) ∧
    (¬ Redundant p.trail p.arena clause l → ¬ Redundant p.trail p.arena clause target ∧
      ∀ f ∈ stack, ¬ Redundant p.trail p.arena clause f.1)

/-- The state of a search for `target` is right: the marks agree, and an answer is the right one. -/
def Good (p : Propagator) (head : Lit) (lower : List Lit) (target : Lit) : ReasonSearch → Prop
  | searching stack m => Waits p (head :: lower) target stack ∧
      MarksAgree p.trail p.arena head lower m
  | done redundant m => (redundant = true ↔ Redundant p.trail p.arena (head :: lower) target) ∧
      MarksAgree p.trail p.arena head lower m

namespace Looks

variable {clause : List Lit}

/-- A literal whose reason was looked through is redundant. -/
theorem redundant (h : Looks p clause l []) : Redundant p.trail p.arena clause l := by
  obtain ⟨r, before, hr, hothers, hbefore⟩ := h.reason
  rw [List.append_nil] at hothers
  exact redundant_iff.2 ⟨r, hr, hothers ▸ hbefore⟩

theorem settle (h : Looks p clause l (q :: rest)) (hq : Settled p.trail p.arena clause q) :
    Looks p clause l rest := by
  obtain ⟨r, before, hr, hothers, hbefore⟩ := h.reason
  refine ⟨h.lies, h.pos, r, before ++ [q], hr, by rw [hothers]; simp, fun x hx => ?_⟩
  rcases List.mem_append.1 hx with hx | hx
  · exact hbefore x hx
  · rw [List.mem_singleton.1 hx]
    exact hq

/-- A literal that is not settled keeps those that wait for it from being redundant. -/
theorem not_redundant (h : Looks p clause l (q :: rest))
    (hq : ¬ Settled p.trail p.arena clause q) : ¬ Redundant p.trail p.arena clause l := by
  obtain ⟨r, before, hr, hothers, -⟩ := h.reason
  intro hred
  obtain ⟨r', hr', hall⟩ := redundant_iff.1 hred
  obtain rfl := Option.some.inj (hr.symm.trans hr')
  exact hq (hall q (by rw [hothers]; simp))

theorem exists_lies (h : Looks p clause l (q :: rest)) (hok : p.Ok lists) : ∃ j, p.Lies j q := by
  obtain ⟨i, hi⟩ := h.lies
  obtain ⟨r, before, hr, hothers, -⟩ := h.reason
  obtain ⟨j, -, hj⟩ := hi.other hok h.pos hr (q := q) (by rw [hothers]; simp)
  exact ⟨j, hj⟩

theorem start {i : Nat} {r : ClauseRef} (hl : p.Lies i l) (hpos : 0 < p.trail.levelOf l)
    (hr : p.trail.reasonOf l = some r) : Looks p clause l (otherLits p.arena r) :=
  ⟨⟨i, hl⟩, hpos, r, [], hr, rfl, by simp⟩

end Looks

/-- Some literal is not settled, so no literal on the stack is redundant. -/
theorem Waits.good_failAll (h : Waits p (head :: lower) target ((l, q :: rest) :: stack))
    (hm : MarksAgree p.trail p.arena head lower m)
    (hq : ¬ Settled p.trail p.arena (head :: lower) q) :
    Good p head lower target (done false (failAll ((l, rest) :: stack) m)) := by
  have hl := h.1.not_redundant hq
  obtain ⟨htarget, hstack⟩ := h.2.2 hl
  exact ⟨iff_of_false Bool.false_ne_true htarget,
    hm.failAll _ (List.forall_mem_cons.2 ⟨hl, hstack⟩)⟩

/-- A literal of a lower level is supported if its mark says that it is settled. -/
theorem settled_of_supported (hm : MarksAgree p.trail p.arena head lower m)
    (hq : p.Supported m.marks q) : Settled p.trail p.arena (head :: lower) q := by
  rcases hq with h0 | hs | hr
  · exact .inl h0
  · refine .inr (.inl ?_)
    rw [List.map_cons]
    exact List.mem_cons_of_mem _ ((hm.source _).1 hs)
  · exact .inr (.inr (hm.removable q hr))

/-- A literal without a supporting mark is settled only if it is redundant. -/
theorem redundant_of_settled (hm : MarksAgree p.trail p.arena head lower m) {j : Nat}
    (hlies : p.Lies j q) (hhead : p.trail.levelOf head = p.trail.level)
    (hq : ¬ p.Supported m.marks q) (hsettled : Settled p.trail p.arena (head :: lower) q) :
    Redundant p.trail p.arena (head :: lower) q := by
  refine (hsettled.resolve_left fun h0 => hq (.inl h0)).resolve_left fun hv => ?_
  rcases List.mem_cons.1 hv with hv | hv
  · exact hlies.var_ne hhead hv
  · exact hq (.inr (.inl ((hm.source _).2 hv)))

theorem Good.next (h : Good p head lower target s) (hok : p.Ok lists)
    (hhead : p.trail.levelOf head = p.trail.level) :
    Good p head lower target (next p.trail p.arena s) := by
  match s, h with
  | done redundant m, h => exact h
  | searching [] m, ⟨hred, hm⟩ => exact ⟨iff_of_true rfl hred, hm⟩
  | searching ((l, []) :: stack) m, ⟨hwaits, hm⟩ =>
    have hred := hwaits.1.redundant
    exact ⟨hwaits.2.1 hred, hm.record (.inl ⟨rfl, hred⟩)⟩
  | searching ((l, q :: rest) :: stack) m, ⟨hwaits, hm⟩ =>
    obtain ⟨j, hlies⟩ := hwaits.1.exists_lies hok
    by_cases hq : p.Supported m.marks q
    · rw [next_supported hq]
      exact ⟨⟨hwaits.1.settle (settled_of_supported hm hq), hwaits.2⟩, hm⟩
    have hsettled := redundant_of_settled hm hlies hhead hq
    cases hr : p.trail.reasonOf q with
    | none =>
      rw [next_none hq hr]
      refine hwaits.good_failAll hm fun hs => ?_
      obtain ⟨r, hr', -⟩ := redundant_iff.1 (hsettled hs)
      rw [hr] at hr'
      cases hr'
    | some r =>
      rw [next_some hq hr]
      split
      · -- the literal comes on top, and the one below waits for it
        have hpos : 0 < p.trail.levelOf q := Nat.pos_of_ne_zero fun h0 => hq (.inl h0)
        refine ⟨⟨.start hlies hpos hr, fun hred => ?_, fun hnot => ?_⟩, hm⟩
        · exact ⟨hwaits.1.settle (.inr (.inr hred)), hwaits.2⟩
        · have hl := hwaits.1.not_redundant fun hs => hnot (hsettled hs)
          obtain ⟨htarget, hstack⟩ := hwaits.2.2 hl
          exact ⟨htarget, List.forall_mem_cons.2 ⟨hl, hstack⟩⟩
      · rename_i hseen
        refine hwaits.good_failAll hm fun hs => ?_
        -- the only mark that is left says that the literal is not redundant
        have hfailed : markOf m.marks q.var = .failed := by
          cases hmark : markOf m.marks q.var with
          | unseen => exact absurd hmark hseen
          | source => exact absurd (.inr (.inl hmark)) hq
          | removable => exact absurd (.inr (.inr hmark)) hq
          | failed => rfl
        exact hm.failed q hfailed (hsettled hs)

/-- **The marks agree with the definition in every state of a search.** -/
theorem Good.after (hok : p.Ok lists) (hhead : p.trail.levelOf head = p.trail.level) :
    ∀ (steps : Nat) {s : ReasonSearch}, Good p head lower target s →
      Good p head lower target (after p.trail p.arena steps s)
  | 0, _, h => h
  | steps + 1, _, h => Good.after hok hhead steps (h.next hok hhead)

theorem good_start {i : Nat} (hl : p.Lies i l) (hpos : 0 < p.trail.levelOf l)
    (hm : MarksAgree p.trail p.arena head lower m) :
    Good p head lower l (start p.trail p.arena l m) := by
  unfold start
  split
  · rename_i hnone
    refine ⟨iff_of_false Bool.false_ne_true fun hred => ?_, hm⟩
    obtain ⟨r, hr, -⟩ := redundant_iff.1 hred
    rw [hnone] at hr
    cases hr
  · rename_i r hr
    exact ⟨⟨.start hl hpos hr, id, fun hnot => ⟨hnot, by simp⟩⟩, hm⟩

end Agreement

/-! ## The search ends like the recursion -/

section Ending

variable {p : Propagator} {lists : Lit → List Watcher} {l : Lit} {stack : List Frame} {m : Marking}
  {s : ReasonSearch} {out : Bool × Marking}

/-- The search comes to the outcome of a recursion: it goes on with the stack, or it ends and all
    literals on the stack are marked as failed. -/
def Follows (p : Propagator) (s : ReasonSearch) (stack : List Frame) : Bool × Marking → Prop
  | (true, m) => ∃ steps, after p.trail p.arena steps s = searching stack m
  | (false, m) => ∃ steps m', after p.trail p.arena steps s = done false m' ∧
      m'.Same (failAll stack m)

theorem Follows.of_after {n : Nat} {s' : ReasonSearch} (hs : after p.trail p.arena n s = s')
    (h : Follows p s' stack out) : Follows p s stack out := by
  subst hs
  obtain ⟨redundant, m⟩ := out
  cases redundant with
  | true =>
    obtain ⟨steps, he⟩ := h
    exact ⟨steps + n, (after_add p.trail p.arena steps n s).trans he⟩
  | false =>
    obtain ⟨steps, m', he, hsame⟩ := h
    exact ⟨steps + n, m', (after_add p.trail p.arena steps n s).trans he, hsame⟩

/-- Failed marks can be recorded from either end of the stack. -/
theorem same_failAll_cons (l : Lit) (rest : List Lit) : ∀ (stack : List Frame) (m : Marking),
    (failAll ((l, rest) :: stack) m).Same (failAll stack (m.record l.var .failed))
  | [], _ => .refl _
  | _ :: stack, m =>
    (Marking.same_record_record _ _ _ _).trans ((same_failAll_cons l rest stack m).record _ _)

/-- Literals that are put to the test one after the other are looked at in that order. -/
theorem follows_allWith {depth : Nat} {test : Lit → Marking → Bool × Marking} {i : Nat}
    (hsupported : ∀ q s, p.Supported s.marks q → test q s = (true, s))
    (hnone : ∀ q s, ¬ p.Supported s.marks q → p.trail.reasonOf q = none → test q s = (false, s))
    (hsome : ∀ q s r, ¬ p.Supported s.marks q → p.trail.reasonOf q = some r → test q s =
      if markOf s.marks q.var = .unseen then isRedundantVia p.trail p.arena depth q r s
      else (false, s))
    (hdeeper : ∀ q r j m stack, j < i → p.Lies j q → 0 < p.trail.levelOf q →
      p.trail.reasonOf q = some r →
      Follows p (searching ((q, otherLits p.arena r) :: stack) m) stack
        (isRedundantVia p.trail p.arena depth q r m)) :
    ∀ (items : List Lit) (m : Marking), (∀ q ∈ items, ∃ j < i, p.Lies j q) →
      Follows p (searching ((l, items) :: stack) m) ((l, []) :: stack) (allWith test items m)
  | [], m, _ => ⟨0, rfl⟩
  | q :: rest, m, hitems => by
    obtain ⟨⟨j, hj, hlies⟩, hrest⟩ := List.forall_mem_cons.1 hitems
    have hgoes : ∀ m, Follows p (searching ((l, rest) :: stack) m) ((l, []) :: stack)
        (allWith test rest m) := fun m =>
      follows_allWith hsupported hnone hsome hdeeper rest m hrest
    have hfails : next p.trail p.arena (searching ((l, q :: rest) :: stack) m) =
        done false (failAll ((l, rest) :: stack) m) →
        Follows p (searching ((l, q :: rest) :: stack) m) ((l, []) :: stack) (false, m) :=
      fun he => ⟨1, _, he, .refl _⟩
    unfold allWith
    by_cases hq : p.Supported m.marks q
    · rw [hsupported q m hq]
      exact .of_after (n := 1) (next_supported hq) (hgoes m)
    cases hr : p.trail.reasonOf q with
    | none =>
      rw [hnone q m hq hr]
      exact hfails (next_none hq hr)
    | some r =>
      rw [hsome q m r hq hr]
      have hnext : next p.trail p.arena (searching ((l, q :: rest) :: stack) m) = _ :=
        next_some hq hr
      split at hnext
      · rename_i hunseen
        rw [if_pos hunseen]
        have hpos : 0 < p.trail.levelOf q := Nat.pos_of_ne_zero fun h0 => hq (.inl h0)
        have hvia := hdeeper q r j m ((l, rest) :: stack) hj hlies hpos hr
        generalize isRedundantVia p.trail p.arena depth q r m = out at hvia ⊢
        obtain ⟨redundant, m'⟩ := out
        cases redundant with
        | true =>
          obtain ⟨steps, he⟩ := hvia
          exact .of_after (n := 1) hnext (.of_after he (hgoes m'))
        | false => exact .of_after (n := 1) hnext hvia
      · rename_i hseen
        rw [if_neg hseen]
        exact hfails hnext

/-- The search follows the recursion, as far as chains of reasons can reach. -/
theorem follows_isRedundantVia (hok : p.Ok lists) : ∀ (depth i : Nat) (l : Lit) (r : ClauseRef)
    (m : Marking) (stack : List Frame), i < depth → p.Lies i l → 0 < p.trail.levelOf l →
    p.trail.reasonOf l = some r →
    Follows p (searching ((l, otherLits p.arena r) :: stack) m) stack
      (isRedundantVia p.trail p.arena depth l r m)
  | 0, _, _, _, _, _, hi, _, _, _ => absurd hi (Nat.not_lt_zero _)
  | depth + 1, i, l, r, m, stack, hi, hl, hpos, hr => by
    obtain ⟨test, hsupported, hnone, hsome, hsucc⟩ := isRedundantVia_succ p depth l r m
    have hitems : Follows p (searching ((l, otherLits p.arena r) :: stack) m) ((l, []) :: stack)
        (allWith test (otherLits p.arena r) m) :=
      follows_allWith hsupported hnone hsome
        (fun q r j m stack hj => follows_isRedundantVia hok depth j q r m stack (by omega))
        (otherLits p.arena r) m fun q hq => hl.other hok hpos hr hq
    rw [hsucc]
    generalize allWith test (otherLits p.arena r) m = out at hitems ⊢
    obtain ⟨redundant, m'⟩ := out
    cases redundant with
    | true =>
      obtain ⟨steps, he⟩ := hitems
      exact .of_after he ⟨1, rfl⟩
    | false =>
      obtain ⟨steps, m'', he, hsame⟩ := hitems
      exact ⟨steps, m'', he, hsame.trans (same_failAll_cons l [] stack m')⟩

/-- **The search ends**, with the answer and the marks of the recursion. -/
theorem ends (hok : p.Ok lists) {i : Nat} (hl : p.Lies i l) (hpos : 0 < p.trail.levelOf l)
    (m : Marking) : ∃ steps m', after p.trail p.arena steps (start p.trail p.arena l m) =
      done (isRedundant p.trail p.arena l m).1 m' ∧
    m'.Same (isRedundant p.trail p.arena l m).2 := by
  unfold start isRedundant
  cases hr : p.trail.reasonOf l with
  | none => exact ⟨0, m, rfl, .refl m⟩
  | some r =>
    have hdepth : i < p.trail.numVars := Nat.lt_of_lt_of_le hl.lt hok.trail.size_le
    have hfollows := follows_isRedundantVia hok p.trail.numVars i l r m [] hdepth hl hpos hr
    dsimp only
    generalize isRedundantVia p.trail p.arena p.trail.numVars l r m = out at hfollows ⊢
    obtain ⟨redundant, m'⟩ := out
    cases redundant with
    | true =>
      obtain ⟨steps, he⟩ := hfollows
      refine ⟨1 + steps, m', ?_, .refl m'⟩
      rw [after_add, he]
      rfl
    | false => exact hfollows

end Ending

end ReasonSearch

end ConfigSampler
