import ConfigSampler.Proofs.Combinations
import ConfigSampler.Proofs.CoveringMoves

/-!
# Working configurations

A working configuration fits if its model contains the literals to keep (`Working.Fits`).  While a
candidate is covered, working configurations are only extended or added (`Covering.Move.extends`), and
afterwards one of them keeps the candidate, or no assignment makes it true, or there was no room for
it (`Covering.Move.decided`).
-/

set_option autoImplicit false

namespace ConfigSampler

namespace LiteralSet

variable {s t u : LiteralSet}

/-- The set has all literals of another one. -/
def Includes (s t : LiteralSet) : Prop := ∀ x ∈ t.literals, x ∈ s.literals

theorem Includes.trans (h : s.Includes t) (h' : t.Includes u) : s.Includes u :=
  fun x hx => h x (h' x hx)

theorem includes_union_left (s t : LiteralSet) : (s.union t).Includes s :=
  fun _ hx => mem_literals_union.2 (.inl hx)

theorem includes_union_right (s t : LiteralSet) : (s.union t).Includes t :=
  fun _ hx => mem_literals_union.2 (.inr hx)

theorem Includes.union (hs : u.Includes s) (ht : u.Includes t) : u.Includes (s.union t) :=
  fun x hx => (mem_literals_union.1 hx).elim (hs x) (ht x)

theorem includes_of_containsAll (h : s.containsAll t = true) : s.Includes t :=
  fun _ hx => mem_of_containsAll h hx

end LiteralSet

/-- Some assignment that `F` accepts makes all literals of the set true. -/
def Feasible (F : Assignment → Prop) (u : LiteralSet) : Prop :=
  ∃ α, F α ∧ ∀ x ∈ u.literals, α.Makes x

/-- All literals of the set belong to the first `n` variables. -/
def LiteralSet.Within (u : LiteralSet) (n : Nat) : Prop := ∀ x ∈ u.literals, x.natAbs ≤ n

theorem LiteralSet.Within.check {u : LiteralSet} {n : Nat} (h : u.Within n) :
    Cnf.checkLiteralsWithin n u.literals = .ok () :=
  Cnf.checkLiteralsWithin_eq_ok.2 fun x hx => ⟨LiteralSet.ne_zero_of_mem_literals hx, h x hx⟩

theorem Feasible.not_contradictory {F : Assignment → Prop} {u : LiteralSet} (h : Feasible F u) :
    u.isContradictory = false := by
  obtain ⟨α, -, hmakes⟩ := h
  unfold LiteralSet.isContradictory
  rw [List.any_eq_false]
  intro x hx hneg
  have hne := LiteralSet.ne_zero_of_mem_literals hx
  exact (Assignment.makes_neg hne).1 (hmakes _ (LiteralSet.mem_of_contains hneg)) (hmakes x hx)

/-- The model is accepted by `F` and contains the literals to keep. -/
structure Working.Fits (w : Working) (n : Nat) (F : Assignment → Prop) : Prop where
  full : w.witness.IsFull n
  accepted : F w.witness.assignment
  includes : w.witness.Includes w.kept

theorem Working.Fits.within {w : Working} {n : Nat} {F : Assignment → Prop} (h : w.Fits n F) :
    w.kept.Within n := by
  intro x hx
  exact (h.full.mem_literals.1 (h.includes x hx)).2.1

/-- The model makes the literals to keep true. -/
theorem Working.Fits.feasible {w : Working} {n : Nat} {F : Assignment → Prop} (h : w.Fits n F) :
    Feasible F w.kept :=
  ⟨w.witness.assignment, h.accepted, fun x hx => (h.full.mem_literals.1 (h.includes x hx)).2.2⟩

/-- Models are full assignments that `F` accepts, and contain the assumptions. -/
def Answers.Truthful (A : Answers) (n : Nat) (F : Assignment → Prop) : Prop :=
  ∀ assumptions config, A.Model assumptions config → config.IsFull n ∧ F config.assignment ∧
    ∀ x ∈ assumptions, config.contains x = true

namespace Covering

variable {g g' : Covering} {A : Answers} {n i : Nat} {F : Assignment → Prop} {u : LiteralSet}
  {calm : Prop} {outcome : Except SampleError Outcome}

/-- There is room for the working configurations, and all of them fit. -/
structure Stocked (g : Covering) (n : Nat) (F : Assignment → Prop) : Prop where
  room : g.working.size ≤ g.maxConfigs
  fits : ∀ w ∈ g.working, w.Fits n F

/-- Some working configuration has to keep the literals of the set. -/
def Keeps (g : Covering) (u : LiteralSet) : Prop := ∃ w ∈ g.working, w.kept.Includes u

/-- Nothing is dropped, and the rest of the state is the same, up to the counts and the mark of a
    truncation. -/
structure Extends (g g' : Covering) : Prop where
  strength : g'.strength = g.strength
  groups : g'.groups = g.groups
  maxConfigs : g'.maxConfigs = g.maxConfigs
  cursor : g'.cursor = g.cursor
  pending : g'.pending = g.pending
  phase : g'.phase = g.phase
  keeps : ∀ u, g.Keeps u → g'.Keeps u

theorem Extends.refl (g : Covering) : g.Extends g := ⟨rfl, rfl, rfl, rfl, rfl, rfl, fun _ h => h⟩

/-! ## Changes of working configurations -/

theorem stocked_setWorking (h : g.Stocked n F) {w : Working} (hw : w.Fits n F) :
    (g.setWorking i w).Stocked n F := by
  refine ⟨by simpa [setWorking] using h.room, fun w' hw' => ?_⟩
  rcases Array.mem_or_eq_of_mem_setIfInBounds hw' with hmem | rfl
  · exact h.fits w' hmem
  · exact hw

/-- A working configuration that is replaced by one that keeps more. -/
theorem extends_setWorking (hi : i < g.working.size) {w : Working}
    (hw : w.kept.Includes (g.workingAt i).kept) : g.Extends (g.setWorking i w) := by
  refine ⟨rfl, rfl, rfl, rfl, rfl, rfl, fun u hu => ?_⟩
  obtain ⟨w', hw', hkept⟩ := hu
  obtain ⟨j, hj, rfl⟩ := Array.mem_iff_getElem.1 hw'
  by_cases hij : j = i
  · subst hij
    have hat : g.workingAt j = g.working[j] := by
      simp [workingAt, Array.getD_eq_getD_getElem?, hj]
    exact ⟨w, Array.mem_iff_getElem.2 ⟨j, by simpa [setWorking] using hj, by simp [setWorking]⟩,
      hw.trans (hat ▸ hkept)⟩
  · refine ⟨g.working[j], Array.mem_iff_getElem.2 ⟨j, by simpa [setWorking] using hj, ?_⟩, hkept⟩
    exact Array.getElem_setIfInBounds_ne hj (Ne.symm hij)

theorem keeps_setWorking (hi : i < g.working.size) {w : Working} (hw : w.kept.Includes u) :
    (g.setWorking i w).Keeps u :=
  ⟨w, Array.mem_iff_getElem.2 ⟨i, by simpa [setWorking] using hi, by simp [setWorking]⟩, hw⟩

theorem keeps_push (u witness : LiteralSet) :
    Keeps { g with working := g.working.push ⟨u, witness⟩ } u :=
  ⟨⟨u, witness⟩, Array.mem_push_self, fun _ hx => hx⟩

theorem keeps_of_isKept (h : g.isKept u = true) : g.Keeps u := by
  obtain ⟨i, hi, hc⟩ := Array.any_eq_true.1 h
  exact ⟨_, Array.getElem_mem hi, LiteralSet.includes_of_containsAll hc⟩

/-! ## Moves -/

/-- **A move drops nothing** that has to be kept. -/
theorem Move.extends (h : Move A g u outcome g') : g.Extends g' := by
  cases h with
  | failed => exact .refl g
  | interrupted => exact .refl g
  | kept => exact ⟨rfl, rfl, rfl, rfl, rfl, rfl, fun _ h => h⟩
  | @joined i witness hi =>
    have hset := extends_setWorking hi (w := ⟨(g.workingAt i).kept.union u, witness⟩)
      (LiteralSet.includes_union_left _ _)
    exact ⟨rfl, rfl, rfl, rfl, rfl, rfl, hset.keeps⟩
  | opened =>
    refine ⟨rfl, rfl, rfl, rfl, rfl, rfl, ?_⟩
    rintro v ⟨w, hw, hv⟩
    exact ⟨w, Array.mem_push_of_mem _ hw, hv⟩
  | infeasible => exact ⟨rfl, rfl, rfl, rfl, rfl, rfl, fun _ h => h⟩
  | unplaced => exact ⟨rfl, rfl, rfl, rfl, rfl, rfl, fun _ h => h⟩

/-- Models are right, so the working configurations still fit. -/
theorem Move.stocked_of_truthful (hA : A.Truthful n F) (h : Move A g u outcome g')
    (hg : g.Stocked n F) : g'.Stocked n F := by
  cases h with
  | failed => exact hg
  | interrupted => exact hg
  | kept => exact ⟨hg.room, hg.fits⟩
  | @joined i witness hi hwitness =>
    have hfit := hg.fits _ (mem_working_of_lt hi)
    have hw : Working.Fits ⟨(g.workingAt i).kept.union u, witness⟩ n F := by
      rcases hwitness with ⟨rfl, hcontains⟩ | hmodel
      · exact ⟨hfit.full, hfit.accepted,
          hfit.includes.union (LiteralSet.includes_of_containsAll hcontains)⟩
      · obtain ⟨hfull, hF, hcontains⟩ := hA _ _ hmodel
        exact ⟨hfull, hF, fun x hx => hfull.contains_iff_mem.1 (hcontains x hx)⟩
    obtain ⟨hroom, hfits⟩ := stocked_setWorking (i := i) hg hw
    exact ⟨hroom, hfits⟩
  | @opened witness hroom _ hmodel =>
    obtain ⟨hfull, hF, hcontains⟩ := hA _ _ hmodel
    refine ⟨?_, fun w hw => ?_⟩
    · show (g.working.push ⟨u, witness⟩).size ≤ g.maxConfigs
      rw [Array.size_push]
      exact hroom
    · rcases Array.mem_push.1 hw with hw | rfl
      · exact hg.fits w hw
      · exact ⟨hfull, hF, fun x hx => hfull.contains_iff_mem.1 (hcontains x hx)⟩
  | infeasible => exact ⟨hg.room, hg.fits⟩
  | unplaced => exact ⟨hg.room, hg.fits⟩

theorem Move.stocked (h : Move (.right calm n F) g u outcome g') (hg : g.Stocked n F) :
    g'.Stocked n F :=
  h.stocked_of_truthful (fun _ _ hmodel => hmodel) hg

/-- **A candidate that is settled** is kept in a working configuration, or no assignment makes it
    true, or there was no room for it. -/
theorem Move.decided (h : Move (.right calm n F) g u (.ok .settled) g') :
    g'.truncated = true ∨ g'.Keeps u ∨ ¬ Feasible F u := by
  cases h with
  | kept hkept => exact .inr (.inl (keeps_of_isKept hkept))
  | joined hi => exact .inr (.inl (keeps_setWorking hi (LiteralSet.includes_union_right _ _)))
  | @opened witness => exact .inr (.inl (keeps_push u witness))
  | infeasible hnone =>
    refine .inr (.inr ?_)
    rintro ⟨α, hα, hmakes⟩
    obtain ⟨x, hx, hnot⟩ := hnone α hα
    exact hnot (hmakes x hx)
  | unplaced => exact .inl rfl

/-- In a calm run only the search can give up. -/
theorem Move.gives_up {e : SampleError} (h : Move (.right calm n F) g u (.error e) g')
    (hu : u.Within n) (hg : g.Stocked n F) (hcalm : calm) : e = .stepLimitReached := by
  cases h with
  | failed hfails =>
    have hchecked : ∀ v : LiteralSet, v.Within n → (Answers.right calm n F).Fails v.literals e →
        e = .stepLimitReached := by
      intro v hv hfail
      refine (hfail hcalm).resolve_right fun hcheck => ?_
      rw [hv.check] at hcheck
      cases hcheck
    rcases hfails with hfail | ⟨w, hw, hfail⟩
    · exact hchecked u hu hfail
    · refine hchecked _ (fun x hx => ?_) hfail
      rcases LiteralSet.mem_literals_union.1 hx with hx | hx
      · exact (hg.fits w hw).within x hx
      · exact hu x hx

end Covering

end ConfigSampler
