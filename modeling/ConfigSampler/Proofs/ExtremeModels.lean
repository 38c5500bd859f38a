import ConfigSampler.Proofs.Histories
import Mathlib.Data.Finset.Basic
import Mathlib.Order.Interval.Finset.Nat
import Mathlib.Order.Minimal

/-!
# Models that select few or many variables

A model is settled by the assumptions and by those of its literals that the polarity rule allows
(`Assignment.IsExtreme`).  So if free decisions only deselect variables, no other model of the clauses
and the assumptions selects fewer of the same variables, and if they only select variables, none
selects more (`models_extreme_after`).
-/

set_option autoImplicit false

namespace ConfigSampler

namespace Assignment

variable {α β : Assignment} {n v : Nat} {F : Assignment → Prop} {l : Lit}

/-- The variables, of the first `n`, that the assignment makes true. -/
def selected (n : Nat) (α : Assignment) : Finset Nat := {v ∈ Finset.Icc 1 n | α v = true}

theorem mem_selected : v ∈ α.selected n ↔ (0 < v ∧ v ≤ n) ∧ α v = true := by
  rw [selected, Finset.mem_filter, Finset.mem_Icc, Nat.succ_le_iff]

/-- A literal that holds selects its variable, or deselects it. -/
theorem holds_iff_mem_selected (hl : l.var < n) :
    l.Holds α ↔ (l.var + 1 ∈ α.selected n ↔ l.negated = false) := by
  rw [mem_selected, Lit.Holds]
  cases α (l.var + 1) <;> cases l.negated <;> simp <;> omega

theorem holds_ofVar_iff (hv : 0 < v) (hle : v ≤ n) (negated : Bool) :
    (Lit.ofVar (v - 1) negated).Holds α ↔ (v ∈ α.selected n ↔ negated = false) := by
  have hlt : (Lit.ofVar (v - 1) negated).var < n := by
    rw [Lit.var_ofVar]
    omega
  rw [holds_iff_mem_selected hlt, Lit.var_ofVar, Lit.negated_ofVar, Nat.sub_add_cancel hv]

/-- An accepted assignment that keeps the allowed literals of an extreme one keeps the value of every
    variable. -/
theorem IsExtreme.mem_selected_iff {polarity : Polarity} (h : α.IsExtreme polarity n F) (hβ : F β)
    (hkept : ∀ l : Lit, l.var < n → polarity.Allows l → l.Holds α → l.Holds β) :
    v ∈ β.selected n ↔ v ∈ α.selected n := by
  by_cases hv : 0 < v ∧ v ≤ n
  · have hlt : ∀ negated, (Lit.ofVar (v - 1) negated).var < n := by
      intro negated
      rw [Lit.var_ofVar]
      omega
    have hsame := fun negated => h β hβ hkept _ (hlt negated)
    simp only [holds_ofVar_iff hv.1 hv.2] at hsame
    have hselected := hsame false
    have hdeselected := hsame true
    simp only [iff_true, Bool.true_eq_false, iff_false] at hselected hdeselected
    exact ⟨fun hmem => by_contra fun hnot => hdeselected hnot hmem, hselected⟩
  · simp [mem_selected, hv]

/-- Of the accepted assignments, one that is extreme under the negative rule is minimal. -/
theorem IsExtreme.selected_subset (h : α.IsExtreme .negative n F) (hβ : F β)
    (hle : β.selected n ⊆ α.selected n) : α.selected n ⊆ β.selected n := by
  refine fun v hv => (h.mem_selected_iff hβ fun l hl hallowed hholds => ?_).2 hv
  -- what is not selected stays so
  have hnegated : l.negated = true := hallowed
  rw [holds_iff_mem_selected hl] at hholds ⊢
  simp only [hnegated, Bool.true_eq_false, iff_false] at hholds ⊢
  exact fun hmem => hholds (hle hmem)

/-- Of the accepted assignments, one that is extreme under the positive rule is maximal. -/
theorem IsExtreme.subset_selected (h : α.IsExtreme .positive n F) (hβ : F β)
    (hle : α.selected n ⊆ β.selected n) : β.selected n ⊆ α.selected n := by
  refine fun v hv => (h.mem_selected_iff hβ fun l hl hallowed hholds => ?_).1 hv
  -- what is selected stays so
  have hpositive : l.negated = false := hallowed
  rw [holds_iff_mem_selected hl] at hholds ⊢
  simp only [hpositive, iff_true] at hholds ⊢
  exact hle hholds

end Assignment

/-- The variables are those that some assignment selects that satisfies the clauses and makes the
    assumptions true. -/
def Selects (n : Nat) (clauses : List (List Int)) (assumptions : List Int)
    (vars : Finset Nat) : Prop :=
  ∃ α : Assignment, α.SatisfiesAll clauses ∧ (∀ x ∈ assumptions, α.Makes x) ∧ α.selected n = vars

/-- **Models are extreme**: after any operations, and under any settings, a model that was found
    under the negative rule selects a minimal set of variables among the solutions that make the
    assumptions true, and one that was found under the positive rule a maximal set. -/
theorem models_extreme_after {cnf : Cnf} (hcnf : cnf.WellFormed) (settings : SolverSettings)
    (calls : List Call) {assumptions : List Int} {config : LiteralSet}
    (h : (((Solver.ofCnf cnf settings).after calls).solve assumptions).1 = .ok (.model config)) :
    (((Solver.ofCnf cnf settings).after calls).polarity = .negative →
      Minimal (Selects cnf.size (cnf.clauseList ++ Call.clauses cnf.size calls) assumptions)
        (config.assignment.selected cnf.size)) ∧
    (((Solver.ofCnf cnf settings).after calls).polarity = .positive →
      Maximal (Selects cnf.size (cnf.clauseList ++ Call.clauses cnf.size calls) assumptions)
        (config.assignment.selected cnf.size)) := by
  have hstart : (Solver.ofCnf cnf settings).StandsFor cnf.size cnf.clauseList :=
    Solver.stands_ofCnf hcnf settings
  have hsolves := Solver.Stands.solve (Solver.StandsFor.after calls hstart) assumptions
  rw [h] at hsolves
  obtain ⟨-, -, -, hfull, hmodel, hcontains, hextreme⟩ := hsolves
  have hselects : Selects cnf.size (cnf.clauseList ++ Call.clauses cnf.size calls) assumptions
      (config.assignment.selected cnf.size) :=
    ⟨_, hmodel, fun x hx => (hfull.contains_iff.1 (hcontains x hx)).2.2, rfl⟩
  refine ⟨fun hpolarity => ⟨hselects, ?_⟩, fun hpolarity => ⟨hselects, ?_⟩⟩
  all_goals
    rw [hpolarity] at hextreme
    rintro _ ⟨α, hα, hmakes, rfl⟩ hle
  · exact hextreme.selected_subset ⟨hα, hmakes⟩ hle
  · exact hextreme.subset_selected ⟨hα, hmakes⟩ hle

/-- A variable on its own is not selected under the negative rule, also if it was selected in an
    earlier solve, and is selected under the positive rule. -/
theorem models_extreme_after_free :
    ((((Solver.ofCnf (Cnf.ofVariables (Variables.anonymous 1)) {}).after
        [.setPolarity .positive, .solve [], .setPolarity .negative]).solve []).1 =
          .ok (.model ⟨.indexed, #[-1]⟩) ∧
      Minimal (Selects 1 [] []) ((LiteralSet.mk .indexed #[-1]).assignment.selected 1)) ∧
    ((((Solver.ofCnf (Cnf.ofVariables (Variables.anonymous 1)) {}).after
        [.solve [], .setPolarity .positive]).solve []).1 = .ok (.model ⟨.indexed, #[1]⟩) ∧
      Maximal (Selects 1 [] []) ((LiteralSet.mk .indexed #[1]).assignment.selected 1)) := by
  have hcnf : (Cnf.ofVariables (Variables.anonymous 1)).WellFormed := Cnf.wellFormed_ofVariables _
  have hnegative : (((Solver.ofCnf (Cnf.ofVariables (Variables.anonymous 1)) {}).after
      [.setPolarity .positive, .solve [], .setPolarity .negative]).solve []).1 =
        .ok (.model ⟨.indexed, #[-1]⟩) := by decide +kernel
  have hpositive : (((Solver.ofCnf (Cnf.ofVariables (Variables.anonymous 1)) {}).after
      [.solve [], .setPolarity .positive]).solve []).1 = .ok (.model ⟨.indexed, #[1]⟩) := by
    decide +kernel
  exact ⟨⟨hnegative, (models_extreme_after hcnf {} _ hnegative).1 (by decide +kernel)⟩,
    hpositive, (models_extreme_after hcnf {} _ hpositive).2 (by decide +kernel)⟩

end ConfigSampler
