import ConfigSampler.Solver.Literal

/-!
# Truth of literals

An assignment gives every variable a truth value, variables counted from one as in signed integers.
`Assignment.Makes` is the truth of a signed integer and `Lit.Holds` that of a literal of the solver;
`Lit.holds_ofInt` ties the two together.
-/

set_option autoImplicit false

namespace ConfigSampler

/-- A truth value for every variable, counted from one. -/
abbrev Assignment := Nat → Bool

namespace Assignment

/-- The assignment makes a signed integer true. -/
def Makes (α : Assignment) (x : Int) : Prop := α x.natAbs = decide (0 < x)

/-- The assignment makes some literal of a clause true. -/
def Satisfies (α : Assignment) (clause : List Int) : Prop := ∃ x ∈ clause, α.Makes x

/-- The assignment satisfies every clause of a set of clauses. -/
def SatisfiesAll (α : Assignment) (clauses : List (List Int)) : Prop :=
  ∀ clause ∈ clauses, α.Satisfies clause

/-- The condition is about the first `n` variables only. -/
def Concerns (n : Nat) (F : Assignment → Prop) : Prop :=
  ∀ α β : Assignment, (∀ v, 0 < v → v ≤ n → α v = β v) → F α → F β

theorem makes_neg {α : Assignment} {x : Int} (hx : x ≠ 0) : α.Makes (-x) ↔ ¬ α.Makes x := by
  have hpos : decide (0 < -x) = !decide (0 < x) := by
    by_cases h : 0 < x
    · simp [h]; omega
    · simp [h]; omega
  simp only [Makes, Int.natAbs_neg, hpos]
  cases α x.natAbs <;> cases decide (0 < x) <;> simp

end Assignment

namespace Lit

/-- The assignment makes the literal true. -/
def Holds (α : Assignment) (l : Lit) : Prop := α (l.var + 1) = !l.negated

theorem code_eq (l : Lit) : l.code = 2 * l.var + if l.negated then 1 else 0 := by
  simp only [var, negated, beq_iff_eq]
  split <;> omega

theorem eq_of_var_of_negated {l m : Lit} (hv : l.var = m.var) (hn : l.negated = m.negated) :
    l = m := by
  have h : l.code = m.code := by rw [code_eq, code_eq, hv, hn]
  cases l; cases m; cases h; rfl

@[simp]
theorem negated_negate (l : Lit) : l.negate.negated = !l.negated := by
  simp only [negate, negated]
  split <;> grind

@[simp]
theorem ofVar_var_negated (l : Lit) : ofVar l.var l.negated = l :=
  eq_of_var_of_negated (by simp) (by simp)

theorem eq_or_eq_negate {l m : Lit} (h : l.var = m.var) : l = m ∨ l = m.negate := by
  by_cases hn : l.negated = m.negated
  · exact .inl (eq_of_var_of_negated h hn)
  · refine .inr (eq_of_var_of_negated (by simpa using h) ?_)
    rw [negated_negate]
    cases hl : l.negated <;> cases hm : m.negated <;> simp_all

theorem negate_eq_comm {l m : Lit} : l.negate = m ↔ l = m.negate :=
  ⟨fun h => by rw [← h, negate_negate], fun h => by rw [h, negate_negate]⟩

theorem negate_inj {l m : Lit} : l.negate = m.negate ↔ l = m := by
  rw [negate_eq_comm, negate_negate]

theorem negate_ne (l : Lit) : l.negate ≠ l := fun h => by simpa using congrArg negated h

theorem code_lt_iff {l : Lit} {n : Nat} : l.code < 2 * n ↔ l.var < n := by
  simp only [var]; omega

theorem holds_negate {α : Assignment} {l : Lit} : l.negate.Holds α ↔ ¬ l.Holds α := by
  simp only [Holds, var_negate, negated_negate]
  cases α (l.var + 1) <;> cases l.negated <;> simp

/-- A non-zero integer and the literal it stands for have the same truth value. -/
theorem holds_ofInt {α : Assignment} {x : Int} (hx : x ≠ 0) :
    (ofInt x).Holds α ↔ α.Makes x := by
  have hvar : x.natAbs - 1 + 1 = x.natAbs := by omega
  have hpos : decide (0 < x) = !decide (x < 0) := by
    by_cases h : x < 0
    · simp [h]; omega
    · simp [h]; omega
  simp [ofInt, Holds, Assignment.Makes, hvar, hpos]

theorem var_ofInt (x : Int) : (ofInt x).var = x.natAbs - 1 := by simp [ofInt]

end Lit

end ConfigSampler
