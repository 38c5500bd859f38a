/-!
# Solver literals

Inside the solver variables are numbered from zero, and a literal is a single code: `2 * v` for
variable `v` and `2 * v + 1` for its negation, so that literals can be used as table keys.
`Lit.ofInt` and `Lit.toInt` convert between these and signed integers, which count from one.
-/

set_option autoImplicit false

namespace ConfigSampler

/-- A variable or its negation. -/
structure Lit where
  code : Nat
deriving DecidableEq, Repr

namespace Lit

instance : Inhabited Lit := ⟨⟨0⟩⟩

/-- The literal of a variable, negated or not. -/
def ofVar (v : Nat) (negated : Bool) : Lit := ⟨2 * v + if negated then 1 else 0⟩

/-- The literal's variable. -/
def var (l : Lit) : Nat := l.code / 2

/-- The literal negates its variable. -/
def negated (l : Lit) : Bool := l.code % 2 == 1

/-- The complement of a literal. -/
def negate (l : Lit) : Lit := ⟨if l.code % 2 = 0 then l.code + 1 else l.code - 1⟩

/-- The literal of a non-zero integer. -/
def ofInt (x : Int) : Lit := ofVar (x.natAbs - 1) (decide (x < 0))

/-- The literal as a signed integer. -/
def toInt (l : Lit) : Int := if l.negated then -((l.var : Int) + 1) else (l.var : Int) + 1

/-- The literal as a variable name, with a mark if it is negated. -/
def render (l : Lit) : String :=
  (if l.negated then "¬x" else "x") ++ toString (l.var + 1)

@[simp]
theorem negate_negate (l : Lit) : l.negate.negate = l := by
  cases l with
  | mk code =>
    simp only [negate, mk.injEq]
    split <;> split <;> omega

@[simp]
theorem var_negate (l : Lit) : l.negate.var = l.var := by
  cases l with
  | mk code => simp only [negate, var]; split <;> omega

@[simp]
theorem var_ofVar (v : Nat) (b : Bool) : (ofVar v b).var = v := by
  simp only [ofVar, var]; split <;> omega

@[simp]
theorem negated_ofVar (v : Nat) (b : Bool) : (ofVar v b).negated = b := by
  cases b <;> simp [ofVar, negated]

/-- Signed integers and literals stand for each other. -/
theorem toInt_ofInt {x : Int} (h : x ≠ 0) : (ofInt x).toInt = x := by
  simp only [ofInt, toInt, negated_ofVar, var_ofVar, decide_eq_true_eq]
  split <;> omega

end Lit

end ConfigSampler
