import ConfigSampler.Proofs.Formulas
import Mathlib.Data.Finset.Card
import Mathlib.Data.Fintype.Pi

/-!
# Solutions of a formula

The solutions of a formula are the full sets that satisfy it (`Cnf.mem_solutions`), a finite set
that can be computed.  For full sets the meaning of a formula is that of its clauses
(`Cnf.WellFormed.isSatisfiedBy_iff`).
-/

set_option autoImplicit false

namespace ConfigSampler

open LiteralSet

/-- The assignment of `n` variables with the given values; further variables are deselected. -/
def Assignment.ofValues {n : Nat} (f : Fin n → Bool) : Assignment := fun v =>
  if h : v - 1 < n then f ⟨v - 1, h⟩ else false

namespace Cnf

variable {cnf : Cnf} {config : LiteralSet}

/-- The full sets that satisfy the formula. -/
def solutions (cnf : Cnf) : Finset LiteralSet :=
  (Finset.univ.image fun f : Fin cnf.size → Bool => ofAssignment cnf.size (.ofValues f)).filter
    fun config => cnf.isSatisfiedBy config = true

theorem mem_solutions :
    config ∈ cnf.solutions ↔ config.IsFull cnf.size ∧ cnf.isSatisfiedBy config = true := by
  unfold solutions
  rw [Finset.mem_filter, Finset.mem_image]
  refine and_congr_left fun _ => ⟨?_, fun hfull => ?_⟩
  · rintro ⟨f, -, rfl⟩
    exact isFull_ofAssignment _ _
  · refine ⟨fun i => config.assignment (i.val + 1), Finset.mem_univ _, ?_⟩
    conv_rhs => rw [hfull.eq_ofAssignment]
    refine ofAssignment_congr fun v hv hle => ?_
    have hlt : v - 1 < cnf.size := by omega
    simp only [Assignment.ofValues, hlt, dite_true]
    rw [Nat.sub_add_cancel hv]

example : eitherOf.solutions.card = 3 := by decide +kernel

/-- A full set satisfies a well-formed formula if its assignment satisfies every clause. -/
theorem WellFormed.isSatisfiedBy_iff (h : cnf.WellFormed) (hfull : config.IsFull cnf.size) :
    cnf.isSatisfiedBy config = true ↔ cnf.Models config.assignment := by
  simp only [isSatisfiedBy, Models, clauseList, Assignment.SatisfiesAll, Assignment.Satisfies,
    Array.all_eq_true_iff_forall_mem, List.any_eq_true, List.forall_mem_map, Array.mem_toList_iff]
  refine forall₂_congr fun clause hc => exists_congr fun x => and_congr_right fun hx => ?_
  rw [hfull.contains_iff]
  exact ⟨fun hall => hall.2.2, fun hmakes => ⟨ne_zero_of_mem_literals hx, h clause hc x hx, hmakes⟩⟩

/-- The meaning of a well-formed formula is about its variables only. -/
theorem WellFormed.concerns (h : cnf.WellFormed) : Assignment.Concerns cnf.size cnf.Models := by
  intro α β hsame hα clause hc
  obtain ⟨x, hx, hmakes⟩ := hα clause hc
  obtain ⟨set, hset, rfl⟩ := List.mem_map.1 hc
  refine ⟨x, hx, ?_⟩
  have hne := ne_zero_of_mem_literals hx
  rw [Assignment.Makes, ← hsame x.natAbs (by omega) (h set (by simpa using hset) x hx)]
  exact hmakes

/-- The solutions are the full sets of the assignments that satisfy the clauses. -/
theorem WellFormed.mem_solutions_iff (h : cnf.WellFormed) :
    config ∈ cnf.solutions ↔ config.IsFull cnf.size ∧ cnf.Models config.assignment := by
  rw [mem_solutions]
  exact and_congr_right fun hfull => h.isSatisfiedBy_iff hfull

end Cnf

end ConfigSampler
