import ConfigSampler.Proofs.CoveringLedger
import ConfigSampler.Proofs.Requests

/-!
# Candidates of a request

A request for coverage plans the combinations of some strength of some groups (`Request.plan`).  Those
without contradiction are its candidates, in the order in which a run decides them
(`candidateList_eq`).  Whether some solution contains a combination can be computed (`Cnf.allows`).
-/

set_option autoImplicit false

namespace ConfigSampler

open LiteralSet

/-- All combinations of `t` expressions of one group, each at a place of its own, group by group. -/
def combinations (t : Nat) (groups : List ExpressionGroup) : List (List LiteralSet) :=
  groups.flatMap fun group => (choiceList group.size t).map group.pick

/-- The combinations that hold no literal together with its complement. -/
def consistentCombinations (t : Nat) (groups : List ExpressionGroup) : List (List LiteralSet) :=
  (combinations t groups).filter areConsistent

/-- The literals of all expressions. -/
def unionOf (exprs : List LiteralSet) : LiteralSet := ofList (exprs.flatMap (·.literals))

/-- The strength and the groups whose combinations a request asks for. -/
def Request.plan (cnf : Cnf) : Request → Option (Nat × List ExpressionGroup)
  | .random _ => none
  | .covering t given _ => some (t, given.getD [Covering.literalGroup cnf.size])
  | .feature name =>
    match cnf.vars.indexOf name with
    | .error _ => none
    | .ok var => some (1, [#[ofList [(var : Int)], ofList [-(var : Int)]]])

/-- The number of configurations that a request for coverage may yield. -/
def Request.limit (settings : SampleSettings) : Request → Nat
  | .random count => min count settings.maxSize
  | .covering _ _ limit => min limit settings.maxSize
  | .feature _ => settings.maxSize

/-- The set contains all literals of all expressions. -/
def LiteralSet.containsEach (config : LiteralSet) (exprs : List LiteralSet) : Bool :=
  exprs.all config.containsAll

/-- Some solution contains all literals of the expressions. -/
def Cnf.allows (cnf : Cnf) (exprs : List LiteralSet) : Bool :=
  decide (∃ config ∈ cnf.solutions, config.containsEach exprs = true)

example : Cnf.eitherOf.allows [ofList [-1], ofList [2]] = true ∧
    Cnf.eitherOf.allows [ofList [-1], ofList [-2]] = false := by decide +kernel

variable {t : Nat} {groups : List ExpressionGroup} {exprs : List LiteralSet} {x : Int}

theorem mem_literals_unionOf :
    x ∈ (unionOf exprs).literals ↔ ∃ e ∈ exprs, x ∈ e.literals := by
  unfold unionOf
  rw [mem_literals_ofList, List.mem_flatMap]
  constructor
  · exact And.left
  · rintro ⟨e, he, hx⟩
    exact ⟨⟨e, he, hx⟩, ne_zero_of_mem_literals hx⟩

theorem unionAt_eq (group : ExpressionGroup) (places : List Nat) :
    unionAt group places = unionOf (group.pick places) := by
  unfold unionAt unionOf ExpressionGroup.pick
  rw [List.flatMap_map]

/-- A run decides the candidates in their order. -/
theorem candidateList_eq (t : Nat) (groups : List ExpressionGroup) :
    candidateList t groups = (consistentCombinations t groups).map unionOf := by
  have hall : (choicesOf t groups).map (fun choice => choice.1.pick choice.2) =
      combinations t groups := by
    unfold choicesOf combinations
    rw [List.map_flatMap]
    simp only [List.map_map, Function.comp_def]
  have hunion : ∀ choice : ExpressionGroup × List Nat,
      unionAt choice.1 choice.2 = unionOf (choice.1.pick choice.2) :=
    fun choice => unionAt_eq choice.1 choice.2
  unfold candidateList consistentUnions consistentCombinations
  rw [← hall]
  simp only [List.filter_map, List.map_map, Function.comp_def, hunion]
  rw [List.filter_congr fun choice _ => ?_]
  rw [← hunion, isContradictory_unionAt, Bool.not_not]

/-- The combinations of the groups are those of expressions at places of one group. -/
theorem mem_combinations : exprs ∈ combinations t groups ↔
    ∃ group ∈ groups, exprs.Sublist group.toList ∧ exprs.length = t := by
  simp only [combinations, List.mem_flatMap, List.mem_map, ← exists_isChoice_iff, IsChoice,
    mem_choiceList]
  exact exists_congr fun group => and_congr_right fun _ => exists_congr fun qs =>
    and_congr_right fun _ => eq_comm

/-- The planned combinations are those that the request asks for. -/
theorem Request.mem_combinations_of_plan {cnf : Cnf} {request : Request}
    (hplan : request.plan cnf = some (t, groups)) :
    exprs ∈ combinations t groups ↔ request.Asks cnf exprs := by
  cases request with
  | random count => cases hplan
  | covering t given limit =>
    cases hplan
    rw [mem_combinations]
    cases given with
    | none => simp [Asks]
    | some groups => rfl
  | feature name =>
    unfold plan at hplan
    dsimp only at hplan
    split at hplan
    · cases hplan
    rename_i var hvar
    cases hplan
    simp only [mem_combinations, List.mem_singleton, exists_eq_left, Asks, hvar, Except.ok.injEq,
      exists_eq_left', List.length_eq_one_iff]
    constructor
    · rintro ⟨hsub, e, rfl⟩
      simpa using List.singleton_sublist.1 hsub
    · rintro (rfl | rfl)
      · exact ⟨by simp, _, rfl⟩
      · exact ⟨by simp, _, rfl⟩

theorem LiteralSet.containsEach_iff {config : LiteralSet} :
    config.containsEach exprs = true ↔ ∀ e ∈ exprs, config.containsAll e = true :=
  List.all_eq_true

/-- A full set contains all expressions if it includes their union. -/
theorem LiteralSet.IsFull.containsEach_iff {config : LiteralSet} {n : Nat} (h : config.IsFull n) :
    config.containsEach exprs = true ↔ config.Includes (unionOf exprs) := by
  rw [LiteralSet.containsEach_iff]
  constructor
  · intro hall x hx
    obtain ⟨e, he, hxe⟩ := mem_literals_unionOf.1 hx
    exact mem_of_containsAll (hall e he) hxe
  · intro hincludes e he
    refine List.all_eq_true.2 fun x hx => h.contains_iff_mem.2 (hincludes x ?_)
    exact mem_literals_unionOf.2 ⟨e, he, hx⟩

/-- A formula allows a combination if some assignment makes its union true. -/
theorem Cnf.WellFormed.allows_iff {cnf : Cnf} (hcnf : cnf.WellFormed)
    (hwithin : (unionOf exprs).Within cnf.size) :
    cnf.allows exprs = true ↔ Feasible cnf.Models (unionOf exprs) := by
  unfold Cnf.allows
  rw [decide_eq_true_iff]
  constructor
  · rintro ⟨config, hc, hcontains⟩
    obtain ⟨hfull, hmodels⟩ := hcnf.mem_solutions_iff.1 hc
    refine ⟨config.assignment, hmodels, fun x hx => ?_⟩
    have hmem := hfull.containsEach_iff.1 hcontains x hx
    exact (hfull.contains_iff.1 (hfull.contains_iff_mem.2 hmem)).2.2
  · rintro ⟨α, hα, hmakes⟩
    have hfull := isFull_ofAssignment cnf.size α
    refine ⟨ofAssignment cnf.size α, ?_, hfull.containsEach_iff.2 fun x hx => ?_⟩
    · refine hcnf.mem_solutions_iff.2 ⟨hfull, hcnf.concerns α _ (fun v hv hle => ?_) hα⟩
      exact (assignment_ofAssignment hv hle).symm
    · rw [← hfull.contains_iff_mem, contains_ofAssignment]
      exact ⟨ne_zero_of_mem_literals hx, hwithin x hx, hmakes x hx⟩

/-- The candidates have literals of the groups only. -/
theorem within_of_mem_candidates {n : Nat} (hgroups : GroupsWithin n groups)
    (h : exprs ∈ consistentCombinations t groups) : (unionOf exprs).Within n := by
  obtain ⟨group, hgroup, hsub, -⟩ := mem_combinations.1 (List.mem_filter.1 h).1
  intro x hx
  obtain ⟨e, he, hxe⟩ := mem_literals_unionOf.1 hx
  exact hgroups group hgroup e (by simpa using hsub.subset he) x hxe

end ConfigSampler
