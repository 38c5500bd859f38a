import ConfigSampler.Proofs.TighterBudgets
import ConfigSampler.Proofs.Turns
import Mathlib.Algebra.BigOperators.Intervals
import Mathlib.Algebra.Group.Action.Defs
import Mathlib.Algebra.Order.BigOperators.Group.Finset
import Mathlib.Data.Finset.Card
import Mathlib.Order.Interval.Finset.Nat

/-!
# An attempt of a search comes to an end

A literal on the trail weighs the more the lower its level is: more than all literals together
weigh on the levels above (`Trail.weight`).  Propagation and decisions add literals, and a jump to a
lower level exchanges the literals above that level for one more on it, so that the weight grows with
every step, while clauses come and go.  Levels may be empty, but only those of assumptions
(`Trail.Occupied`), so their number is bounded, and with it the weight.

`Search.attempt_returns` is the main statement: **an attempt without a budget comes to a result**,
whatever is decided.
-/

set_option autoImplicit false

namespace ConfigSampler

namespace Trail

variable {t u : Trail} {l : Lit} {m base height : Nat}

/-! ## Empty levels -/

/-- Every level above the first `m` ones holds a literal. -/
def Occupied (m : Nat) (t : Trail) : Prop :=
  ∀ k, m < k → k ≤ t.level → ∃ l ∈ t.lits, t.levelOf l = k

/-- Assumptions may leave their levels empty. -/
theorem occupied_of_level_le (hle : t.level ≤ m) : t.Occupied m := by
  intro k hmk hk
  omega

theorem Occupied.extend (h : t.Occupied m) (he : t.Extends u) : u.Occupied m := by
  intro k hmk hk
  rw [he.level] at hk
  obtain ⟨l, hl, hlevel⟩ := h k hmk hk
  exact ⟨l, he.mem hl, (he.levelOf l hl).trans hlevel⟩

theorem Occupied.rewindTo (h : t.Occupied m) (ht : t.Ok) {target : Nat} (hle : target ≤ t.level) :
    (t.rewindTo target).1.Occupied m := by
  intro k hmk hk
  rw [ht.level_rewindTo hle] at hk
  obtain ⟨l, hl, hlevel⟩ := h k hmk (Nat.le_trans hk hle)
  refine ⟨l, ht.mem_rewindTo.2 ⟨hl, by omega⟩, ?_⟩
  rw [ht.levelOf_rewindTo]
  exact hlevel

theorem Occupied.jump (h : t.Occupied m) (ht : t.Ok) (hjump : t.Jumps u) : u.Occupied m := by
  obtain ⟨target, hlt, l, reason, -, hfree, -, rfl⟩ := hjump
  exact (h.rewindTo ht (Nat.le_of_lt hlt)).extend (.assign (ht.rewindTo target) hfree reason)

theorem Occupied.decide (h : t.Occupied m) (ht : t.Ok) (hl : l.var < t.numVars)
    (hfree : t.isFree l.var = true) : (t.newLevel.assign l none).Occupied m := by
  intro k hmk hk
  have hext : t.newLevel.Extends (t.newLevel.assign l none) := .assign ht.newLevel hfree none
  rw [level_assign, level_newLevel] at hk
  rcases Nat.lt_or_eq_of_le hk with hlt | rfl
  · obtain ⟨m, hm, hlevel⟩ := h k hmk (Nat.le_of_lt_succ hlt)
    exact ⟨m, hext.mem hm, (hext.levelOf m hm).trans hlevel⟩
  · refine ⟨l, mem_assign.2 (.inr rfl), ?_⟩
    rw [ht.newLevel.levelOf_assign hl, level_newLevel]

/-- There are no more levels than assumptions and variables. -/
theorem Occupied.level_le (h : t.Occupied m) (ht : t.Ok) : t.level ≤ m + t.numVars := by
  have hsub : Finset.Ioc m t.level ⊆ (t.lits.toList.map t.levelOf).toFinset := by
    intro k hk
    rw [Finset.mem_Ioc] at hk
    obtain ⟨l, hl, hlevel⟩ := h k hk.1 hk.2
    rw [List.mem_toFinset, List.mem_map]
    exact ⟨l, Array.mem_toList_iff.2 hl, hlevel⟩
  have hcard : t.level - m ≤ t.size := by
    calc t.level - m = (Finset.Ioc m t.level).card := (Nat.card_Ioc m t.level).symm
      _ ≤ (t.lits.toList.map t.levelOf).toFinset.card := Finset.card_le_card hsub
      _ ≤ (t.lits.toList.map t.levelOf).length := List.toFinset_card_le _
      _ = t.size := by rw [List.length_map, Array.length_toList, size]
  have := ht.size_le
  omega

/-! ## The weight of a trail -/

/-- A literal weighs `base` times as much as one on the next higher level. -/
def weight (base height : Nat) (t : Trail) : Nat :=
  ∑ i ∈ Finset.range t.size, base ^ (height - t.levelOf (t.litAt i))

/-- Places that both trails have in common weigh the same. -/
theorem sum_eq_of_same {b : Nat} (hat : ∀ i < b, u.litAt i = t.litAt i)
    (hlevel : ∀ i < b, u.levelOf (t.litAt i) = t.levelOf (t.litAt i)) :
    ∑ i ∈ Finset.range b, base ^ (height - u.levelOf (u.litAt i)) =
      ∑ i ∈ Finset.range b, base ^ (height - t.levelOf (t.litAt i)) := by
  refine Finset.sum_congr rfl fun i hi => ?_
  have hlt := Finset.mem_range.1 hi
  rw [hat i hlt, hlevel i hlt]

theorem weight_le_of_extends (he : t.Extends u) : t.weight base height ≤ u.weight base height := by
  calc t.weight base height
      = ∑ i ∈ Finset.range t.size, base ^ (height - u.levelOf (u.litAt i)) :=
        (sum_eq_of_same he.litAt fun i hi => he.levelOf _ (litAt_mem hi)).symm
    _ ≤ u.weight base height :=
        Finset.sum_le_sum_of_subset (Finset.range_mono he.size_le)

theorem weight_assign (ht : t.Ok) (hl : l.var < t.numVars) (hfree : t.isFree l.var = true)
    (reason : Option ClauseRef) :
    (t.assign l reason).weight base height =
      t.weight base height + base ^ (height - t.level) := by
  have hext := Extends.assign ht hfree reason
  rw [weight, size_assign, Finset.sum_range_succ, litAt_assign_size, ht.levelOf_assign hl,
    sum_eq_of_same hext.litAt fun i hi => hext.levelOf _ (litAt_mem hi)]
  rfl

/-- Going back takes off less than one literal weighs on the level that is reached. -/
theorem weight_lt_rewindTo (ht : t.Ok) (hbase : t.numVars < base) (hheight : t.level ≤ height)
    {target : Nat} (hlt : target < t.level) :
    t.weight base height <
      (t.rewindTo target).1.weight base height + base ^ (height - target) := by
  have hkept : (t.rewindTo target).1.weight base height =
      ∑ i ∈ Finset.range (t.top target), base ^ (height - t.levelOf (t.litAt i)) := by
    rw [weight, ht.size_rewindTo]
    exact sum_eq_of_same (fun i hi => ht.litAt_rewindTo (by rw [ht.size_rewindTo]; exact hi))
      fun i _ => ht.levelOf_rewindTo target _
  have hcut : ∀ i ∈ Finset.Ico (t.top target) t.size,
      base ^ (height - t.levelOf (t.litAt i)) ≤ base ^ (height - target - 1) := by
    intro i hi
    rw [Finset.mem_Ico] at hi
    apply Nat.pow_le_pow_right (by omega)
    have hlevel := (ht.lt_top_iff hi.2 (k := target)).not.1 (Nat.not_lt.2 hi.1)
    rw [ht.levelOf_litAt i hi.2]
    omega
  have hsum : ∑ i ∈ Finset.Ico (t.top target) t.size, base ^ (height - t.levelOf (t.litAt i)) ≤
      t.numVars * base ^ (height - target - 1) := by
    calc ∑ i ∈ Finset.Ico (t.top target) t.size, base ^ (height - t.levelOf (t.litAt i))
        ≤ (Finset.Ico (t.top target) t.size).card • base ^ (height - target - 1) :=
          Finset.sum_le_card_nsmul _ _ _ hcut
      _ ≤ t.numVars * base ^ (height - target - 1) := by
          rw [Nat.card_Ico, smul_eq_mul]
          exact Nat.mul_le_mul_right _ (Nat.le_trans (Nat.sub_le _ _) ht.size_le)
  have hstep : t.numVars * base ^ (height - target - 1) < base ^ (height - target) := by
    calc t.numVars * base ^ (height - target - 1)
        < base * base ^ (height - target - 1) :=
          Nat.mul_lt_mul_of_pos_right hbase (Nat.pow_pos (Nat.zero_lt_of_lt hbase))
      _ = base ^ (height - target) := by
          rw [← Nat.pow_succ']
          congr 1
          omega
  rw [hkept, weight, ← Finset.sum_range_add_sum_Ico _ (ht.top_le_size target)]
  omega

/-- **A jump makes the trail heavier.** -/
theorem weight_lt_of_jumps (ht : t.Ok) (hbase : t.numVars < base) (hheight : t.level ≤ height)
    (hjump : t.Jumps u) : t.weight base height < u.weight base height := by
  obtain ⟨target, hlt, l, reason, hl, hfree, -, rfl⟩ := hjump
  rw [weight_assign (ht.rewindTo target) (by rw [ht.numVars_rewindTo]; exact hl) hfree,
    ht.level_rewindTo (Nat.le_of_lt hlt)]
  exact weight_lt_rewindTo ht hbase hheight hlt

theorem weight_lt (ht : t.Ok) (hbase : t.numVars < base) :
    t.weight base height < base ^ (height + 1) := by
  have hpos : 0 < base ^ height := Nat.pow_pos (Nat.zero_lt_of_lt hbase)
  calc t.weight base height
      ≤ (Finset.range t.size).card • base ^ height := Finset.sum_le_card_nsmul _ _ _ fun i _ =>
        Nat.pow_le_pow_right (Nat.zero_lt_of_lt hbase) (Nat.sub_le _ _)
    _ = t.size * base ^ height := by rw [Finset.card_range, smul_eq_mul]
    _ < base * base ^ height :=
        Nat.mul_lt_mul_of_pos_right (Nat.lt_of_le_of_lt ht.size_le hbase) hpos
    _ = base ^ (height + 1) := Nat.pow_succ'.symm

/-- The trail is over `n` variables, has empty levels for assumptions only, and weighs enough. -/
structure Climbs (m n least : Nat) (t : Trail) : Prop where
  numVars : t.numVars = n
  occupied : t.Occupied m
  le_weight : least ≤ t.weight (n + 1) (m + n)

theorem Climbs.level_le {n least : Nat} (h : t.Climbs m n least) (ht : t.Ok) : t.level ≤ m + n := by
  rw [← h.numVars]
  exact h.occupied.level_le ht

theorem kept_climbs (assumptions : Array Lit) (n least : Nat) :
    Kept assumptions (Climbs assumptions.size n least) where
  extend _ _ he h :=
    ⟨he.numVars.trans h.numVars, h.occupied.extend he, h.le_weight.trans (weight_le_of_extends he)⟩
  jump {t u} ht hjump h := by
    refine ⟨?_, h.occupied.jump ht hjump, ?_⟩
    · obtain ⟨target, -, l, reason, -, -, -, rfl⟩ := hjump
      rw [numVars_assign, ht.numVars_rewindTo]
      exact h.numVars
    · have hbase : t.numVars < n + 1 := by
        rw [h.numVars]
        exact Nat.lt_succ_self n
      exact h.le_weight.trans (Nat.le_of_lt (weight_lt_of_jumps ht hbase (h.level_le ht) hjump))
  openLevel {t} hlt h := by
    refine ⟨h.numVars, occupied_of_level_le ?_, h.le_weight⟩
    rw [level_newLevel]
    exact hlt
  rename _ h := ⟨h.numVars, h.occupied, h.le_weight⟩

/-- **A decision makes the trail heavier.** -/
theorem Climbs.decide {n least : Nat} (h : t.Climbs m n least) (ht : t.Ok) (hl : l.var < n)
    (hfree : t.isFree l.var = true) : (t.newLevel.assign l none).Climbs m n (least + 1) := by
  have hlt : l.var < t.numVars := by rw [h.numVars]; exact hl
  refine ⟨(numVars_assign ..).trans h.numVars, h.occupied.decide ht hlt hfree, ?_⟩
  rw [weight_assign (t := t.newLevel) ht.newLevel hlt hfree]
  have hpos : 0 < (n + 1) ^ (m + n - t.newLevel.level) := Nat.pow_pos (Nat.succ_pos n)
  exact Nat.add_le_add h.le_weight hpos

end Trail

namespace Search

variable {s : Search} {n : Nat} {query : Query} {rule : Rule} {conflictLimit : Nat}

/-- The outcomes of an attempt that no budget stops. -/
def IsResult : Attempt → Prop
  | .satisfiable => True
  | .unsatisfiable => True
  | .assumptionsFail => True
  | .restart => True
  | .interrupted _ => False
  | .outOfSteps => False

/-- With enough steps the loop comes to a result, which is the same for all greater numbers of
    steps. -/
def Returns (enough : Nat) (loop : Nat → Attempt × LearntLimit × Search) : Prop :=
  ∃ outcome limit s, IsResult outcome ∧ ∀ steps, enough ≤ steps → loop steps = (outcome, limit, s)

/-- The most turns that an attempt can take over `n` variables. -/
def mostTurns (n assumptions : Nat) : Nat := (n + 1) ^ (assumptions + n + 1)

/-- Each turn makes the trail heavier, so that the turns left are bounded by the weight that is
    left. -/
theorem returns_of_climbs (hrule : rule.Lawful) (hvars : ∀ l ∈ query.assumptions, l.var < n)
    (hbudget : query.budget.Unlimited) (conflictLimit : Nat) :
    ∀ (left least : Nat) (limit : LearntLimit) (s : Search), Reachable n .ready s →
      s.propagator.trail.Climbs query.assumptions.size n least →
      mostTurns n query.assumptions.size ≤ least + left →
      Returns left fun steps => attemptBy rule query conflictLimit steps limit s
  | 0, least, limit, s, h, hclimbs, hleft => by
    have hbase : s.propagator.trail.numVars < n + 1 := by
      rw [hclimbs.numVars]
      exact Nat.lt_succ_self n
    have hweight : s.propagator.trail.weight (n + 1) (query.assumptions.size + n) <
        (n + 1) ^ (query.assumptions.size + n + 1) :=
      Trail.weight_lt h.ok.inOrder.ok.trail hbase
    have hle := hclimbs.le_weight
    unfold mostTurns at hleft
    omega
  | left + 1, least, limit, s, h, hclimbs, hleft => by
    have hturn := turn_spec hrule (Trail.kept_climbs query.assumptions n least) hvars h hclimbs
      conflictLimit limit
    generalize hout : turn rule query conflictLimit limit s = out at hturn
    rcases out with ⟨outcome, limit', s'⟩ | ⟨limit', s'⟩
    · obtain ⟨hsteps, hspent, -⟩ := hturn
      refine ⟨outcome, limit', s', ?_, fun steps hle => ?_⟩
      · cases outcome with
        | interrupted progress =>
          obtain ⟨s₁, hs₁⟩ := hspent progress rfl
          rw [affords, hbudget.within] at hs₁
          cases hs₁
        | outOfSteps => exact hsteps rfl
        | _ => trivial
      · obtain ⟨steps, rfl⟩ := Nat.exists_eq_add_of_le' (Nat.le_trans (Nat.succ_pos left) hle)
        exact attemptBy_of_inl hout steps
    · obtain ⟨hreach, t, l, ht, -, hkept, hl, hfree, htrail⟩ := hturn
      have hclimbs' : s'.propagator.trail.Climbs query.assumptions.size n (least + 1) := by
        rw [htrail]
        exact hkept.decide ht hl hfree
      obtain ⟨outcome, limit₁, s₁, hresult, hloop⟩ := returns_of_climbs hrule hvars hbudget
        conflictLimit left (least + 1) limit' s' hreach hclimbs' (by omega)
      refine ⟨outcome, limit₁, s₁, hresult, fun steps hle => ?_⟩
      obtain ⟨steps, rfl⟩ := Nat.exists_eq_add_of_le' (Nat.le_trans (Nat.succ_pos left) hle)
      exact (attemptBy_of_inr hout steps).trans (hloop steps (by omega))

/-- **An attempt without a budget comes to a result**: in every reachable state at ground level, with
    any assumptions and any limit on conflicts, under the rule of the queue and under every other
    lawful rule, while learnt clauses are deleted and the arena is compacted. -/
theorem attempt_returns (h : Reachable n .ready s) (hground : s.propagator.trail.level = 0)
    (hvars : ∀ l ∈ query.assumptions, l.var < n) (hbudget : query.budget.Unlimited)
    (conflictLimit : Nat) (limit : LearntLimit) :
    (Returns (mostTurns n query.assumptions.size) fun steps =>
      attempt query conflictLimit steps limit s) ∧
    ∀ rule : Rule, rule.Lawful →
      Returns (mostTurns n query.assumptions.size) fun steps =>
        attemptBy rule query conflictLimit steps limit s := by
  have hclimbs : s.propagator.trail.Climbs query.assumptions.size n 0 :=
    ⟨h.ok.numVars, Trail.occupied_of_level_le (by omega), Nat.zero_le _⟩
  have hall : ∀ rule : Rule, rule.Lawful →
      Returns (mostTurns n query.assumptions.size) fun steps =>
        attemptBy rule query conflictLimit steps limit s := fun rule hrule =>
    returns_of_climbs hrule hvars hbudget conflictLimit _ 0 limit s h hclimbs (by omega)
  refine ⟨?_, hall⟩
  simp only [attempt_eq]
  exact hall byActivity Rule.lawful_byActivity

/-- The first variable is assumed to be true, and nothing stops the search. -/
def assumeFirst : Query := ⟨#[⟨0⟩], {}, 0, 0, 0⟩

theorem attempt_returns_small :
    (Returns (mostTurns 3 1) fun steps => attempt assumeFirst 10 steps (.start {} 2) small) ∧
      Returns (mostTurns 3 1) fun steps =>
        attemptBy .firstFree assumeFirst 10 steps (.start {} 2) small := by
  have hbudget : assumeFirst.budget.Unlimited := ⟨rfl, rfl, fun _ => rfl⟩
  have h := attempt_returns reachable_small (by decide +kernel) (by decide) hbudget 10 (.start {} 2)
  exact ⟨h.1, h.2 _ Rule.lawful_firstFree⟩

end Search

end ConfigSampler
