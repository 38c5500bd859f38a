import ConfigSampler.Proofs.CandidateTotals
import ConfigSampler.Proofs.CoveringSteps

/-!
# The ledger of a covering run

The candidates are decided in the order of their list, each once: those with a verdict come first,
then the one in progress or the one that found no room, then the ones ahead of the cursor
(`Covering.Ledger`).  The counts of a run are those of its verdicts.  Every step keeps the ledger,
whatever the solver answers (`Covering.Ledger.step`), so in every state of a covering run no more
candidates are counted as covered or infeasible than there are (`Covering.Reachable.counts_le`).
-/

set_option autoImplicit false

namespace ConfigSampler

open LiteralSet

/-- How a candidate was decided. -/
structure Judged where
  union : LiteralSet
  covered : Bool

namespace Covering

variable {g g' : Covering} {A A' : Answers} {t : Nat} {groups : List ExpressionGroup}
  {verdicts : List Judged} {waiting : Option LiteralSet} {u : LiteralSet}

/-- The candidates seen so far.  A run that may not yield any configuration counts all of them at its
    start. -/
def counted (g : Covering) (verdicts : List Judged) (waiting : Option LiteralSet) : Nat :=
  (startCoverage g.groups g.strength g.maxConfigs).candidates + verdicts.length +
    waiting.toList.length

/-- The verdicts so far, and the candidate that waits for one. -/
structure Ledger (g : Covering) (A : Answers) (t : Nat) (groups : List ExpressionGroup)
    (verdicts : List Judged) (waiting : Option LiteralSet) : Prop where
  strength_eq : g.strength = t
  groups_eq : g.groups = groups
  listed : ∃ choices, g.cursor.Stands t choices ∧ candidateList t groups =
    verdicts.map Judged.union ++ waiting.toList ++ consistentUnions choices
  covered : g.coverage.covered = verdicts.countP Judged.covered
  infeasible : g.coverage.infeasible = verdicts.countP fun v => !v.covered
  kept : ∀ v ∈ verdicts, v.covered = true → g.Keeps v.union
  refuted : ∀ v ∈ verdicts, v.covered = false → A.NoModel v.union.literals
  inProgress : g.truncated = false → waiting = g.pending
  blocked : g.truncated = true → g.pending = none ∧
    (g.maxConfigs = 0 ∨ ∃ u, waiting = some u ∧ g.maxConfigs ≤ g.working.size ∧ g.Stuck A u)
  empty : g.maxConfigs = 0 → g.truncated = false → candidateTotal groups t = 0
  idle : g.maxConfigs = 0 → verdicts = [] ∧ waiting = none
  candidates : g.phase = .covering → g.coverage.candidates = g.counted verdicts waiting
  total : ∀ queue, g.phase = .emitting queue → g.coverage.candidates =
    if g.truncated then max (g.counted verdicts waiting) (candidateTotal groups t)
    else g.counted verdicts waiting
  ended : ∀ queue, g.phase = .emitting queue → g.truncated = false →
    candidateList t groups = verdicts.map Judged.union

theorem Ledger.length_eq (h : g.Ledger A t groups verdicts waiting) :
    g.coverage.covered + g.coverage.infeasible = verdicts.length := by
  rw [h.covered, h.infeasible]
  have hsplit := List.length_eq_countP_add_countP Judged.covered (l := verdicts)
  simpa using hsplit.symm

/-- Nothing is counted twice. -/
theorem Ledger.counts_le (h : g.Ledger A t groups verdicts waiting) :
    g.coverage.covered + g.coverage.infeasible + waiting.toList.length ≤ g.coverage.candidates := by
  have hlength := h.length_eq
  have hcounted : verdicts.length + waiting.toList.length ≤ g.counted verdicts waiting := by
    unfold counted
    omega
  cases hphase : g.phase with
  | covering =>
    rw [h.candidates hphase]
    omega
  | emitting queue =>
    have htotal := h.total queue hphase
    split at htotal <;> omega

/-- Only a run that may not yield anything counts candidates at its start. -/
theorem Ledger.counted_eq (h : g.Ledger A t groups verdicts waiting) :
    g.counted verdicts waiting = if g.maxConfigs = 0 then candidateTotal groups t
      else verdicts.length + waiting.toList.length := by
  unfold counted startCoverage
  split
  · rename_i hmax
    obtain ⟨rfl, rfl⟩ := h.idle hmax
    rw [h.groups_eq, h.strength_eq]
    rfl
  · simp

/-- A run that decided all candidates counted each of them once. -/
theorem Ledger.candidates_of_ended (h : g.Ledger A t groups verdicts waiting)
    (hopen : g.truncated = false) (hended : candidateList t groups = verdicts.map Judged.union) :
    g.coverage.candidates = verdicts.length := by
  have hnone : waiting = none := by
    obtain ⟨choices, -, hlist⟩ := h.listed
    rw [hended, List.append_assoc, List.self_eq_append_right, List.append_eq_nil_iff] at hlist
    simpa using hlist.1
  have hcounted : g.counted verdicts waiting = verdicts.length := by
    rw [h.counted_eq]
    split
    · rename_i hmax
      obtain ⟨rfl, -⟩ := h.idle hmax
      exact h.empty hmax hopen
    · simp [hnone]
  cases hphase : g.phase with
  | covering => rw [h.candidates hphase, hcounted]
  | emitting queue =>
    rw [h.total queue hphase, hopen, hcounted]
    rfl

/-- A run that was truncated counted the total, unless this takes more candidates than can be
    counted. -/
theorem Ledger.candidates_of_truncated (h : g.Ledger A t groups verdicts waiting)
    (htruncated : g.truncated = true) (hphase : g.phase = .covering → g.maxConfigs = 0)
    (hsteps : verdicts.length + waiting.toList.length ≤ maxCount) :
    g.coverage.candidates = candidateTotal groups t := by
  have hle : g.counted verdicts waiting ≤ candidateTotal groups t := by
    rw [h.counted_eq]
    split
    · exact Nat.le_refl _
    · obtain ⟨choices, -, hlist⟩ := h.listed
      have htotal := candidateTotal_atLeast t groups
      rw [hlist, List.length_append, List.length_append, List.length_map] at htotal
      unfold AtLeast at htotal
      omega
  cases he : g.phase with
  | covering => rw [h.candidates he, h.counted_eq, if_pos (hphase he)]
  | emitting queue =>
    rw [h.total queue he, htruncated, if_pos rfl]
    exact Nat.max_eq_right hle

/-! ## Steps of covering -/

/-- The next candidate is taken off the list. -/
theorem Ledger.take (ht : 0 < t) (h : g.Ledger A t groups verdicts waiting)
    (hphase : g.phase = .covering) (hopen : g.truncated = false)
    (htake : g.takeCandidate = (some u, g')) :
    g'.Ledger A t groups verdicts (some u) ∧ g'.pending = some u ∧ g'.phase = .covering ∧
      g'.truncated = false := by
  have hwaiting := h.inProgress hopen
  unfold takeCandidate at htake
  split at htake
  · rename_i hpending
    cases htake
    rw [← hpending, ← hwaiting]
    exact ⟨h, rfl, hphase, hopen⟩
  · rename_i hpending
    split at htake
    · cases htake
    · rename_i cursor hnext
      cases htake
      obtain rfl : waiting = none := hwaiting.trans hpending
      obtain ⟨choices, hstands, hlist⟩ := h.listed
      have hyields := Cursor.next?_of_stands ht hstands
      rw [hnext] at hyields
      obtain ⟨others, hfirst, hstands'⟩ := hyields
      have hstays := not_emitting hphase
      refine ⟨?_, rfl, hphase, hopen⟩
      exact {
        strength_eq := h.strength_eq
        groups_eq := h.groups_eq
        listed := ⟨others, hstands', by rw [hlist, hfirst]; simp⟩
        covered := h.covered
        infeasible := h.infeasible
        kept := h.kept
        refuted := h.refuted
        inProgress := fun _ => rfl
        blocked := fun htruncated => by
          rw [show g.truncated = true from htruncated] at hopen
          cases hopen
        empty := h.empty
        idle := fun hmax => by
          -- the total would count this candidate
          have htotal := candidateTotal_atLeast t groups
          rw [h.empty hmax hopen, hlist, hfirst] at htotal
          simp [AtLeast, maxCount] at htotal
        candidates := fun _ => by
          show g.coverage.candidates + 1 = _
          rw [h.candidates hphase]
          rfl
        total := fun queue hqueue => absurd hqueue (hstays queue)
        ended := fun queue hqueue => absurd hqueue (hstays queue) }

/-- A candidate that is decided gets its verdict. -/
theorem Ledger.decide (h : g.Ledger A t groups verdicts (some u)) (hphase : g.phase = .covering)
    (hopen : g.truncated = false) (hext : g.Extends g') (covered : Bool)
    (hcovered : g'.coverage.covered = g.coverage.covered + covered.toNat)
    (hinfeasible : g'.coverage.infeasible = g.coverage.infeasible + (!covered).toNat)
    (hcandidates : g'.coverage.candidates = g.coverage.candidates)
    (htruncated : g'.truncated = g.truncated) (hkept : covered = true → g'.Keeps u)
    (hrefuted : covered = false → A.NoModel u.literals) :
    Ledger { g' with pending := none } A t groups (verdicts ++ [⟨u, covered⟩]) none where
  strength_eq := hext.strength.trans h.strength_eq
  groups_eq := hext.groups.trans h.groups_eq
  listed := by
    obtain ⟨choices, hstands, hlist⟩ := h.listed
    refine ⟨choices, ?_, ?_⟩
    · show g'.cursor.Stands t choices
      rwa [hext.cursor]
    · rw [hlist]
      simp
  covered := by
    rw [List.countP_append, ← h.covered]
    refine hcovered.trans ?_
    cases covered <;> rfl
  infeasible := by
    rw [List.countP_append, ← h.infeasible]
    refine hinfeasible.trans ?_
    cases covered <;> rfl
  kept := by
    intro v hv hc
    rcases List.mem_append.1 hv with hv | hv
    · exact hext.keeps _ (h.kept v hv hc)
    · obtain rfl := List.mem_singleton.1 hv
      exact hkept hc
  refuted := by
    intro v hv hc
    rcases List.mem_append.1 hv with hv | hv
    · exact h.refuted v hv hc
    · obtain rfl := List.mem_singleton.1 hv
      exact hrefuted hc
  inProgress := fun _ => rfl
  blocked := by
    intro htrue
    rw [show g'.truncated = true from htrue, hopen] at htruncated
    cases htruncated
  empty := by
    intro hmax _
    exact h.empty (hext.maxConfigs ▸ hmax) hopen
  idle := by
    intro hmax
    obtain ⟨-, hnone⟩ := h.idle (hext.maxConfigs ▸ hmax)
    cases hnone
  candidates := by
    intro _
    show g'.coverage.candidates = _
    rw [hcandidates, h.candidates hphase]
    unfold counted
    rw [hext.groups, hext.strength, hext.maxConfigs]
    simp
    omega
  total := fun queue hqueue => absurd hqueue (not_emitting (hext.phase.trans hphase) queue)
  ended := fun queue hqueue => absurd hqueue (not_emitting (hext.phase.trans hphase) queue)

/-- A candidate that finds no room ends the list of verdicts. -/
theorem Ledger.block (h : g.Ledger A t groups verdicts (some u)) (hphase : g.phase = .covering)
    (hfull : g.maxConfigs ≤ g.working.size) (hstuck : g.Stuck A u) :
    Ledger { g with truncated := true, pending := none } A t groups verdicts (some u) where
  strength_eq := h.strength_eq
  groups_eq := h.groups_eq
  listed := h.listed
  covered := h.covered
  infeasible := h.infeasible
  kept := h.kept
  refuted := h.refuted
  inProgress := (nomatch ·)
  blocked := fun _ => ⟨rfl, .inr ⟨u, rfl, hfull, hstuck⟩⟩
  empty := fun _ h => nomatch h
  idle := h.idle
  candidates := fun _ => h.candidates hphase
  total := fun queue hqueue => absurd hqueue (not_emitting hphase queue)
  ended := fun _ _ h => nomatch h

/-- **A settled candidate** has a verdict, or it ends the list of verdicts. -/
theorem Ledger.settle (h : g.Ledger A t groups verdicts (some u)) (hphase : g.phase = .covering)
    (hopen : g.truncated = false) (hmove : Move A g u (.ok .settled) g') :
    ∃ verdicts' waiting', Ledger { g' with pending := none } A t groups verdicts' waiting' ∧
      verdicts'.length + waiting'.toList.length = verdicts.length + 1 := by
  have hext := hmove.extends
  have hlength : ∀ covered : Bool, (verdicts ++ [(⟨u, covered⟩ : Judged)]).length +
      (none : Option LiteralSet).toList.length = verdicts.length + 1 := fun _ => by simp
  cases hmove with
  | kept hkept =>
    exact ⟨_, _, h.decide hphase hopen hext true rfl rfl rfl rfl
      (fun _ => keeps_of_isKept hkept) (nomatch ·), hlength true⟩
  | joined hi =>
    exact ⟨_, _, h.decide hphase hopen hext true rfl rfl rfl rfl
      (fun _ => keeps_setWorking hi (includes_union_right _ _)) (nomatch ·), hlength true⟩
  | @opened witness =>
    exact ⟨_, _, h.decide hphase hopen hext true rfl rfl rfl rfl
      (fun _ => keeps_push u witness) (nomatch ·), hlength true⟩
  | infeasible hnone =>
    exact ⟨_, _, h.decide hphase hopen hext false rfl rfl rfl rfl (nomatch ·) (fun _ => hnone),
      hlength false⟩
  | unplaced hfull hstuck => exact ⟨_, _, h.block hphase hfull hstuck, rfl⟩

/-- Handing out starts with the counts of all verdicts. -/
theorem Ledger.handOver (ht : 0 < t) (h : g.Ledger A t groups verdicts waiting)
    (hphase : g.phase = .covering)
    (hend : g.truncated = true ∨ g.pending = none ∧ g.cursor.next? = none) :
    g.handOver.Ledger A t groups verdicts waiting where
  strength_eq := h.strength_eq
  groups_eq := h.groups_eq
  listed := h.listed
  covered := h.covered
  infeasible := h.infeasible
  kept := h.kept
  refuted := h.refuted
  inProgress := h.inProgress
  blocked := h.blocked
  empty := h.empty
  idle := h.idle
  candidates := (nomatch ·)
  total := by
    intro queue _
    show (if g.truncated then max g.coverage.candidates (candidateTotal g.groups g.strength)
      else g.coverage.candidates) = _
    rw [h.candidates hphase, h.groups_eq, h.strength_eq]
    rfl
  ended := by
    intro queue _ hopen
    have hopen' : g.truncated = false := hopen
    rcases hend with htrue | ⟨hpending, hnext⟩
    · rw [hopen'] at htrue
      cases htrue
    obtain ⟨choices, hstands, hlist⟩ := h.listed
    have hyields := Cursor.next?_of_stands ht hstands
    rw [hnext] at hyields
    rw [hlist, h.inProgress hopen', hpending, show consistentUnions choices = [] from hyields]
    simp

/-- Only the queue changes while configurations are handed out. -/
theorem Ledger.handOut (h : g.Ledger A t groups verdicts waiting) {queue : List Working}
    (hphase : g.phase = .emitting queue) (rest : List Working) :
    Ledger { g with phase := .emitting rest } A t groups verdicts waiting where
  strength_eq := h.strength_eq
  groups_eq := h.groups_eq
  listed := h.listed
  covered := h.covered
  infeasible := h.infeasible
  kept := h.kept
  refuted := h.refuted
  inProgress := h.inProgress
  blocked := h.blocked
  empty := h.empty
  idle := h.idle
  candidates := (nomatch ·)
  total := fun _ _ => h.total queue hphase
  ended := fun _ _ => h.ended queue hphase

/-- **Every step keeps the ledger**, with one candidate more at most. -/
theorem Ledger.step (ht : 0 < t) (h : g.Ledger A t groups verdicts waiting)
    {settings : SampleSettings} {accepted : Array LiteralSet} {result : Except SampleError Step}
    (hmoves : Moves A' settings accepted g result g') (hA : g.phase = .covering → A' = A) :
    ∃ verdicts' waiting', g'.Ledger A t groups verdicts' waiting' ∧
      verdicts'.length + waiting'.toList.length ≤ verdicts.length + waiting.toList.length + 1 := by
  cases hmoves with
  | done => exact ⟨_, _, h, Nat.le_succ _⟩
  | exhausted => exact ⟨_, _, h, Nat.le_succ _⟩
  | finished hphase hend => exact ⟨_, _, h.handOver ht hphase hend, Nat.le_succ _⟩
  | settled hphase hopen htake hmove =>
    obtain ⟨h', hpending, hphase', hopen'⟩ := h.take ht hphase hopen htake
    obtain rfl := hA hphase
    obtain ⟨verdicts', waiting', hledger, hlength⟩ := h'.settle hphase' hopen' hmove
    exact ⟨verdicts', waiting', hledger, by omega⟩
  | @retained u _ _ _ _ hphase hopen htake hmove hresult =>
    obtain ⟨h', -⟩ := h.take ht hphase hopen htake
    refine ⟨verdicts, some u, ?_, ?_⟩
    · rcases hresult with ⟨e, rfl, -⟩ | ⟨rfl, -⟩
      · cases hmove
        exact h'
      · cases hmove
        exact h'
    · simp
  | handed hphase => exact ⟨_, _, h.handOut hphase _, Nat.le_succ _⟩
  | dropped hphase => exact ⟨_, _, h.handOut hphase _, Nat.le_succ _⟩
  | held => exact ⟨_, _, h, Nat.le_succ _⟩

/-- A fresh strategy has all candidates ahead. -/
theorem ledger_start {cnf : Cnf} {policy : ExtensionPolicy} {given : Option (List ExpressionGroup)}
    {maxConfigs : Nat} (h : start cnf t policy given maxConfigs = .ok g) (A : Answers) :
    0 < t ∧ g.Ledger A t g.groups [] none ∧ g.phase = .covering ∧ g.working = #[] ∧
      g.maxConfigs = maxConfigs := by
  unfold start at h
  split at h
  · cases h
  rename_i ht
  have hpos : 0 < t := Nat.pos_of_ne_zero ht
  split at h
  · cases h
  rename_i groups _
  cases h
  refine ⟨hpos, ?_, rfl, rfl, rfl⟩
  exact {
    strength_eq := rfl
    groups_eq := rfl
    listed := ⟨_, Cursor.stands_start hpos groups, rfl⟩
    covered := by unfold startCoverage; split <;> rfl
    infeasible := by unfold startCoverage; split <;> rfl
    kept := fun v hv => nomatch hv
    refuted := fun v hv => nomatch hv
    inProgress := fun _ => rfl
    blocked := by
      intro htruncated
      refine ⟨rfl, .inl ?_⟩
      by_contra hmax
      simp [startCoverage, show maxConfigs ≠ 0 from hmax] at htruncated
    empty := by
      intro hmax htruncated
      simpa [startCoverage, show maxConfigs = 0 from hmax] using htruncated
    idle := fun _ => ⟨rfl, rfl⟩
    candidates := fun _ => rfl
    total := fun _ hqueue => nomatch hqueue
    ended := fun _ hqueue => nomatch hqueue }

/-! ## Reachable states -/

/-- The states of covering runs, with any solver, any monitor and any sample at each step. -/
inductive Reachable : Covering → Prop
  | start {cnf : Cnf} {t : Nat} {policy : ExtensionPolicy} {given : Option (List ExpressionGroup)}
    {maxConfigs : Nat} {g : Covering} (h : start cnf t policy given maxConfigs = .ok g) : Reachable g
  | step {S σ : Type} [SatSolver S] [Monitor σ] {g : Covering} (settings : SampleSettings)
    (accepted : Array LiteralSet) (cx : Context S σ) (h : Reachable g) :
    Reachable (g.step settings accepted cx).2.1

/-- Every reachable state has a ledger. -/
theorem Reachable.ledger (h : g.Reachable) : 0 < g.strength ∧ ∃ verdicts waiting,
    g.Ledger .unknown g.strength g.groups verdicts waiting := by
  induction h with
  | start h =>
    obtain ⟨ht, hledger, -⟩ := ledger_start h .unknown
    obtain rfl := hledger.strength_eq
    exact ⟨ht, _, _, hledger⟩
  | step settings accepted cx _ ih =>
    obtain ⟨ht, verdicts, waiting, hledger⟩ := ih
    obtain ⟨-, hmoves⟩ : True ∧ Moves .unknown settings accepted _
        (Covering.step _ settings accepted cx).1 (Covering.step _ settings accepted cx).2.1 :=
      step_moves settings accepted Answers.governs_unknown trivial
    obtain ⟨verdicts', waiting', hledger', -⟩ := hledger.step ht hmoves fun _ => rfl
    rw [hledger'.strength_eq, hledger'.groups_eq]
    exact ⟨ht, verdicts', waiting', hledger'⟩

/-- **In every state of a covering run** the candidates counted as covered or infeasible are among
    those counted at all. -/
theorem Reachable.counts_le (h : g.Reachable) :
    g.coverage.covered + g.coverage.infeasible ≤ g.coverage.candidates := by
  obtain ⟨-, verdicts, waiting, hledger⟩ := h.ledger
  exact Nat.le_trans (Nat.le_add_right _ _) hledger.counts_le

end Covering

end ConfigSampler
