import ConfigSampler.Proofs.CoveringSteps

/-!
# Working configurations and the sample

No assignment makes true what two working configurations have to keep (`Covering.Apart`), so their
models differ and there are no more of them than models.  They are handed out in order, one
configuration of the sample for each (`Covering.Delivers`), and none is dropped
(`Covering.Delivers.witness_not_mem`).  Every step keeps this (`Covering.Delivers.step`).
-/

set_option autoImplicit false

namespace ConfigSampler

open LiteralSet

variable {F : Assignment → Prop} {n : Nat} {calm : Prop}

theorem Feasible.of_includes {u v : LiteralSet} (h : Feasible F u) (hincludes : u.Includes v) :
    Feasible F v := by
  obtain ⟨α, hα, hmakes⟩ := h
  exact ⟨α, hα, fun x hx => hmakes x (hincludes x hx)⟩

namespace Covering

variable {g g' : Covering} {u : LiteralSet} {w : Working} {i j : Nat}
  {outcome : Except SampleError Outcome}

/-- A combination cannot be kept in addition to a working configuration that it is stuck at. -/
theorem Stuck.not_feasible (h : g.Stuck (.right calm n F) u) (hw : w ∈ g.working) :
    ¬ Feasible F (w.kept.union u) := by
  rintro ⟨α, hα, hmakes⟩
  rcases h w hw with hconflict | hnone
  · obtain ⟨x, hx, hneg⟩ := List.any_eq_true.1 hconflict
    have hne := ne_zero_of_mem_literals hx
    have hmakes' := hmakes _ (mem_literals_union.2 (.inl (mem_of_contains hneg)))
    exact (Assignment.makes_neg hne).1 hmakes' (hmakes x (mem_literals_union.2 (.inr hx)))
  · obtain ⟨x, hx, hnot⟩ := hnone α hα
    exact hnot (hmakes x hx)

/-- No assignment that `F` accepts makes true what two working configurations have to keep. -/
def Apart (g : Covering) (F : Assignment → Prop) : Prop :=
  ∀ i j, i < j → j < g.working.size →
    ¬ Feasible F ((g.workingAt i).kept.union (g.workingAt j).kept)

theorem workingAt_setWorking (hi : i < g.working.size) :
    (g.setWorking i w).workingAt j = if j = i then w else g.workingAt j := by
  unfold workingAt setWorking
  simp only [Array.getD_eq_getD_getElem?, Array.getElem?_setIfInBounds]
  by_cases hij : j = i
  · subst hij
    simp [hi]
  · rw [if_neg (Ne.symm hij), if_neg hij]

theorem workingAt_push (hj : j < g.working.size) :
    workingAt { g with working := g.working.push w } j = g.workingAt j := by
  simp [workingAt, Array.getD_eq_getD_getElem?, Array.getElem?_push, Nat.ne_of_lt hj]

theorem workingAt_push_size : workingAt { g with working := g.working.push w } g.working.size = w := by
  simp [workingAt, Array.getD_eq_getD_getElem?]

/-- To keep more leaves working configurations apart. -/
theorem Apart.setWorking (h : g.Apart F) (hi : i < g.working.size)
    (hw : w.kept.Includes (g.workingAt i).kept) : (g.setWorking i w).Apart F := by
  have hgrown : ∀ j, ((g.setWorking i w).workingAt j).kept.Includes (g.workingAt j).kept := by
    intro j
    rw [workingAt_setWorking hi]
    split
    · rename_i hij
      rwa [hij]
    · exact fun x hx => hx
  intro j k hjk hk hfeasible
  have hk' : k < g.working.size := by simpa [Covering.setWorking] using hk
  refine h j k hjk hk' (hfeasible.of_includes ?_)
  exact ((includes_union_left _ _).trans (hgrown j)).union
    ((includes_union_right _ _).trans (hgrown k))

/-- **Moves leave working configurations apart**: one is opened only for a combination that none of
    the others can keep. -/
theorem Move.apart (h : Move (.right calm n F) g u outcome g') (hg : g.Apart F) : g'.Apart F := by
  cases h with
  | failed => exact hg
  | interrupted => exact hg
  | kept => exact hg
  | joined hi => exact hg.setWorking hi (includes_union_left _ _)
  | @opened witness _ hstuck =>
    intro j k hjk hk
    show ¬ Feasible F ((workingAt { g with working := g.working.push ⟨u, witness⟩ } j).kept.union
      (workingAt { g with working := g.working.push ⟨u, witness⟩ } k).kept)
    have hk' : k < g.working.size + 1 := by
      rw [← Array.size_push]
      exact hk
    rcases Nat.lt_succ_iff_lt_or_eq.1 hk' with hold | rfl
    · rw [workingAt_push hold, workingAt_push (Nat.lt_trans hjk hold)]
      exact hg j k hjk hold
    · rw [workingAt_push_size, workingAt_push hjk]
      exact hstuck.not_feasible (mem_working_of_lt hjk)
  | infeasible => exact hg
  | unplaced => exact hg

/-- Working configurations that are apart have different models, so there are no more of them than
    models. -/
theorem Apart.size_le_card {models : Finset LiteralSet} (h : g.Apart F) (hstocked : g.Stocked n F)
    (hmodels : ∀ config, config.IsFull n → F config.assignment → config ∈ models) :
    g.working.size ≤ models.card := by
  have hfits : ∀ i < g.working.size, (g.workingAt i).Fits n F :=
    fun i hi => hstocked.fits _ (mem_working_of_lt hi)
  have hne : ∀ i j, i < j → j < g.working.size →
      (g.workingAt i).witness ≠ (g.workingAt j).witness := by
    intro i j hij hj he
    have hfit := hfits i (Nat.lt_trans hij hj)
    refine h i j hij hj ⟨_, hfit.accepted, fun x hx => ?_⟩
    refine (hfit.full.contains_iff.1 (hfit.full.contains_iff_mem.2 ?_)).2.2
    rcases mem_literals_union.1 hx with hx | hx
    · exact hfit.includes x hx
    · rw [he]
      exact (hfits j hj).includes x hx
  calc g.working.size = (Finset.range g.working.size).card := (Finset.card_range _).symm
    _ ≤ models.card := by
      refine Finset.card_le_card_of_injOn (fun i => (g.workingAt i).witness) (fun i hi => ?_) ?_
      · have hfit := hfits i (by simpa using hi)
        exact hmodels _ hfit.full hfit.accepted
      · intro i hi j hj he
        rcases Nat.lt_trichotomy i j with hij | hij | hij
        · exact absurd he (hne i j hij (by simpa using hj))
        · exact hij
        · exact absurd he.symm (hne j i hij (by simpa using hi))

/-- In a list of working configurations that are apart, none before a given one can be kept in addition
    to it. -/
theorem Apart.not_feasible {queue rest : List Working} {w' : Working} (h : g.Apart F)
    (hlist : g.working.toList = queue ++ w :: rest) (hw' : w' ∈ queue) :
    ¬ Feasible F (w'.kept.union w.kept) := by
  obtain ⟨i, hi, rfl⟩ := List.mem_iff_getElem.1 hw'
  have hat : ∀ j, g.workingAt j = (queue ++ w :: rest).getD j default := by
    intro j
    rw [← hlist, workingAt, Array.getD_eq_getD_getElem?, List.getD_eq_getElem?_getD,
      Array.getElem?_toList]
  have hsize : queue.length < g.working.size := by
    rw [← Array.length_toList, hlist, List.length_append, List.length_cons]
    omega
  have hfeasible := h i queue.length hi hsize
  rw [hat, hat] at hfeasible
  simpa [List.getD_eq_getElem?_getD, List.getElem?_append_left, hi] using hfeasible

/-! ## The sample -/

/-- The working configurations `done` have been handed out and those of the queue are left: each of the
    former has a configuration in the sample, and there is no other one in it. -/
structure HandedOut (g : Covering) (accepted : Array LiteralSet) (queue done : List Working) :
    Prop where
  parts : g.working.toList = done ++ queue
  size : accepted.size = done.length
  delivered : ∀ w ∈ done, ∃ config ∈ accepted, config.Includes w.kept
  sources : ∀ config ∈ accepted, ∃ w ∈ done, config.Includes w.kept

/-- What working configurations have to do with the sample. -/
structure Delivers (g : Covering) (n : Nat) (F : Assignment → Prop) (accepted : Array LiteralSet) :
    Prop where
  stocked : g.Stocked n F
  apart : g.Apart F
  empty : g.phase = .covering → accepted = #[]
  handed : ∀ queue, g.phase = .emitting queue → ∃ done, g.HandedOut accepted queue done

/-- The sample with the configuration that a step yields. -/
def yielded (accepted : Array LiteralSet) : Except SampleError Step → Array LiteralSet
  | .ok (.batch [config]) => accepted.push config
  | _ => accepted

variable {accepted : Array LiteralSet} {queue rest done : List Working} {settings : SampleSettings}
  {result : Except SampleError Step}

theorem HandedOut.mem_working (h : g.HandedOut accepted queue done) (hw : w ∈ queue) :
    w ∈ g.working := by
  rw [← Array.mem_toList_iff, h.parts]
  exact List.mem_append_right _ hw

theorem HandedOut.done_mem_working (h : g.HandedOut accepted queue done) (hw : w ∈ done) :
    w ∈ g.working := by
  rw [← Array.mem_toList_iff, h.parts]
  exact List.mem_append_left _ hw

theorem HandedOut.size_add (h : g.HandedOut accepted queue done) :
    accepted.size + queue.length = g.working.size := by
  rw [h.size, ← Array.length_toList, h.parts, List.length_append]

/-- Every configuration of the sample comes from a working configuration. -/
theorem Delivers.sources (h : g.Delivers n F accepted) {config : LiteralSet}
    (hc : config ∈ accepted) : ∃ w ∈ g.working, config.Includes w.kept := by
  cases hphase : g.phase with
  | covering =>
    obtain rfl := h.empty hphase
    simp at hc
  | emitting queue =>
    obtain ⟨done, hhanded⟩ := h.handed queue hphase
    obtain ⟨w, hw, hincludes⟩ := hhanded.sources config hc
    exact ⟨w, hhanded.done_mem_working hw, hincludes⟩

theorem delivers_start (hphase : g.phase = .covering) (hworking : g.working = #[]) :
    g.Delivers n F #[] := by
  refine ⟨⟨?_, ?_⟩, ?_, fun _ => rfl, fun queue hqueue => absurd hqueue (not_emitting hphase queue)⟩
  · simp [hworking]
  · simp [hworking]
  · intro i j _ hj
    simp [hworking] at hj

theorem takeCandidate_same (h : g.takeCandidate = (some u, g')) :
    g'.working = g.working ∧ g'.maxConfigs = g.maxConfigs ∧ g'.phase = g.phase := by
  unfold takeCandidate at h
  split at h
  · cases h
    exact ⟨rfl, rfl, rfl⟩
  · split at h
    · cases h
    · cases h
      exact ⟨rfl, rfl, rfl⟩

theorem stocked_of_takeCandidate (h : g.Stocked n F) (htake : g.takeCandidate = (some u, g')) :
    g'.Stocked n F := by
  obtain ⟨hworking, hmax, -⟩ := takeCandidate_same htake
  refine ⟨?_, ?_⟩
  · rw [hworking, hmax]
    exact h.room
  · rw [hworking]
    exact h.fits

theorem Moves.maxConfigs {A : Answers}
    (h : Moves A settings accepted g result g') : g'.maxConfigs = g.maxConfigs := by
  cases h with
  | settled _ _ htake hmove => exact hmove.extends.maxConfigs.trans (takeCandidate_same htake).2.1
  | retained _ _ htake hmove => exact hmove.extends.maxConfigs.trans (takeCandidate_same htake).2.1
  | _ => rfl

/-- While candidates are covered the sample is empty. -/
theorem Delivers.move {g'' : Covering} (h : g.Delivers n F #[]) (hphase : g.phase = .covering)
    (htake : g.takeCandidate = (some u, g')) (hmove : Move (.right calm n F) g' u outcome g'') :
    g''.Delivers n F #[] := by
  obtain ⟨hworking, -, hphase'⟩ := takeCandidate_same htake
  have hstocked := stocked_of_takeCandidate h.stocked htake
  have hapart : g'.Apart F := by
    unfold Apart workingAt
    rw [hworking]
    exact h.apart
  refine ⟨hmove.stocked hstocked, hmove.apart hapart, fun _ => rfl, fun queue hqueue => ?_⟩
  rw [hmove.extends.phase, hphase', hphase] at hqueue
  cases hqueue

/-- A working configuration leaves the queue when it has a configuration in the sample. -/
theorem Delivers.handOut {config : LiteralSet} (h : g.Delivers n F accepted)
    (hphase : g.phase = .emitting (w :: rest)) (hconfig : config.Includes w.kept) :
    Delivers { g with phase := .emitting rest } n F (accepted.push config) where
  stocked := ⟨h.stocked.room, h.stocked.fits⟩
  apart := h.apart
  empty := (nomatch ·)
  handed := by
    intro queue hqueue
    obtain rfl : rest = queue := CoveringPhase.emitting.inj hqueue
    obtain ⟨done, hhanded⟩ := h.handed _ hphase
    refine ⟨done ++ [w], ?_, ?_, fun v hv => ?_, fun c hc => ?_⟩
    · show g.working.toList = done ++ [w] ++ rest
      rw [hhanded.parts, List.append_assoc, List.singleton_append]
    · rw [Array.size_push, hhanded.size, List.length_append, List.length_singleton]
    · rcases List.mem_append.1 hv with hv | hv
      · obtain ⟨c, hc, hincludes⟩ := hhanded.delivered v hv
        exact ⟨c, Array.mem_push_of_mem _ hc, hincludes⟩
      · rw [List.mem_singleton.1 hv]
        exact ⟨config, Array.mem_push_self, hconfig⟩
    · rcases Array.mem_push.1 hc with hc | rfl
      · obtain ⟨v, hv, hincludes⟩ := hhanded.sources c hc
        exact ⟨v, List.mem_append_left _ hv, hincludes⟩
      · exact ⟨w, List.mem_append_right _ List.mem_cons_self, hconfig⟩

/-- The model of a working configuration that is left is not in the sample yet. -/
theorem Delivers.witness_not_mem (h : g.Delivers n F accepted)
    (hphase : g.phase = .emitting (w :: rest)) : w.witness ∉ accepted := by
  intro hold
  obtain ⟨done, hhanded⟩ := h.handed _ hphase
  have hfit := h.stocked.fits w (hhanded.mem_working List.mem_cons_self)
  obtain ⟨v, hv, hincludes⟩ := hhanded.sources _ hold
  refine h.apart.not_feasible hhanded.parts hv ⟨_, hfit.accepted, fun x hx => ?_⟩
  exact (hfit.full.contains_iff.1
    (hfit.full.contains_iff_mem.2 ((hincludes.union hfit.includes) x hx))).2.2

/-- **Every step** hands out what working configurations have to keep. -/
theorem Delivers.step (h : g.Delivers n F accepted)
    (hmoves : Moves (.right calm n (settings.Left n F accepted)) settings accepted g result g') :
    g'.Delivers n F (yielded accepted result) := by
  have hempty : settings.Left n F #[] = F := funext fun α => propext SampleSettings.left_empty
  cases hmoves with
  | done => exact h
  | exhausted => exact h
  | finished hphase =>
    refine ⟨⟨h.stocked.room, h.stocked.fits⟩, h.apart, (nomatch ·), fun queue hqueue => ?_⟩
    obtain rfl : g.working.toList = queue := CoveringPhase.emitting.inj hqueue
    obtain rfl := h.empty hphase
    exact ⟨[], rfl, rfl, fun w hw => absurd hw List.not_mem_nil,
      fun config hc => absurd hc (Array.not_mem_empty config)⟩
  | settled hphase _ htake hmove =>
    obtain rfl := h.empty hphase
    rw [hempty] at hmove
    have h' := h.move hphase htake hmove
    exact ⟨⟨h'.stocked.room, h'.stocked.fits⟩, h'.apart, h'.empty, fun queue hqueue =>
      (h'.handed queue hqueue).imp fun done hhanded =>
        ⟨hhanded.parts, hhanded.size, hhanded.delivered, hhanded.sources⟩⟩
  | retained hphase _ htake hmove hresult =>
    obtain rfl := h.empty hphase
    rw [hempty] at hmove
    rcases hresult with ⟨e, -, rfl⟩ | ⟨-, rfl⟩
    · exact h.move hphase htake hmove
    · exact h.move hphase htake hmove
  | @handed w rest config hphase hconfig =>
    refine h.handOut hphase ?_
    rcases hconfig with ⟨rfl, -⟩ | ⟨hfull, -, hcontains⟩
    · obtain ⟨done, hhanded⟩ := h.handed _ hphase
      exact (h.stocked.fits w (hhanded.mem_working List.mem_cons_self)).includes
    · exact fun x hx => hfull.contains_iff_mem.1 (hcontains x hx)
  | dropped hphase hold => exact absurd hold (h.witness_not_mem hphase)
  | held _ hresult =>
    rcases hresult with ⟨e, -, rfl⟩ | rfl
    · exact h
    · exact h

end Covering

end ConfigSampler
