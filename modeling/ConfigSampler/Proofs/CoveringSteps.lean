import ConfigSampler.Proofs.SampleLoop
import ConfigSampler.Proofs.WorkingSets

/-!
# Steps of a covering run

While candidates are covered, each feasible one is still ahead of the cursor, in progress, or kept
(`Covering.Searches`).  While configurations are handed out, each is kept by a working configuration
that is left, or is in the sample already (`Covering.HandsOut`).  Every step keeps this, so a run that
is done without truncation has all feasible candidates in its sample (`Covering.contract_kept`).
-/

set_option autoImplicit false

namespace ConfigSampler

open LiteralSet

/-- The union of a choice of `t` expressions of one of the groups. -/
def Candidate (t : Nat) (groups : List ExpressionGroup) (u : LiteralSet) : Prop :=
  ∃ group ∈ groups, ∃ qs, IsChoice t group qs ∧ unionAt group qs = u

/-- All literals of all groups belong to the first `n` variables. -/
def GroupsWithin (n : Nat) (groups : List ExpressionGroup) : Prop :=
  ∀ group ∈ groups, ∀ e ∈ group, e.Within n

namespace Cursor

/-- The union of some choice ahead of the cursor. -/
def Offers (c : Cursor) (t : Nat) (u : LiteralSet) : Prop :=
  ∃ group qs, Ahead t c.places c.groups group qs ∧ unionAt group qs = u

variable {c c' : Cursor} {t : Nat} {groups : List ExpressionGroup} {u v : LiteralSet}
  {F : Assignment → Prop}

theorem offers_start (ht : 0 < t) : (start groups t).Offers t u ↔ Candidate t groups u := by
  simp only [Offers, Candidate, ahead_start ht, and_assoc]
  constructor
  · rintro ⟨group, qs, hmem, hchoice, hu⟩
    exact ⟨group, hmem, qs, hchoice, hu⟩
  · rintro ⟨group, hmem, qs, hchoice, hu⟩
    exact ⟨group, qs, hmem, hchoice, hu⟩

/-- A cursor at its end has no feasible candidate ahead. -/
theorem not_feasible_of_next?_eq_none (ht : 0 < t) (hc : c.Ready t) (h : c.next? = none)
    (hu : c.Offers t u) : ¬ Feasible F u := by
  intro hfeasible
  obtain ⟨group, qs, hahead, rfl⟩ := hu
  have hfinds := next?_spec ht hc
  rw [h] at hfinds
  have hcon := hfinds group qs hahead
  rw [hfeasible.not_contradictory] at hcon
  cases hcon

/-- A step of the cursor takes one candidate, and every other feasible one stays ahead. -/
theorem next?_eq_some (ht : 0 < t) (hc : c.Ready t) (h : c.next? = some (u, c')) :
    c'.Ready t ∧ c.Offers t u ∧ (∀ v, c'.Offers t v → c.Offers t v) ∧
      ∀ v, c.Offers t v → Feasible F v → v = u ∨ c'.Offers t v := by
  have hfinds := next?_spec ht hc
  rw [h] at hfinds
  obtain ⟨hready, ⟨group, qs, hahead, rfl⟩, -, hall, hback⟩ := hfinds
  refine ⟨hready, ⟨group, qs, hahead, rfl⟩, ?_, ?_⟩
  · rintro v ⟨group', qs', hahead', rfl⟩
    exact ⟨group', qs', hback _ _ hahead', rfl⟩
  · rintro v ⟨group', qs', hahead', rfl⟩ hfeasible
    rcases hall group' qs' hahead' with hcon | he | hafter
    · rw [hfeasible.not_contradictory] at hcon
      cases hcon
    · exact .inl he
    · exact .inr ⟨group', qs', hafter, rfl⟩

end Cursor

theorem Candidate.within {n t : Nat} {groups : List ExpressionGroup} {u : LiteralSet}
    (h : Candidate t groups u) (hg : GroupsWithin n groups) : u.Within n := by
  obtain ⟨group, hmem, qs, hchoice, rfl⟩ := h
  obtain ⟨hsub, -⟩ := exists_isChoice_iff.1 ⟨qs, hchoice, rfl⟩
  intro x hx
  obtain ⟨e, he, hxe⟩ := mem_literals_unionAt.1 hx
  exact hg group hmem e (by simpa using hsub.subset he) x hxe

namespace Covering

variable {S σ : Type} [Monitor σ] {g g' : Covering} {t n : Nat} {groups : List ExpressionGroup} {settings : SampleSettings}
  {F : Assignment → Prop} {accepted : Array LiteralSet} {queue rest : List Working} {w : Working}
  {u : LiteralSet} {calm : Prop} {cx : Context S σ}

/-- While candidates are covered, no feasible one is lost. -/
structure Searches (g : Covering) (t n : Nat) (groups : List ExpressionGroup)
    (F : Assignment → Prop) : Prop where
  ready : g.cursor.Ready t
  offered : ∀ u, g.cursor.Offers t u → Candidate t groups u
  pending : ∀ u, g.pending = some u → Candidate t groups u
  stocked : g.Stocked n F
  decided : g.truncated = false → ∀ u, Candidate t groups u → Feasible F u →
    g.cursor.Offers t u ∨ g.pending = some u ∨ g.Keeps u

/-- While configurations are handed out, no feasible candidate is lost. -/
structure HandsOut (g : Covering) (t n : Nat) (groups : List ExpressionGroup)
    (F : Assignment → Prop) (queue : List Working) (accepted : Array LiteralSet) : Prop where
  fits : ∀ w ∈ queue, w.Fits n F
  room : accepted.size + queue.length ≤ g.maxConfigs
  decided : g.truncated = false → ∀ u, Candidate t groups u → Feasible F u →
    (∃ w ∈ queue, w.kept.Includes u) ∨ ∃ config ∈ accepted, config.Includes u

/-- No feasible candidate is lost, in either phase.  If no configuration may be yielded at all, there
    is no such candidate or the run counts as truncated. -/
structure Keeping (g : Covering) (t n : Nat) (groups : List ExpressionGroup) (maxSize : Nat)
    (F : Assignment → Prop) (accepted : Array LiteralSet) : Prop where
  maxConfigs : g.maxConfigs = maxSize
  closed : maxSize = 0 → g.truncated = false → ∀ u, Candidate t groups u → ¬ Feasible F u
  covering : g.phase = .covering → accepted = #[] ∧ g.Searches t n groups F
  emitting : ∀ queue, g.phase = .emitting queue → g.HandsOut t n groups F queue accepted

/-- A run that is not truncated ends with all feasible candidates in the sample. -/
def contract (t n : Nat) (groups : List ExpressionGroup) (settings : SampleSettings)
    (F : Assignment → Prop) : Contract Covering where
  Inv g accepted := g.Keeping t n groups settings.maxSize F accepted
  Goal g accepted := g.truncated = false → ∀ u, Candidate t groups u → Feasible F u →
    ∃ config ∈ accepted, config.Includes u

/-- A full sample is as good as one of a run that is done. -/
theorem goal_of_full (h : (contract t n groups settings F).Inv g accepted)
    (hsize : accepted.size = settings.maxSize) :
    (contract t n groups settings F).Goal g accepted := by
  intro htruncated u hu hfeasible
  cases hphase : g.phase with
  | covering =>
    obtain ⟨rfl, -⟩ := h.covering hphase
    exact absurd hfeasible (h.closed hsize.symm htruncated u hu)
  | emitting queue =>
    have hout := h.emitting queue hphase
    have hroom := hout.room
    rw [h.maxConfigs, hsize] at hroom
    have hempty : queue = [] := List.length_eq_zero_iff.1 (by omega)
    rcases hout.decided htruncated u hu hfeasible with ⟨w, hw, -⟩ | hdone
    · rw [hempty] at hw
      cases hw
    · exact hdone

/-! ## Covering -/

/-- At the end of the list every feasible candidate is kept. -/
theorem Searches.keeps_of_end (ht : 0 < t) (h : g.Searches t n groups F)
    (hend : g.truncated = true ∨ g.pending = none ∧ g.cursor.next? = none)
    (htruncated : g.truncated = false) (hu : Candidate t groups u) (hfeasible : Feasible F u) :
    g.Keeps u := by
  rcases hend with htrue | ⟨hpending, hnext⟩
  · rw [htruncated] at htrue
    cases htrue
  rcases h.decided htruncated u hu hfeasible with hoffers | hp | hkept
  · exact absurd hfeasible (Cursor.not_feasible_of_next?_eq_none ht h.ready hnext hoffers)
  · rw [hpending] at hp
    cases hp
  · exact hkept

theorem takeCandidate_eq_some (ht : 0 < t) (h : g.Searches t n groups F)
    (he : g.takeCandidate = (some u, g')) : g'.Searches t n groups F ∧ g'.pending = some u ∧
      g'.maxConfigs = g.maxConfigs ∧ g'.truncated = g.truncated ∧ g'.phase = g.phase := by
  unfold takeCandidate at he
  split at he
  · rename_i hpending
    cases he
    exact ⟨h, hpending, rfl, rfl, rfl⟩
  rename_i hpending
  split at he
  · cases he
  · rename_i hnext
    cases he
    obtain ⟨hready, hoffers, hback, hall⟩ := Cursor.next?_eq_some (F := F) ht h.ready hnext
    refine ⟨⟨hready, fun v hv => h.offered v (hback v hv), ?_, ⟨h.stocked.room, h.stocked.fits⟩, ?_⟩,
      rfl, rfl, rfl, rfl⟩
    · intro v hv
      cases hv
      exact h.offered _ hoffers
    · intro htruncated v hv hfeasible
      rcases h.decided htruncated v hv hfeasible with hoffered | hp | hkept
      · rcases hall v hoffered hfeasible with rfl | hahead
        · exact .inr (.inl rfl)
        · exact .inl hahead
      · rw [hpending] at hp
        cases hp
      · exact .inr (.inr hkept)

/-- A candidate that was interrupted is still in progress. -/
theorem Searches.extend (h : g.Searches t n groups F) (hopen : g.truncated = false)
    (hext : g.Extends g') (hstocked : g'.Stocked n F) : g'.Searches t n groups F where
  ready := hext.cursor ▸ h.ready
  offered := hext.cursor ▸ h.offered
  pending := hext.pending ▸ h.pending
  stocked := hstocked
  decided := by
    intro _ v hv hfeasible
    rw [hext.cursor, hext.pending]
    exact (h.decided hopen v hv hfeasible).imp_right (Or.imp_right (hext.keeps v))

/-- A candidate that was covered is not in progress any more. -/
theorem Searches.settle (h : g.Searches t n groups F) (hopen : g.truncated = false)
    (hpending : g.pending = some u) (hext : g.Extends g') (hstocked : g'.Stocked n F)
    (hsettled : g'.truncated = true ∨ g'.Keeps u ∨ ¬ Feasible F u) :
    Searches { g' with pending := none } t n groups F where
  ready := hext.cursor ▸ h.ready
  offered := hext.cursor ▸ h.offered
  pending := fun v hv => nomatch hv
  stocked := ⟨hstocked.room, hstocked.fits⟩
  decided := by
    intro hopen' v hv hfeasible
    have hdecided := h.decided hopen v hv hfeasible
    rw [hpending] at hdecided
    rcases hdecided with hoffers | hp | hkept
    · exact .inl (hext.cursor ▸ hoffers)
    · obtain rfl : u = v := Option.some.inj hp
      rcases hsettled with htrue | hkept | hinfeasible
      · rw [show g'.truncated = false from hopen'] at htrue
        cases htrue
      · exact .inr (.inr hkept)
      · exact absurd hfeasible hinfeasible
    · exact .inr (.inr (hext.keeps v hkept))

/-- A state of covering, in a run that has not accepted anything. -/
theorem Keeping.of_searches {maxSize : Nat} (hmax : g.maxConfigs = maxSize)
    (hclosed : maxSize = 0 → ∀ u, Candidate t groups u → ¬ Feasible F u)
    (hphase : g.phase = .covering) (h : g.Searches t n groups F) :
    g.Keeping t n groups maxSize F #[] := by
  exact ⟨hmax, fun h0 _ => hclosed h0, fun _ => ⟨rfl, h⟩,
    fun queue hqueue => absurd hqueue (not_emitting hphase queue)⟩

variable {g'' : Covering} {outcome : Except SampleError Outcome}

/-- After a move the candidate is still in progress or settled. -/
theorem Keeping.move (ht : 0 < t) (h : g.Keeping t n groups settings.maxSize F #[])
    (hphase : g.phase = .covering) (hopen : g.truncated = false)
    (htake : g.takeCandidate = (some u, g')) (hmove : Move (.right calm n F) g' u outcome g'') :
    (outcome = .ok .interrupted → g''.Keeping t n groups settings.maxSize F #[]) ∧
      (outcome = .ok .settled →
        Keeping { g'' with pending := none } t n groups settings.maxSize F #[]) := by
  obtain ⟨-, hsearches⟩ := h.covering hphase
  obtain ⟨hsearches', hpending, hmax, htruncated, hphase'⟩ := takeCandidate_eq_some ht hsearches htake
  have hext := hmove.extends
  have hstocked := hmove.stocked hsearches'.stocked
  have hopen' : g'.truncated = false := htruncated.trans hopen
  have hlimit : g''.maxConfigs = settings.maxSize := hext.maxConfigs.trans (hmax.trans h.maxConfigs)
  have hstays : g''.phase = .covering := hext.phase.trans (hphase'.trans hphase)
  refine ⟨fun _ => ?_, ?_⟩
  · exact .of_searches hlimit (fun h0 => h.closed h0 hopen) hstays
      (hsearches'.extend hopen' hext hstocked)
  · rintro rfl
    exact .of_searches hlimit (fun h0 => h.closed h0 hopen) hstays
      (hsearches'.settle hopen' hpending hext hstocked hmove.decided)

/-- Handing out starts with all working configurations. -/
theorem Keeping.handOver (ht : 0 < t) (h : g.Keeping t n groups settings.maxSize F #[])
    (hphase : g.phase = .covering)
    (hend : g.truncated = true ∨ g.pending = none ∧ g.cursor.next? = none) :
    g.handOver.Keeping t n groups settings.maxSize F #[] := by
  obtain ⟨-, hsearches⟩ := h.covering hphase
  refine ⟨h.maxConfigs, h.closed, (nomatch ·), fun queue hqueue => ?_⟩
  obtain rfl : g.working.toList = queue := CoveringPhase.emitting.inj hqueue
  refine ⟨fun w hw => hsearches.stocked.fits w (by simpa using hw), ?_, ?_⟩
  · show 0 + g.working.toList.length ≤ g.maxConfigs
    rw [Nat.zero_add, Array.length_toList]
    exact hsearches.stocked.room
  · intro htruncated u hu hfeasible
    obtain ⟨w, hw, hincludes⟩ := hsearches.keeps_of_end ht hend htruncated hu hfeasible
    exact .inl ⟨w, by simpa using hw, hincludes⟩

/-! ## Handing out -/

/-- After a working configuration was handed out, what it keeps is in the sample. -/
theorem Keeping.handOut {maxSize : Nat} {accepted' : Array LiteralSet}
    (h : g.Keeping t n groups maxSize F accepted) (hphase : g.phase = .emitting (w :: rest))
    (hsub : ∀ config ∈ accepted, config ∈ accepted') (hsize : accepted'.size ≤ accepted.size + 1)
    (hkept : ∃ config ∈ accepted', config.Includes w.kept) :
    Keeping { g with phase := .emitting rest } t n groups maxSize F accepted' := by
  have hout := h.emitting _ hphase
  refine ⟨h.maxConfigs, h.closed, (nomatch ·), fun queue hqueue => ?_⟩
  obtain rfl : rest = queue := CoveringPhase.emitting.inj hqueue
  refine ⟨fun w' hw' => hout.fits w' (List.mem_cons_of_mem _ hw'), ?_, ?_⟩
  · have hroom := hout.room
    rw [List.length_cons] at hroom
    show accepted'.size + rest.length ≤ g.maxConfigs
    omega
  · intro htruncated u hu hfeasible
    rcases hout.decided htruncated u hu hfeasible with ⟨w', hw', hincludes⟩ | ⟨config, hc, hincludes⟩
    · rcases List.mem_cons.1 hw' with rfl | hw'
      · obtain ⟨config, hc, hc'⟩ := hkept
        exact .inr ⟨config, hc, hc'.trans hincludes⟩
      · exact .inl ⟨w', hw', hincludes⟩
    · exact .inr ⟨config, hsub config hc, hincludes⟩

theorem Keeping.handOut_push {maxSize : Nat} {config : LiteralSet}
    (h : g.Keeping t n groups maxSize F accepted) (hphase : g.phase = .emitting (w :: rest))
    (hconfig : config.Includes w.kept) :
    Keeping { g with phase := .emitting rest } t n groups maxSize F (accepted.push config) :=
  h.handOut hphase (fun _ hc => Array.mem_push_of_mem _ hc) (by rw [Array.size_push])
    ⟨config, Array.mem_push_self, hconfig⟩

/-! ## All steps -/

/-- **Every step of a covering run** loses no feasible candidate. -/
theorem contract_kept (ht : 0 < t) (hwithin : GroupsWithin n groups) :
    (contract t n groups settings F).Kept settings n F := by
  intro S σ _ _ _ calm g accepted cx hserves hholds hinv hroom
  have h : g.Keeping t n groups settings.maxSize F accepted := hinv
  have hempty : settings.Left n F #[] = F := funext fun α => propext SampleSettings.left_empty
  have hstep := step_moves (g := g) settings accepted
    (Answers.governs_right calm n (settings.Left n F accepted)) hserves
  show (contract t n groups settings F).Promises calm settings n F accepted
    (g.step settings accepted cx)
  generalize g.step settings accepted cx = out at hstep ⊢
  obtain ⟨result, g', cx'⟩ := out
  obtain ⟨hserves', hmoves⟩ := hstep
  dsimp only at hserves' hmoves
  cases hmoves with
  | done hphase =>
    intro htruncated u hu hfeasible
    rcases (h.emitting [] hphase).decided htruncated u hu hfeasible with ⟨w, hw, -⟩ | hdone
    · cases hw
    · exact hdone
  | exhausted hnone => exact hnone
  | finished hphase hend =>
    obtain ⟨rfl, -⟩ := h.covering hphase
    exact ⟨hserves', h.handOver ht hphase hend⟩
  | settled hphase hopen htake hmove =>
    obtain ⟨rfl, -⟩ := h.covering hphase
    rw [hempty] at hmove
    exact ⟨hserves', (h.move ht hphase hopen htake hmove).2 rfl⟩
  | retained hphase hopen htake hmove hresult =>
    obtain ⟨rfl, hsearches⟩ := h.covering hphase
    rw [hempty] at hmove
    rcases hresult with ⟨e, rfl, rfl⟩ | ⟨rfl, rfl⟩
    · obtain ⟨hsearches', hpending, -⟩ := takeCandidate_eq_some ht hsearches htake
      exact hmove.gives_up ((hsearches'.pending _ hpending).within hwithin) hsearches'.stocked
    · exact ⟨hserves', (h.move ht hphase hopen htake hmove).1 rfl⟩
  | @handed w rest config hphase hconfig =>
    have hfit := (h.emitting _ hphase).fits w List.mem_cons_self
    rcases hconfig with ⟨rfl, hnew⟩ | ⟨hfull, hleft, hcontains⟩
    · refine ⟨w.witness, rfl, hfit.full, ⟨hfit.accepted, fun hd => ?_⟩, hserves',
        h.handOut_push hphase hfit.includes⟩
      rw [← hfit.full.eq_ofAssignment]
      exact hnew.resolve_left (by simp [hd])
    · refine ⟨config, rfl, hfull, hleft, hserves', h.handOut_push hphase fun x hx => ?_⟩
      exact hfull.contains_iff_mem.1 (hcontains x hx)
  | @dropped w rest hphase hold hnone =>
    have hfit := (h.emitting _ hphase).fits w List.mem_cons_self
    exact ⟨hserves', h.handOut hphase (fun _ hc => hc) (Nat.le_succ _)
      ⟨w.witness, hold, hfit.includes⟩⟩
  | @held w rest result hphase hresult =>
    have hfit := (h.emitting _ hphase).fits w List.mem_cons_self
    rcases hresult with ⟨e, hfails, rfl⟩ | rfl
    · intro hcalm
      refine (hfails hcalm).resolve_right fun hcheck => ?_
      rw [hfit.within.check] at hcheck
      cases hcheck
    · exact ⟨hserves', h⟩

end Covering

end ConfigSampler
