import ConfigSampler.Proofs.ClauseCounts
import ConfigSampler.Proofs.Compaction

/-!
# Clause lists in agreement with their arena

Storing clauses, raising activities and moving the live clauses to a fresh arena keep the accounts of
the clause lists in order, whatever the watch lists and the reasons name.  With what deletions keep
this holds after any sequence of operations (`Deed`), between which the solver may reorder the
literals of clauses and change its trail and its watch lists.

`agrees_after` is the main statement: **the lists name each live clause once and nothing else, the
counts are those of the listed clauses, no operation deletes a clause twice or subtracts from a count
that is too small, and the arena never wastes more words than it has**.
-/

set_option autoImplicit false

namespace ConfigSampler

namespace ClauseLists

open Arena

variable {a b : Arena} {d d' : ClauseLists} {p : Propagator} {r : ClauseRef}

/-! ## Storing clauses and raising activities -/

/-- The factor of activities plays no part. -/
theorem Accounts.withIncrement (h : d.Accounts a) (increment : Float) :
    Accounts { d with increment := increment } a :=
  Tallied.relist h d.clauses d.learnts increment

theorem words_rescale : ∀ (learnts : List ClauseRef) (a : Arena),
    (rescale learnts a).size = a.size ∧ (rescale learnts a).wasted = a.wasted
  | [], _ => ⟨rfl, rfl⟩
  | _ :: rest, _ => words_rescale rest _

/-- Raising an activity changes no counts and no words. -/
theorem words_bump (d : ClauseLists) (a : Arena) (r : ClauseRef) :
    (∃ increment, (d.bump a r).1 = { d with increment := increment }) ∧
    (d.bump a r).2.size = a.size ∧ (d.bump a r).2.wasted = a.wasted := by
  unfold bump
  dsimp only
  split
  · exact ⟨⟨_, rfl⟩, rfl, rfl⟩
  · split
    · exact ⟨⟨_, rfl⟩, words_rescale _ _⟩
    · exact ⟨⟨_, rfl⟩, rfl, rfl⟩

theorem Accounts.bump (h : d.Accounts a) (r : ClauseRef) :
    (d.bump a r).1.Accounts (d.bump a r).2 := by
  obtain ⟨hre, -⟩ := bump_spec d a r
  obtain ⟨⟨increment, hd⟩, hsize, hwasted⟩ := words_bump d a r
  have hsame : d.Accounts (d.bump a r).2 := by
    refine Tallied.congr h (fun _ => hre.isLive_iff) (fun s => ?_) (fun s => ?_) (fun s => ?_) hsize
      hwasted <;> obtain ⟨x, hx⟩ := hre.view s <;> simp only [hx, Clause.size]
  rw [hd]
  exact hsame.withIncrement increment

theorem Accounts.addClause (h : d.Accounts a) (lits : Array Lit) :
    (d.addClause a lits).2.1.Accounts (d.addClause a lits).2.2 := by
  have hpush := (Tallied.push h lits 0).relist (d.clauses.push (a.push lits false 0).1) d.learnts
    d.increment
  rw [← Array.toList_push] at hpush
  exact hpush

theorem Accounts.learnClause (h : d.Accounts a) (lits : Array Lit) :
    (d.learnClause a lits).2.1.Accounts (d.learnClause a lits).2.2 := by
  have hpush := (Tallied.push h.symm lits 0).symm.relist d.clauses
    (d.learnts.push (a.push lits true 0).1) d.increment
  rw [Bool.not_not, ← Array.toList_push] at hpush
  have hstored : Accounts { d.count true lits.size with
      learnts := d.learnts.push (a.push lits true 0).1 } (a.push lits true 0).2 := hpush
  exact hstored.bump (a.push lits true 0).1

/-- The order of literals plays no part. -/
theorem Accounts.swap (h : d.Accounts a) (r : ClauseRef) (i j : Nat) :
    d.Accounts (a.edit r fun c => c.swap i j) := by
  have halike := alike_edit (a := a) (r := r) fun c => c.alike_swap i j
  exact Tallied.congr h (fun _ => halike.isLive_iff) (fun s => (halike.clause s).learnt)
    (fun s => by simpa [Clause.size] using (halike.clause s).perm.length_eq)
    (fun s => (halike.clause s).movedTo) rfl rfl

theorem accounts_empty (settings : ClauseSettings) : (empty settings).Accounts Arena.empty := by
  have hdead : ∀ r, ¬ Arena.empty.IsLive r := fun r hr => Nat.not_lt_zero _ hr.index_lt
  have hnames : ∀ learnt, Names Arena.empty learnt [] := fun learnt =>
    ⟨List.nodup_nil, fun r => iff_of_false List.not_mem_nil fun hr => hdead r hr.1⟩
  exact ⟨⟨hnames _, hnames _⟩, ⟨rfl, rfl⟩, ⟨rfl, rfl⟩, Nat.le_refl 0,
    fun r hr => absurd hr (hdead r)⟩

end ClauseLists

/-! ## What moving clauses keeps -/

section Relocating

variable {P : Arena → Arena → Prop}

/-- The relation between the two arenas is kept when a clause moves. -/
def Arena.KeptByMoves (P : Arena → Arena → Prop) : Prop :=
  ∀ a b r, P a b → P (a.relocate b r).2.1 (a.relocate b r).2.2

theorem Propagator.relocateWatchers_keeps (hP : Arena.KeptByMoves P) : ∀ (ws : List Watcher)
    (kept : Array Watcher) (a b : Arena), P a b →
    P (relocateWatchers ws kept a b).2.1 (relocateWatchers ws kept a b).2.2
  | [], _, _, _, h => h
  | w :: ws, kept, a, b, h => by
    have hmove := hP a b w.clause h
    unfold relocateWatchers
    generalize a.relocate b w.clause = out at *
    obtain ⟨name, a', b'⟩ := out
    cases name <;> exact relocateWatchers_keeps hP ws _ a' b' hmove

theorem Propagator.relocateLists_keeps (hP : Arena.KeptByMoves P) : ∀ (lists : List WatchList)
    (done : Array WatchList) (a b : Arena), P a b →
    P (relocateLists lists done a b).2.1 (relocateLists lists done a b).2.2
  | [], _, _, _, h => h
  | list :: lists, _, a, b, h =>
    relocateLists_keeps hP lists _ _ _ (relocateWatchers_keeps hP list.watchers.toList #[] a b h)

theorem Trail.relocateReasons_keeps (hP : Arena.KeptByMoves P) : ∀ (lits : List Lit) (t : Trail)
    (a b : Arena), P a b →
    P (relocateReasons lits t a b).2.1 (relocateReasons lits t a b).2.2
  | [], _, _, _, h => h
  | l :: lits, t, a, b, h => by
    unfold relocateReasons
    split
    · exact relocateReasons_keeps hP lits t a b h
    · exact relocateReasons_keeps hP lits _ _ _ (hP a b _ h)

theorem ClauseLists.relocateRefs_keeps (hP : Arena.KeptByMoves P) : ∀ (refs : List ClauseRef)
    (kept : Array ClauseRef) (a b : Arena), P a b →
    P (relocateRefs refs kept a b).2.1 (relocateRefs refs kept a b).2.2
  | [], _, _, _, h => h
  | r :: refs, kept, a, b, h => by
    have hmove := hP a b r h
    unfold relocateRefs
    generalize a.relocate b r = out at *
    obtain ⟨name, a', b'⟩ := out
    cases name <;> exact relocateRefs_keeps hP refs _ a' b' hmove

end Relocating

namespace Arena

variable {a₀ a b : Arena} {learnt : Bool} {refs clauses learnts : List ClauseRef}

/-! ## The words of a fresh arena -/

/-- The arena was charged for exactly its clauses, and none of its words is wasted. -/
structure IsFilled (a : Arena) : Prop where
  size : a.size = (a.clauses.toList.map fun c => words c.size c.learnt).sum
  wasted : a.wasted = 0

theorem isFilled_empty : empty.IsFilled := ⟨rfl, rfl⟩

theorem IsFilled.push (h : a.IsFilled) (lits : Array Lit) (learnt : Bool) (activity : Float) :
    (a.push lits learnt activity).2.IsFilled := by
  refine ⟨?_, h.wasted⟩
  show a.size + words lits.size learnt = _
  simp only [Arena.push, Array.toList_push, List.map_append, List.sum_append, List.map_cons,
    List.map_nil, List.sum_cons, List.sum_nil, h.size]
  rfl

/-- Clauses that move fill the new arena. -/
theorem keptByMoves_filling (a₀ : Arena) :
    KeptByMoves fun a b => Moving a₀ a b ∧ b.IsFilled := by
  rintro a b r ⟨hmoving, hfilled⟩
  obtain ⟨hmoving', -⟩ := hmoving.relocate r rfl
  refine ⟨hmoving', ?_⟩
  unfold relocate
  dsimp only
  split
  · exact hfilled
  · split
    · exact hfilled
    · exact hfilled.push _ _ _

/-- The words of listed clauses of one kind. -/
theorem sum_words (h : ∀ r ∈ refs, (a.view r).learnt = learnt) :
    (refs.map fun r => words (a.view r).size (a.view r).learnt).sum =
      refs.length * words 0 learnt + a.literals refs := by
  induction refs with
  | nil => simp [literals]
  | cons r refs ih =>
    obtain ⟨hr, hrefs⟩ := List.forall_mem_cons.1 h
    rw [List.map_cons, List.sum_cons, ih hrefs, hr, literals_cons, List.length_cons, Nat.succ_mul]
    simp only [words]
    omega

/-- If all clauses are live, the lists name all places of the arena. -/
theorem index_perm_range (hlive : ∀ r : ClauseRef, r.index < a.clauses.size → a.IsLive r)
    (hd : ClauseLists.Divided a false clauses learnts) :
    ((clauses ++ learnts).map ClauseRef.index).Perm (List.range a.clauses.size) := by
  have hnodup : ((clauses ++ learnts).map ClauseRef.index).Nodup := by
    refine List.Nodup.map (fun r s he => by cases r; cases s; exact congrArg _ he) ?_
    refine List.nodup_append'.2 ⟨hd.own.nodup, hd.other.nodup, fun r hr hr' => ?_⟩
    have hkind := ((hd.own.mem_iff r).1 hr).2
    rw [((hd.other.mem_iff r).1 hr').2] at hkind
    cases hkind
  refine (List.perm_ext_iff_of_nodup hnodup List.nodup_range).2 fun i => ?_
  rw [List.mem_range, List.mem_map]
  constructor
  · rintro ⟨r, hr, rfl⟩
    rcases List.mem_append.1 hr with hr | hr
    · exact ((hd.own.mem_iff r).1 hr).1.index_lt
    · exact ((hd.other.mem_iff r).1 hr).1.index_lt
  · intro hi
    refine ⟨⟨i⟩, List.mem_append.2 ?_, rfl⟩
    have hr := hlive ⟨i⟩ hi
    cases hkind : (a.view ⟨i⟩).learnt with
    | false => exact .inl ((hd.own.mem_iff _).2 ⟨hr, hkind⟩)
    | true => exact .inr ((hd.other.mem_iff _).2 ⟨hr, hkind⟩)

theorem map_view_range (a : Arena) (f : Clause → Nat) :
    (List.range a.clauses.size).map (fun i => f (a.view ⟨i⟩)) = a.clauses.toList.map f := by
  refine List.ext_getElem (by simp) fun i hi hi' => ?_
  have hlt : i < a.clauses.size := by simpa using hi
  simp [view, Array.getD_eq_getD_getElem?, hlt]

/-- If all clauses are live, an arena is charged for the listed ones. -/
theorem IsFilled.size_eq (h : a.IsFilled)
    (hlive : ∀ r : ClauseRef, r.index < a.clauses.size → a.IsLive r)
    (hd : ClauseLists.Divided a false clauses learnts) :
    a.size = clauses.length + a.literals clauses + (2 * learnts.length + a.literals learnts) := by
  have hsum := ((index_perm_range hlive hd).map fun i =>
    words (a.view ⟨i⟩).size (a.view ⟨i⟩).learnt).sum_nat
  rw [a.map_view_range fun c => words c.size c.learnt, ← h.size, List.map_map] at hsum
  rw [← hsum]
  show ((clauses ++ learnts).map fun r => words (a.view r).size (a.view r).learnt).sum = _
  rw [List.map_append, List.sum_append, sum_words fun r hr => ((hd.own.mem_iff r).1 hr).2,
    sum_words fun r hr => ((hd.other.mem_iff r).1 hr).2]
  simp only [words, Bool.not_false, if_true, Bool.false_eq_true, if_false]
  omega

/-! ## The names after the move -/

/-- Listed clauses that are live have moved when the list is renamed. -/
theorem Moving.relocateRefs : ∀ (refs : List ClauseRef) (kept : Array ClauseRef) (a b : Arena),
    Moving a₀ a b → (∀ r ∈ refs, a₀.IsLive r) →
    ∀ {kept' : Array ClauseRef} {a' b' : Arena},
      ClauseLists.relocateRefs refs kept a b = (kept', a', b') →
      Moving a₀ a' b' ∧
      (∀ s n, (a.view s).movedTo = some n → (a'.view s).movedTo = some n ∨ ¬ a₀.IsLive s) ∧
      kept'.toList = kept.toList ++ refs.map a'.newName ∧
      ∀ r ∈ refs, (a'.view r).movedTo = some (a'.newName r)
  | [], kept, a, b, h, _, kept', a', b', he => by
    cases he
    exact ⟨h, fun _ _ hn => .inl hn, by simp, by simp⟩
  | r :: refs, kept, a, b, h, hlive, kept', a', b', he => by
    unfold ClauseLists.relocateRefs at he
    generalize hout : a.relocate b r = out at he
    obtain ⟨name, a1, b1⟩ := out
    obtain ⟨hr, hrefs⟩ := List.forall_mem_cons.1 hlive
    obtain ⟨h1, hmono1, hname⟩ := h.relocate r hout
    obtain ⟨-, hname, hsome⟩ := hname.resolve_right fun hdead => hdead.1 hr
    obtain ⟨n, rfl⟩ := Option.isSome_iff_exists.1 hsome
    obtain ⟨h2, hmono2, hkept, hmoved⟩ := Moving.relocateRefs refs _ a1 b1 h1 hrefs he
    have hn : (a'.view r).movedTo = some n := (hmono2 r n hname.symm).resolve_right (not_not.2 hr)
    have hnew : a'.newName r = n := by rw [newName, hn]; rfl
    refine ⟨h2, Propagator.mono_trans hmono1 hmono2, ?_, List.forall_mem_cons.2 ⟨?_, hmoved⟩⟩
    · rw [hkept, List.map_cons, hnew]
      simp
    · rw [hn, hnew]

/-- The new names of all live clauses of one kind. -/
theorem Moving.names (h : Moving a₀ a b) (hnames : ClauseLists.Names a₀ learnt refs)
    (hmoved : ∀ r ∈ refs, (a.view r).movedTo = some (a.newName r)) :
    ClauseLists.Names b learnt (refs.map a.newName) := by
  have hlive : ∀ r ∈ refs, a₀.IsLive r := fun r hr => ((hnames.mem_iff r).1 hr).1
  refine ⟨List.Nodup.map_on (fun r hr s hs he => ?_) hnames.nodup, fun n => ?_⟩
  · refine h.injective r s _ (hlive r hr) (hlive s hs) (hmoved r hr) ?_
    rw [he]
    exact hmoved s hs
  · rw [List.mem_map]
    constructor
    · rintro ⟨r, hr, rfl⟩
      refine ⟨h.isLive_of_moved (hlive r hr) (hmoved r hr), ?_⟩
      rw [h.moved r _ (hlive r hr) (hmoved r hr)]
      exact ((hnames.mem_iff r).1 hr).2
    · rintro ⟨hn, hkind⟩
      obtain ⟨r, hr, hrn⟩ := h.surjective n hn
      rw [h.moved r n hr hrn] at hkind
      refine ⟨r, (hnames.mem_iff r).2 ⟨hr, hkind⟩, ?_⟩
      rw [newName, hrn]
      rfl

theorem Moving.literals_map (h : Moving a₀ a b) (hlive : ∀ r ∈ refs, a₀.IsLive r)
    (hmoved : ∀ r ∈ refs, (a.view r).movedTo = some (a.newName r)) :
    b.literals (refs.map a.newName) = a₀.literals refs := by
  unfold literals
  rw [List.map_map]
  refine congrArg List.sum (List.map_congr_left fun r hr => ?_)
  show (b.view (a.newName r)).size = _
  rw [h.moved r _ (hlive r hr) (hmoved r hr)]
  rfl

end Arena

namespace ClauseLists

open Arena

variable {a : Arena} {d : ClauseLists} {p : Propagator}

/-- The accounts after the clauses have moved and the lists have been renamed. -/
theorem Accounts.moved {b a' : Arena} {clauses learnts : Array ClauseRef} (h : d.Accounts a)
    (hmoving : Moving a a' b) (hfilled : b.IsFilled)
    (hclauses : clauses.toList = d.clauses.toList.map a'.newName)
    (hlearnts : learnts.toList = d.learnts.toList.map a'.newName)
    (hmoved : ∀ r ∈ d.clauses.toList ++ d.learnts.toList,
      (a'.view r).movedTo = some (a'.newName r)) :
    Accounts { d with clauses := clauses, learnts := learnts } b := by
  obtain ⟨hmovedClauses, hmovedLearnts⟩ := List.forall_mem_append.1 hmoved
  have hliveClauses : ∀ r ∈ d.clauses.toList, a.IsLive r := fun r hr =>
    ((h.divided.own.mem_iff r).1 hr).1
  have hliveLearnts : ∀ r ∈ d.learnts.toList, a.IsLive r := fun r hr =>
    ((h.divided.other.mem_iff r).1 hr).1
  have hdivided : Divided b false clauses.toList learnts.toList := by
    rw [hclauses, hlearnts]
    exact ⟨hmoving.names h.divided.own hmovedClauses, hmoving.names h.divided.other hmovedLearnts⟩
  have hown : Counts { d with clauses := clauses, learnts := learnts } b false clauses.toList := by
    rw [hclauses]
    exact ⟨h.own.number.trans (List.length_map _).symm,
      h.own.literals.trans (hmoving.literals_map hliveClauses hmovedClauses).symm⟩
  have hother : Counts { d with clauses := clauses, learnts := learnts } b true learnts.toList := by
    rw [hlearnts]
    exact ⟨h.other.number.trans (List.length_map _).symm,
      h.other.literals.trans (hmoving.literals_map hliveLearnts hmovedLearnts).symm⟩
  refine ⟨hdivided, hown, hother, ?_, fun n hn => ?_⟩
  · have hsize := hfilled.size_eq hmoving.stored hdivided
    rw [← hown.number, ← hown.literals, ← hother.number, ← hother.literals] at hsize
    rw [hfilled.wasted, hsize, Nat.zero_add]
    exact Nat.le_refl _
  · obtain ⟨r, hr, hrn⟩ := hmoving.surjective n hn
    rw [hmoving.moved r n hr hrn]

/-- **Compaction keeps the accounts in order**, whatever the watch lists and the reasons name. -/
theorem Accounts.compact (h : d.Accounts p.arena) :
    (compact d p).1.Accounts (compact d p).2.arena := by
  have hkeeps := keptByMoves_filling p.arena
  have hwatched := Propagator.relocateLists_keeps hkeeps p.watches.slots.toList #[] _ _
    ⟨.start h.unmoved, isFilled_empty⟩
  unfold ConfigSampler.compact
  generalize Propagator.relocateLists p.watches.slots.toList #[] p.arena Arena.empty = out at *
  obtain ⟨lists, a₁, b₁⟩ := out
  have hreasons := Trail.relocateReasons_keeps hkeeps p.trail.lits.toList p.trail _ _ hwatched
  dsimp only [Trail.relocate]
  generalize Trail.relocateReasons p.trail.lits.toList p.trail a₁ b₁ = out at *
  obtain ⟨t, a₂, b₂⟩ := out
  have hlearnts := ClauseLists.relocateRefs_keeps hkeeps d.learnts.toList #[] _ _ hreasons
  unfold ClauseLists.relocate
  generalize hout : relocateRefs d.learnts.toList #[] a₂ b₂ = out at *
  obtain ⟨learnts, a₃, b₃⟩ := out
  have hclauses := ClauseLists.relocateRefs_keeps hkeeps d.clauses.toList #[] _ _ hlearnts
  dsimp only
  generalize hout' : relocateRefs d.clauses.toList #[] a₃ b₃ = out' at *
  obtain ⟨clauses, a₄, b₄⟩ := out'
  have hliveLearnts : ∀ r ∈ d.learnts.toList, p.arena.IsLive r := fun r hr =>
    ((h.divided.other.mem_iff r).1 hr).1
  obtain ⟨-, -, hlearntsEq, hlearntsMoved⟩ :=
    Moving.relocateRefs _ _ _ _ hreasons.1 hliveLearnts hout
  obtain ⟨-, hmono, hclausesEq, hclausesMoved⟩ := Moving.relocateRefs _ _ _ _ hlearnts.1
    (fun r hr => ((h.divided.own.mem_iff r).1 hr).1) hout'
  -- the problem clauses move last, and names that were given before stay
  have hstays : ∀ r ∈ d.learnts.toList, (a₄.view r).movedTo = some (a₃.newName r) := fun r hr =>
    (hmono r _ (hlearntsMoved r hr)).resolve_right (not_not.2 (hliveLearnts r hr))
  have hsame : ∀ r ∈ d.learnts.toList, a₃.newName r = a₄.newName r := fun r hr => by
    rw [newName.eq_def a₄, hstays r hr]
    rfl
  refine h.moved hclauses.1 hclauses.2 (by simpa using hclausesEq) ?_ (List.forall_mem_append.2
    ⟨hclausesMoved, fun r hr => ?_⟩)
  · rw [hlearntsEq, List.map_congr_left hsame]
    rfl
  · rw [hstays r hr, hsame r hr]

/-! ## Sequences of operations -/

/-- What may be done with the clause lists, and between that with the propagator. -/
inductive Deed where
  | add (lits : Array Lit)
  | learn (lits : Array Lit)
  | bump (r : ClauseRef)
  | decay
  | reduce
  | removeSatisfied
  | compact
  /-- Two literals of a clause change places. -/
  | swap (r : ClauseRef) (i j : Nat)
  | setTrail (trail : Trail)
  | setWatches (watches : WatchTable)

namespace Deed

/-- The lists and the propagator afterwards. -/
def perform (d : ClauseLists) (p : Propagator) : Deed → ClauseLists × Propagator
  | add lits =>
    let (_, d, arena) := d.addClause p.arena lits
    (d, { p with arena := arena })
  | learn lits =>
    let (_, d, arena) := d.learnClause p.arena lits
    (d, { p with arena := arena })
  | bump r =>
    let (d, arena) := d.bump p.arena r
    (d, { p with arena := arena })
  | decay => (d.decay, p)
  | reduce => d.reduce p
  | removeSatisfied => d.removeSatisfied p
  | compact => ConfigSampler.compact d p
  | swap r i j => (d, { p with arena := p.arena.edit r fun c => c.swap i j })
  | setTrail trail => (d, { p with trail := trail })
  | setWatches watches => (d, { p with watches := watches })

/-- The same, with the checks of deletions. -/
def performChecked (d : ClauseLists) (p : Propagator) : Deed → Option (ClauseLists × Propagator)
  | reduce => Checked.reduce d p
  | removeSatisfied => Checked.removeSatisfied d p
  | deed => some (deed.perform d p)

/-- The lists and the propagator after operations, in order. -/
def run (d : ClauseLists) (p : Propagator) : List Deed → ClauseLists × Propagator
  | [] => (d, p)
  | deed :: deeds =>
    let (d, p) := deed.perform d p
    run d p deeds

/-- The same, with the checks of deletions. -/
def runChecked (d : ClauseLists) (p : Propagator) : List Deed → Option (ClauseLists × Propagator)
  | [] => some (d, p)
  | deed :: deeds =>
    match deed.performChecked d p with
    | none => none
    | some (d, p) => runChecked d p deeds

theorem perform_checked (h : d.Accounts p.arena) (deed : Deed) :
    deed.performChecked d p = some (deed.perform d p) ∧
      (deed.perform d p).1.Accounts (deed.perform d p).2.arena := by
  cases deed with
  | add lits => exact ⟨rfl, h.addClause lits⟩
  | learn lits => exact ⟨rfl, h.learnClause lits⟩
  | bump r => exact ⟨rfl, h.bump r⟩
  | decay => exact ⟨rfl, h.withIncrement _⟩
  | reduce => exact reduce_checked h
  | removeSatisfied => exact removeSatisfied_checked h
  | compact => exact ⟨rfl, h.compact⟩
  | swap r i j => exact ⟨rfl, h.swap r i j⟩
  | setTrail trail => exact ⟨rfl, h⟩
  | setWatches watches => exact ⟨rfl, h⟩

theorem run_checked : ∀ (deeds : List Deed) {d : ClauseLists} {p : Propagator},
    d.Accounts p.arena →
    runChecked d p deeds = some (run d p deeds) ∧ (run d p deeds).1.Accounts (run d p deeds).2.arena
  | [], _, _, h => ⟨rfl, h⟩
  | deed :: deeds, d, p, h => by
    obtain ⟨hchecked, hleft⟩ := perform_checked h deed
    unfold runChecked run
    rw [hchecked]
    exact run_checked deeds hleft

end Deed

/-- What the lists and their counts say about the arena. -/
structure Agrees (d : ClauseLists) (a : Arena) : Prop where
  clauses : Names a false d.clauses.toList
  learnts : Names a true d.learnts.toList
  numClauses : d.numClauses = d.clauses.size
  numLearnts : d.numLearnts = d.learnts.size
  clauseLiterals : d.clauseLiterals = a.literals d.clauses.toList
  learntLiterals : d.learntLiterals = a.literals d.learnts.toList
  wasted_le : a.wasted ≤ a.size

theorem Accounts.agrees (h : d.Accounts a) : d.Agrees a where
  clauses := h.divided.own
  learnts := h.divided.other
  numClauses := h.own.number
  numLearnts := h.other.number
  clauseLiterals := h.own.literals
  learntLiterals := h.other.literals
  wasted_le := h.wasted_le

/-- **Lists and counts agree with the arena** after any operations, none of which fails a check. -/
theorem agrees_after (settings : ClauseSettings) (deeds : List Deed) :
    Deed.runChecked (empty settings) Propagator.empty deeds =
      some (Deed.run (empty settings) Propagator.empty deeds) ∧
    (Deed.run (empty settings) Propagator.empty deeds).1.Agrees
      (Deed.run (empty settings) Propagator.empty deeds).2.arena := by
  have hstart : (empty settings).Accounts Propagator.empty.arena := accounts_empty settings
  obtain ⟨hchecked, hleft⟩ := Deed.run_checked deeds hstart
  exact ⟨hchecked, hleft.agrees⟩

end ClauseLists

end ConfigSampler
