import ConfigSampler.Proofs.Renderings

/-!
# Strict and lenient reading

Both modes read the same document.  When its declared counts fit its body (`Document.Fits`), every
clause lies within the declared table, so the lenient mode never grows it and the strict mode never
refuses anything: the two return the same, faults and notes included
(`Document.toCnf_strict_of_fits`).  Whatever the strict mode accepts has fitting counts
(`Document.fits_of_toCnf_strict`), although the body is checked in two places, clause by clause and
at its end.

Principal result: `Dimacs.accepts_strict_iff`.
-/

set_option autoImplicit false

namespace ConfigSampler

namespace Dimacs

variable {doc : Document} {entry : Entry} {cnf cnf' : Cnf} {journal journal' : Journal}
  {mode : Mode} {size line : Nat} {e : SampleError}

/-! ## Documents whose declared counts fit -/

/-- No variable of the clause is beyond the first `n`. -/
def Entry.Within (entry : Entry) (n : Nat) : Prop := ∀ x ∈ entry.literals, x.natAbs ≤ n

instance (entry : Entry) (n : Nat) : Decidable (entry.Within n) :=
  inferInstanceAs (Decidable (∀ x ∈ entry.literals, x.natAbs ≤ n))

/-- The declared counts fit the body: there are as many clauses as declared, tautologies and empty
    clauses included, and no variable is beyond the declared ones. -/
structure Document.Fits (doc : Document) : Prop where
  clauses : doc.declaredClauses = doc.clauses.size
  literals : ∀ entry ∈ doc.clauses, entry.Within doc.declaredVariables

instance (doc : Document) : Decidable doc.Fits :=
  decidable_of_iff (doc.declaredClauses = doc.clauses.size ∧
      ∀ entry ∈ doc.clauses, entry.Within doc.declaredVariables)
    ⟨fun h => ⟨h.1, h.2⟩, fun h => ⟨h.clauses, h.literals⟩⟩

/-- The distinct variables of clauses within a table are no more than the table has. -/
theorem Document.usedVariables_le {n : Nat} (h : ∀ entry ∈ doc.clauses, entry.Within n) :
    doc.usedVariables ≤ n := by
  have hplace : ∀ (lits : List Int) (slots : Array Int),
      (lits.foldl LiteralSet.place slots).size = slots.size := by
    intro lits
    induction lits with
    | nil => intro slots; rfl
    | cons x lits ih =>
      intro slots
      rw [List.foldl_cons, ih]
      unfold LiteralSet.place
      split
      · rfl
      · exact Array.size_setIfInBounds
  have hgreatest : greatestVariable (doc.clauses.toList.flatMap Entry.literals) ≤ n := by
    rw [le_greatestVariable_iff]
    intro x hx
    obtain ⟨entry, hentry, hx⟩ := List.mem_flatMap.1 hx
    exact h entry (Array.mem_toList_iff.1 hentry) x hx
  refine Nat.le_trans (List.length_filter_le _ _) ?_
  simp only [LiteralSet.ofModel, Array.length_toList, hplace, Array.size_replicate]
  exact hgreatest

/-! ## The table while the clauses are added -/

theorem sizeWith_of_within (h : entry.Within size) : sizeWith mode size entry = .ok size :=
  if_pos (le_greatestVariable_iff.2 h)

/-- A clause is never refused or made room for beyond the table in strict mode. -/
theorem sizeWith_strict_eq_ok {size' : Nat} :
    sizeWith .strict size entry = .ok size' ↔ entry.Within size ∧ size' = size := by
  unfold sizeWith
  dsimp only
  split
  · rename_i h
    have hwithin : entry.Within size := le_greatestVariable_iff.1 h
    simp [hwithin, eq_comm]
  · rename_i h
    have hnot : ¬ entry.Within size := fun hw => h (le_greatestVariable_iff.2 hw)
    simp [hnot]

theorem growTo_size (cnf : Cnf) : growTo cnf cnf.size = cnf := if_pos (Nat.le_refl _)

/-- Over clauses within the table the mode makes no difference. -/
theorem addEntries_strict_of_within : ∀ (entries : List Entry) (cnf : Cnf) (journal : Journal),
    (∀ entry ∈ entries, entry.Within cnf.size) →
    addEntries .strict cnf journal entries = addEntries .lenient cnf journal entries
  | [], _, _, _ => rfl
  | entry :: rest, cnf, journal, h => by
    obtain ⟨hentry, hrest⟩ := List.forall_mem_cons.1 h
    simp only [addEntries, sizeWith_of_within hentry, growTo_size]
    have hvars := cnf.vars_addClause entry.literals
    generalize cnf.addClause entry.literals = out at hvars ⊢
    obtain ⟨result, cnf₁⟩ := out
    dsimp only at hvars
    cases result with
    | error e => rfl
    | ok _ =>
      apply addEntries_strict_of_within rest
      rw [Cnf.size, hvars]
      exact hrest

/-- Clauses that the strict mode adds are within the table. -/
theorem within_of_addEntries_strict : ∀ (entries : List Entry) {cnf : Cnf} {journal : Journal},
    addEntries .strict cnf journal entries = (.ok cnf', journal') →
    ∀ entry ∈ entries, entry.Within cnf.size
  | [], _, _, _ => by simp
  | entry :: rest, cnf, journal, h => by
    unfold addEntries at h
    split at h
    · cases h
    rename_i size hsize
    obtain ⟨hentry, rfl⟩ := sizeWith_strict_eq_ok.1 hsize
    split at h
    · cases h
    rename_i cnf₁ hadd
    have hvars := cnf.vars_addClause entry.literals
    rw [growTo_size] at hadd
    rw [hadd] at hvars
    have hrest := within_of_addEntries_strict rest h
    rw [Cnf.size, hvars] at hrest
    exact List.forall_mem_cons.2 ⟨hentry, hrest⟩

/-! ## The check at the end -/

/-- Where the counts fit, the check at the end passes; the number of variables in use cannot be its
    reason to fail, since the clauses were checked one by one. -/
theorem Document.Fits.checkCounts (h : doc.Fits) (mode : Mode) (line : Nat) :
    checkCounts mode doc line = .ok () := by
  cases mode with
  | lenient => rfl
  | strict =>
    have hvars := Nat.not_lt.2 (usedVariables_le h.literals)
    simp only [Dimacs.checkCounts, h.clauses, ne_eq, not_true_eq_false, hvars, if_false]

theorem clauses_of_checkCounts_strict (h : checkCounts .strict doc line = .ok ()) :
    doc.declaredClauses = doc.clauses.size := by
  unfold checkCounts at h
  dsimp only at h
  split at h
  · cases h
  · rename_i hsame
    exact not_not.1 hsame

/-! ## Whole documents and texts -/

theorem size_start (doc : Document) :
    (Cnf.ofVariables (Variables.anonymous doc.declaredVariables)).size = doc.declaredVariables :=
  size_anonymous doc.declaredVariables

/-- **Where the counts fit the mode makes no difference**, neither to the formula nor to faults or
    notes. -/
theorem Document.toCnf_strict_of_fits (h : doc.Fits) :
    doc.toCnf .strict = doc.toCnf .lenient := by
  have hentries := addEntries_strict_of_within doc.clauses.toList
    (Cnf.ofVariables (Variables.anonymous doc.declaredVariables)) #[] fun entry hentry => by
      rw [size_start]
      exact h.literals entry (Array.mem_toList_iff.1 hentry)
  simp only [toCnf, hentries, h.checkCounts]

/-- **What the strict mode accepts has fitting counts.** -/
theorem Document.fits_of_toCnf_strict (h : doc.toCnf .strict = (.ok cnf, journal)) : doc.Fits := by
  unfold toCnf at h
  dsimp only at h
  split at h
  · cases h
  rename_i hentries
  have hwithin := within_of_addEntries_strict _ hentries
  rw [size_start] at hwithin
  split at h
  · cases h
  split at h
  · cases h
  rename_i hcheck
  exact ⟨clauses_of_checkCounts_strict hcheck,
    fun entry hentry => hwithin entry (Array.mem_toList_iff.2 hentry)⟩

/-- The declared counts of the text's header fit its body. -/
def CountsFit (text : String) : Prop := ∃ doc, Document.ofText text = .ok doc ∧ doc.Fits

instance (text : String) : Decidable (CountsFit text) :=
  match h : Document.ofText text with
  | .error _ => .isFalse fun ⟨_, hdoc, _⟩ => by
    rw [h] at hdoc
    cases hdoc
  | .ok doc => decidable_of_iff doc.Fits
    ⟨fun hfits => ⟨doc, h, hfits⟩, fun ⟨_, hdoc, hfits⟩ => by
      rw [h] at hdoc
      cases hdoc
      exact hfits⟩

/-- Reading the text gives a formula. -/
def Accepts (mode : Mode) (text : String) : Prop := ∃ cnf, (parseText mode text).1 = .ok cnf

/-- **Texts with fitting counts read the same in both modes.** -/
theorem parseText_strict_of_countsFit {text : String} (h : CountsFit text) :
    parseText .strict text = parseText .lenient text := by
  obtain ⟨doc, hdoc, hfits⟩ := h
  unfold parseText
  rw [hdoc]
  exact Document.toCnf_strict_of_fits hfits

/-- **Texts that the strict mode accepts have fitting counts.** -/
theorem Accepts.countsFit {text : String} (h : Accepts .strict text) : CountsFit text := by
  obtain ⟨cnf, h⟩ := h
  unfold parseText at h
  split at h
  · cases h
  · rename_i doc hdoc
    exact ⟨doc, hdoc, Document.fits_of_toCnf_strict (Prod.ext h rfl)⟩

/-- **Strict reading is lenient reading of texts with fitting counts**: it accepts a text exactly if
    the lenient mode does and the declared counts fit the body, and then both modes return the same
    table and the same clauses. -/
theorem accepts_strict_iff (text : String) :
    (Accepts .strict text ↔ Accepts .lenient text ∧ CountsFit text) ∧
    ∀ strict lenient, (parseText .strict text).1 = .ok strict →
      (parseText .lenient text).1 = .ok lenient →
      strict.vars = lenient.vars ∧ strict.clauses = lenient.clauses := by
  refine ⟨⟨fun h => ?_, fun ⟨h, hfit⟩ => ?_⟩, fun strict lenient hstrict hlenient => ?_⟩
  · have hsame := parseText_strict_of_countsFit h.countsFit
    exact ⟨by rwa [Accepts, ← hsame], h.countsFit⟩
  · rwa [Accepts, parseText_strict_of_countsFit hfit]
  · have hfit : CountsFit text := Accepts.countsFit ⟨strict, hstrict⟩
    rw [parseText_strict_of_countsFit hfit, hlenient] at hstrict
    cases hstrict
    exact ⟨rfl, rfl⟩

/-- The tautology and the empty clause count as clauses, although the tautology is not stored; a text
    that declares one clause or one variable less is accepted in lenient mode only. -/
theorem accepts_strict_dropped_clauses :
    (∃ strict lenient, (parseText .strict "p cnf 2 3\n1 -1 0\n0\n1 2 1 0\n").1 = .ok strict ∧
      (parseText .lenient "p cnf 2 3\n1 -1 0\n0\n1 2 1 0\n").1 = .ok lenient ∧
      strict.clauses.size = 2 ∧ strict.vars = lenient.vars ∧ strict.clauses = lenient.clauses) ∧
    (Accepts .lenient "p cnf 2 2\n1 -1 0\n0\n1 2 1 0\n" ∧
      ¬ Accepts .strict "p cnf 2 2\n1 -1 0\n0\n1 2 1 0\n") ∧
    Accepts .lenient "p cnf 1 3\n1 -1 0\n0\n1 2 1 0\n" ∧
      ¬ Accepts .strict "p cnf 1 3\n1 -1 0\n0\n1 2 1 0\n" := by
  have hstrict : (parseText .strict "p cnf 2 3\n1 -1 0\n0\n1 2 1 0\n").1 =
      .ok ⟨Variables.anonymous 2, #[⟨.unordered, #[]⟩, ⟨.unordered, #[1, 2]⟩]⟩ := by
    decide +kernel
  have hlenient : ∀ text ∈ ["p cnf 2 3\n1 -1 0\n0\n1 2 1 0\n",
      "p cnf 2 2\n1 -1 0\n0\n1 2 1 0\n", "p cnf 1 3\n1 -1 0\n0\n1 2 1 0\n"],
      (parseText .lenient text).1 =
        .ok ⟨Variables.anonymous 2, #[⟨.unordered, #[]⟩, ⟨.unordered, #[1, 2]⟩]⟩ := by
    decide +kernel
  have hfew : ¬ CountsFit "p cnf 2 2\n1 -1 0\n0\n1 2 1 0\n" := by decide +kernel
  have hbeyond : ¬ CountsFit "p cnf 1 3\n1 -1 0\n0\n1 2 1 0\n" := by decide +kernel
  refine ⟨⟨_, _, hstrict, hlenient _ (by simp), rfl,
      (accepts_strict_iff _).2 _ _ hstrict (hlenient _ (by simp))⟩,
    ⟨⟨_, hlenient _ (by simp)⟩, fun h => hfew ((accepts_strict_iff _).1.1 h).2⟩,
    ⟨_, hlenient _ (by simp)⟩, fun h => hbeyond ((accepts_strict_iff _).1.1 h).2⟩

end Dimacs

end ConfigSampler
