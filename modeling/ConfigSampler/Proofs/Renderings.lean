import ConfigSampler.Proofs.Comments
import ConfigSampler.Proofs.Formulas
import Mathlib.Data.List.TakeWhile

/-!
# Renderings of formulas

A list of clauses can be written in many ways: numbers with leading zeros or signs, any white space
between them, and comments before the header and between the clauses (`Dimacs.Renders`).  Reading in
lenient mode inverts all of them, as long as no comment names a variable: it returns the clauses in
order, without tautologies and without repeated literals (`Dimacs.parseText_rendering`).
-/

set_option autoImplicit false

namespace ConfigSampler

namespace Dimacs

open Text

variable {n m line : Nat} {x : Int} {c : Char} {lits : List Int} {clauses : List (List Int)}
  {text token gap cs rest : List Char} {names : Array (Nat × String)} {doc : Document}

/-! ## Ways to write clauses -/

/-- The text of a comment, which names none of `n` variables. -/
structure Silent (n : Nat) (text : List Char) : Prop where
  line : '\n' ∉ text
  names : ∀ index name, Names index name text → index = 0 ∨ n < index

/-- A comment that no name is taken from names no variable. -/
theorem silent_of_unnamed (hn : n ≤ maxNamedVariable) (hline : '\n' ∉ text)
    (hnone : nameOfComment text = none) : Silent n text := by
  refine ⟨hline, fun index name hnames => ?_⟩
  by_contra hcon
  have hsome : nameOfComment text = some (index, String.ofList name) := by
    rw [nameOfComment_eq_some, String.toList_ofList]
    exact ⟨hnames, by omega, by omega⟩
  rw [hsome] at hnone
  cases hnone

/-- White space and lines of comments that name none of `n` variables. -/
inductive Gap (n : Nat) : List Char → Prop
  | nil : Gap n []
  | blank {c : Char} {cs : List Char} (hc : isBlank c = true) (h : Gap n cs) : Gap n (c :: cs)
  | comment {text cs : List Char} (ht : Silent n text) (h : Gap n cs) :
      Gap n ('c' :: (text ++ '\n' :: cs))

/-- Literals with white space between them, and a zero at the end. -/
inductive WritesClause : List Int → List Char → Prop
  | zero {token : List Char} (h : WritesLiteral 0 token) : WritesClause [] token
  | literal {x : Int} {lits : List Int} (token gap cs : List Char) (hx : x ≠ 0)
      (h : WritesLiteral x token) (hgap : AllBlank gap) (hne : gap ≠ [])
      (hrest : WritesClause lits cs) : WritesClause (x :: lits) (token ++ (gap ++ cs))

/-- Clauses with a gap before each of them; a comment may stand at the very end. -/
inductive WritesClauses (n : Nat) : List (List Int) → List Char → Prop
  | none {gap : List Char} (hgap : Gap n gap) : WritesClauses n [] gap
  | comment {gap text : List Char} (hgap : Gap n gap) (ht : Silent n text) :
      WritesClauses n [] (gap ++ 'c' :: text)
  | clause {lits : List Int} {clauses : List (List Int)} {gap token cs : List Char}
      (hgap : Gap n gap) (hne : gap ≠ []) (h : WritesClause lits token)
      (hrest : WritesClauses n clauses cs) :
      WritesClauses n (lits :: clauses) (gap ++ (token ++ cs))

/-- The problem line with its two counts. -/
inductive WritesProblem (n m : Nat) : List Char → Prop
  | intro (gap₁ vars gap₂ count : List Char) (hgap₁ : AllBlank gap₁) (hne₁ : gap₁ ≠ [])
      (hvars : WritesCount n vars) (hgap₂ : AllBlank gap₂) (hne₂ : gap₂ ≠ [])
      (hcount : WritesCount m count) :
      WritesProblem n m ("p cnf".toList ++ (gap₁ ++ (vars ++ (gap₂ ++ count))))

/-- The ways to write clauses over `n` variables, with a header that declares `m` clauses. -/
inductive Renders (n m : Nat) (clauses : List (List Int)) : List Char → Prop
  | intro {gap problem cs : List Char} (hgap : Gap n gap) (hproblem : WritesProblem n m problem)
      (hclauses : WritesClauses n clauses cs) : Renders n m clauses (gap ++ (problem ++ cs))

/-! ## Reading the header -/

theorem readHeader_congr {s s' : Source} (h : s.skipBlanks = s'.skipBlanks) :
    readHeader names s = readHeader names s' := by
  unfold readHeader
  rw [h]

theorem ne_newline (ht : '\n' ∉ text) : ∀ c ∈ text, decide (c ≠ '\n') = true := by
  intro c hc
  rw [decide_eq_true_eq]
  rintro rfl
  exact ht hc

theorem commentText_append (ht : '\n' ∉ text) : commentText (text ++ '\n' :: cs) = text := by
  rw [commentText, List.takeWhile_append_of_pos (ne_newline ht)]
  simp

theorem afterComment_append (ht : '\n' ∉ text) :
    afterComment line (text ++ '\n' :: cs) = ⟨line, '\n' :: cs⟩ := by
  rw [afterComment, List.dropWhile_append_of_pos (ne_newline ht)]
  simp

/-- A comment line before the header. -/
theorem readHeader_comment (ht : '\n' ∉ text) :
    readHeader names ⟨line, 'c' :: (text ++ '\n' :: cs)⟩ =
      readHeader (addName names text) ⟨line + 1, cs⟩ := by
  rw [readHeader, Source.skipBlanks_of_not_blank (by decide)]
  simp only [commentText_append ht, afterComment_append ht]
  exact readHeader_congr (Source.skipBlanks_cons (by decide) line cs)

/-- All names are for variables beyond the first `n`. -/
def NamesBeyond (n : Nat) (names : Array (Nat × String)) : Prop := ∀ entry ∈ names, n < entry.1

theorem NamesBeyond.addName (h : NamesBeyond n names) (ht : Silent n text) :
    NamesBeyond n (addName names text) := by
  unfold Dimacs.addName
  split
  · exact h
  · rename_i entry hname
    obtain ⟨hnames, hpos, -⟩ := nameOfComment_eq_some.1 hname
    intro entry' hmem
    rcases Array.mem_push.1 hmem with hmem | rfl
    · exact h entry' hmem
    · have := ht.names _ _ hnames
      omega

/-- A reader that passes over white space and comments passes over gaps, with names for variables
    beyond the first `n` only. -/
theorem gap_rule {β : Type} (read : Array (Nat × String) → Source → β)
    (hblank : ∀ {names s s'}, s.skipBlanks = s'.skipBlanks → read names s = read names s')
    (hcomment : ∀ {names line text cs}, '\n' ∉ text →
      read names ⟨line, 'c' :: (text ++ '\n' :: cs)⟩ = read (addName names text) ⟨line + 1, cs⟩)
    (h : Gap n gap) (cs : List Char) : ∀ (names : Array (Nat × String)) (line : Nat),
    NamesBeyond n names → ∃ names' line',
      read names ⟨line, gap ++ cs⟩ = read names' ⟨line', cs⟩ ∧ NamesBeyond n names' := by
  induction h with
  | nil => exact fun names line hnames => ⟨names, line, rfl, hnames⟩
  | blank hc _ ih =>
    intro names line hnames
    obtain ⟨names', line', he, hnames'⟩ := ih names _ hnames
    exact ⟨names', line', (hblank (Source.skipBlanks_cons hc line _)).trans he, hnames'⟩
  | comment ht _ ih =>
    intro names line hnames
    obtain ⟨names', line', he, hnames'⟩ := ih _ (line + 1) (hnames.addName ht)
    refine ⟨names', line', ?_, hnames'⟩
    rw [List.cons_append, List.append_assoc, List.cons_append, hcomment ht.line]
    exact he

/-- **Reading the problem line** finds the two counts. -/
theorem readHeader_spec (h : WritesProblem n m text) (hn : n ≤ maxVariables) (hm : m ≤ maxCount)
    (hrest : EndsNumber rest) (names : Array (Nat × String)) (line : Nat) :
    ∃ line', readHeader names ⟨line, text ++ rest⟩ = .ok (⟨n, m, names⟩, ⟨line', rest⟩) := by
  obtain ⟨gap₁, vars, gap₂, count, hgap₁, hne₁, hvars, hgap₂, hne₂, hcount⟩ := h
  have hn' : n ≤ maxCount := Nat.le_trans hn (by decide)
  have htext : "p cnf".toList ++ (gap₁ ++ (vars ++ (gap₂ ++ count))) ++ rest =
      'p' :: ' ' :: 'c' :: 'n' :: 'f' :: (gap₁ ++ (vars ++ (gap₂ ++ (count ++ rest)))) := by
    simp
  refine ⟨gap₂.foldl Source.lineAfter (gap₁.foldl Source.lineAfter line), ?_⟩
  rw [htext, readHeader, Source.skipBlanks_of_not_blank (by decide)]
  simp only [readProblem, readCount_spec hgap₁ hvars hn' (endsNumber_append hgap₂ hne₂),
    readCount_spec hgap₂ hcount hm hrest, if_neg (Nat.not_lt.2 hn)]
  rfl

/-! ## Reading clauses -/

theorem readClause_congr {s s' : Source} (h : s.skipBlanks = s'.skipBlanks) :
    readClause s = readClause s' := by
  unfold readClause
  rw [readLiteral_skipBlanks h]

theorem readClause_append (hgap : AllBlank gap) (line : Nat) (cs : List Char) :
    readClause ⟨line, gap ++ cs⟩ = readClause ⟨gap.foldl Source.lineAfter line, cs⟩ :=
  readClause_congr (Source.skipBlanks_append hgap line cs)

/-- **Reading a clause** finds its literals and stops behind its zero. -/
theorem readClause_spec (h : WritesClause lits token) (hlits : ∀ x ∈ lits, x.natAbs ≤ maxLiteral)
    (hrest : EndsNumber rest) : ∀ line, ∃ line',
      readClause ⟨line, token ++ rest⟩ = .ok (lits, ⟨line', rest⟩) := by
  induction h with
  | zero h =>
    intro line
    refine ⟨line, ?_⟩
    unfold readClause
    rw [readLiteral_spec h (by decide) hrest]
    rfl
  | literal token gap cs hx h hgap hne _ ih =>
    intro line
    obtain ⟨hbound, hlits'⟩ := List.forall_mem_cons.1 hlits
    obtain ⟨line', hread⟩ := ih hlits' (gap.foldl Source.lineAfter line)
    refine ⟨line', ?_⟩
    unfold readClause
    rw [List.append_assoc, List.append_assoc,
      readLiteral_spec h hbound (endsNumber_append hgap hne)]
    simp only [if_neg hx, readClause_append hgap, hread]

theorem WritesClause.start (h : WritesClause lits token) :
    ∃ c cs, token = c :: cs ∧ isBlank c = false ∧ c ≠ 'c' := by
  cases h with
  | zero h => exact h.start
  | literal _ _ _ _ h _ _ _ =>
    obtain ⟨c, cs, rfl, hc⟩ := h.start
    exact ⟨c, _, rfl, hc⟩

/-! ## Reading the body -/

theorem readBody_congr {s s' : Source} (h : s.skipBlanks = s'.skipBlanks) :
    readBody doc s = readBody doc s' := by
  unfold readBody
  rw [h]

theorem readBody_nil : readBody doc ⟨line, []⟩ = { doc with ending := .ok line } := by
  unfold readBody
  rfl

theorem readBody_comment (ht : '\n' ∉ text) : readBody doc ⟨line, 'c' :: (text ++ '\n' :: cs)⟩ =
    readBody { doc with names := addName doc.names text } ⟨line + 1, cs⟩ := by
  rw [readBody, Source.skipBlanks_of_not_blank (by decide)]
  simp only [commentText_append ht, afterComment_append ht]
  exact readBody_congr (Source.skipBlanks_cons (by decide) line cs)

/-- A comment at the very end of the text. -/
theorem readBody_comment_end (ht : '\n' ∉ text) : readBody doc ⟨line, 'c' :: text⟩ =
    { doc with names := addName doc.names text, ending := .ok line } := by
  have htake : commentText text = text := List.takeWhile_eq_self_iff.2 (ne_newline ht)
  have hdrop : afterComment line text = ⟨line, []⟩ := by
    rw [afterComment, List.dropWhile_eq_nil_iff.2 (ne_newline ht)]
  rw [readBody, Source.skipBlanks_of_not_blank (by decide)]
  simp only [htake, hdrop, readBody_nil]

theorem readBody_clause (h : WritesClause lits token) {line' : Nat}
    (hread : readClause ⟨line, token ++ cs⟩ = .ok (lits, ⟨line', cs⟩)) :
    readBody doc ⟨line, token ++ cs⟩ =
      readBody { doc with clauses := doc.clauses.push ⟨lits, line'⟩ } ⟨line', cs⟩ := by
  obtain ⟨c, token, rfl, hblank, hc⟩ := h.start
  rw [List.cons_append] at hread ⊢
  rw [readBody, Source.skipBlanks_of_not_blank hblank]
  split
  · rename_i heq
    cases heq
  · rename_i heq
    cases heq
    exact absurd rfl hc
  · split
    · rename_i he
      rw [he] at hread
      cases hread
    · rename_i he
      rw [he] at hread
      cases hread
      rfl

theorem readBody_gap (h : Gap n gap) (cs : List Char) (doc : Document) (line : Nat)
    (hnames : NamesBeyond n doc.names) : ∃ names line', readBody doc ⟨line, gap ++ cs⟩ =
      readBody { doc with names := names } ⟨line', cs⟩ ∧ NamesBeyond n names :=
  gap_rule (fun names s => readBody { doc with names := names } s) readBody_congr
    readBody_comment h cs doc.names line hnames

theorem Gap.endsNumber (h : Gap n gap) (hcs : gap = [] → EndsNumber cs) : EndsNumber (gap ++ cs) := by
  cases h with
  | nil => exact hcs rfl
  | blank hc _ => exact endsNumber_cons (isDigit_of_isBlank hc)
  | comment _ _ => exact endsNumber_cons (by decide)

theorem WritesClauses.endsNumber (h : WritesClauses n clauses cs) : EndsNumber cs := by
  cases h with
  | none hgap => simpa using hgap.endsNumber fun _ => endsNumber_nil
  | comment hgap _ => exact hgap.endsNumber fun _ => endsNumber_cons (by decide)
  | clause hgap hne _ _ => exact hgap.endsNumber fun he => absurd he hne

/-- What reading adds to a document: the clauses, and names for variables beyond the first `n`; the
    text came to its end. -/
structure ReadsOn (n : Nat) (doc : Document) (clauses : List (List Int)) (doc' : Document) :
    Prop where
  declaredVariables : doc'.declaredVariables = doc.declaredVariables
  clauses : doc'.clauses.toList.map Entry.literals = doc.clauses.toList.map Entry.literals ++ clauses
  names : NamesBeyond n doc'.names
  ending : ∃ line, doc'.ending = .ok line

/-- **Reading the body** finds the clauses in order. -/
theorem readBody_spec (h : WritesClauses n clauses cs)
    (hlits : ∀ lits ∈ clauses, ∀ x ∈ lits, x.natAbs ≤ maxLiteral) :
    ∀ (doc : Document) (line : Nat), NamesBeyond n doc.names →
      ReadsOn n doc clauses (readBody doc ⟨line, cs⟩) := by
  induction h with
  | none hgap =>
    intro doc line hnames
    obtain ⟨names, line', he, hnames'⟩ := readBody_gap hgap [] doc line hnames
    rw [List.append_nil, readBody_nil] at he
    rw [he]
    exact ⟨rfl, (List.append_nil _).symm, hnames', _, rfl⟩
  | comment hgap ht =>
    intro doc line hnames
    obtain ⟨names, line', he, hnames'⟩ := readBody_gap hgap _ doc line hnames
    rw [he, readBody_comment_end ht.line]
    exact ⟨rfl, (List.append_nil _).symm, hnames'.addName ht, _, rfl⟩
  | clause hgap hne h hrest ih =>
    intro doc line hnames
    obtain ⟨hlits', hclauses⟩ := List.forall_mem_cons.1 hlits
    obtain ⟨names, line', he, hnames'⟩ := readBody_gap hgap _ doc line hnames
    obtain ⟨line'', hread⟩ := readClause_spec h hlits' hrest.endsNumber line'
    rw [he, readBody_clause h hread]
    obtain ⟨hvars, hentries, hbeyond, hending⟩ := ih hclauses
      { doc with names := names, clauses := doc.clauses.push ⟨_, line''⟩ } line'' hnames'
    refine ⟨hvars, ?_, hbeyond, hending⟩
    rw [hentries]
    simp

/-! ## The formula -/

/-- The literals of a clause without repetitions, unless two of them are complements. -/
def clauseOf (lits : List Int) : Option LiteralSet :=
  if ∃ x ∈ lits, -x ∈ lits then none else some ⟨.unordered, lits.eraseDups.toArray⟩

/-- The formula over `n` variables without names, with the given clauses but for tautologies. -/
def formulaOf (n : Nat) (clauses : List (List Int)) : Cnf :=
  ⟨Variables.anonymous n, (clauses.filterMap clauseOf).toArray⟩

theorem store_ofList (cnf : Cnf) (h : ∀ x ∈ lits, x ≠ 0) :
    cnf.store (LiteralSet.ofList lits) = { cnf with
      clauses := cnf.clauses ++ (clauseOf lits).toArray } := by
  unfold Cnf.store clauseOf
  by_cases htaut : ∃ x ∈ lits, -x ∈ lits
  · rw [if_pos ((LiteralSet.isContradictory_ofList h).2 htaut), if_pos htaut]
    simp
  · rw [if_neg fun hc => htaut ((LiteralSet.isContradictory_ofList h).1 hc), if_neg htaut,
      LiteralSet.ofList_eq h]
    rfl

theorem le_greatestVariable_iff {bound : Nat} :
    greatestVariable lits ≤ bound ↔ ∀ x ∈ lits, x.natAbs ≤ bound := by
  have hfold : ∀ (lits : List Int) (start : Nat),
      lits.foldl (fun n lit => max n lit.natAbs) start ≤ bound ↔
        start ≤ bound ∧ ∀ x ∈ lits, x.natAbs ≤ bound := by
    intro lits
    induction lits with
    | nil => simp
    | cons x lits ih =>
      intro start
      rw [List.foldl_cons, ih, List.forall_mem_cons, Nat.max_le, and_assoc]
  simpa [greatestVariable] using hfold lits 0

/-- Clauses within the table are stored one after the other. -/
theorem addEntries_within (mode : Mode) : ∀ (entries : List Entry) (cnf : Cnf) (journal : Journal),
    (∀ entry ∈ entries, ∀ x ∈ entry.literals, x ≠ 0 ∧ x.natAbs ≤ cnf.size) →
    (addEntries mode cnf journal entries).1 = .ok { cnf with
      clauses := cnf.clauses ++ ((entries.map Entry.literals).filterMap clauseOf).toArray }
  | [], cnf, journal, _ => by simp [addEntries]
  | entry :: rest, cnf, journal, h => by
    obtain ⟨hentry, hrest⟩ := List.forall_mem_cons.1 h
    have hsize : sizeWith mode cnf.size entry = .ok cnf.size :=
      if_pos (le_greatestVariable_iff.2 fun x hx => (hentry x hx).2)
    have hadd : (growTo cnf cnf.size).addClause entry.literals =
        (.ok (), cnf.store (LiteralSet.ofList entry.literals)) := by
      rw [growTo, if_pos (Nat.le_refl _), Cnf.addClause, Cnf.checkLiteralsWithin_eq_ok.2 hentry]
    unfold addEntries
    rw [hsize]
    simp only [hadd]
    rw [store_ofList cnf fun x hx => (hentry x hx).1]
    refine (addEntries_within mode rest
      ⟨cnf.vars, cnf.clauses ++ (clauseOf entry.literals).toArray⟩ _ hrest).trans ?_
    cases hclause : clauseOf entry.literals <;> simp [hclause]

theorem applyNames_beyond : ∀ (entries : List (Nat × String)) (vars : Variables) (journal : Journal),
    (∀ entry ∈ entries, vars.size < entry.1) → (applyNames vars journal entries).1 = .ok vars
  | [], _, _, _ => rfl
  | (index, name) :: rest, vars, journal, h => by
    obtain ⟨hindex, hrest⟩ := List.forall_mem_cons.1 h
    unfold applyNames
    rw [if_pos hindex]
    exact applyNames_beyond rest vars _ hrest

theorem size_anonymous (n : Nat) : (Variables.anonymous n).size = n := by
  simp [Variables.anonymous, Variables.size]

/-- A document whose clauses lie within its declared variables, and whose names do not. -/
theorem toCnf_lenient (hclauses : ∀ lits ∈ clauses, ∀ x ∈ lits, x ≠ 0 ∧ x.natAbs ≤ n)
    (hvars : doc.declaredVariables = n) (hentries : doc.clauses.toList.map Entry.literals = clauses)
    (hnames : NamesBeyond n doc.names) (hending : ∃ line, doc.ending = .ok line) :
    (doc.toCnf .lenient).1 = .ok (formulaOf n clauses) := by
  obtain ⟨line, hending⟩ := hending
  have hsize : (Cnf.ofVariables (Variables.anonymous n)).size = n := size_anonymous n
  have hadd := addEntries_within .lenient doc.clauses.toList
    (Cnf.ofVariables (Variables.anonymous n)) #[] fun entry hentry x hx => by
      rw [hsize]
      exact hclauses entry.literals (hentries ▸ List.mem_map_of_mem hentry) x hx
  rw [hentries] at hadd
  unfold Document.toCnf
  dsimp only
  rw [hvars]
  generalize addEntries .lenient _ _ _ = out at hadd ⊢
  obtain ⟨result, journal⟩ := out
  dsimp only at hadd
  subst hadd
  have happly := applyNames_beyond doc.names.toList (Variables.anonymous n) journal
    fun entry hentry => by
      rw [size_anonymous]
      exact hnames entry (by simpa using hentry)
  rw [hending]
  dsimp only [Cnf.ofVariables, checkCounts]
  generalize applyNames _ _ _ = out at happly ⊢
  obtain ⟨result, journal⟩ := out
  dsimp only at happly
  subst happly
  simp [formulaOf]

/-- **Reading inverts every rendering**: the clauses come back in order, without tautologies and
    without repeated literals, over variables named by their numbers. -/
theorem parseText_rendering {text : String} (hn : n ≤ maxVariables) (hm : m ≤ maxCount)
    (hclauses : ∀ lits ∈ clauses, ∀ x ∈ lits, x ≠ 0 ∧ x.natAbs ≤ n)
    (h : Renders n m clauses text.toList) :
    (parseText .lenient text).1 = .ok (formulaOf n clauses) := by
  have hlits : ∀ lits ∈ clauses, ∀ x ∈ lits, x.natAbs ≤ maxLiteral := fun lits hl x hx =>
    Nat.le_trans (hclauses lits hl x hx).2 (Nat.le_trans hn (by decide))
  obtain ⟨cs, hcs⟩ : ∃ cs, text.toList = cs := ⟨_, rfl⟩
  rw [hcs] at h
  obtain ⟨hgap, hproblem, hbody⟩ := h
  obtain ⟨names, line, hheader, hnames⟩ := gap_rule readHeader readHeader_congr
    readHeader_comment hgap _ #[] 1 (by simp [NamesBeyond])
  obtain ⟨line', hread⟩ := readHeader_spec hproblem hn hm hbody.endsNumber names line
  obtain ⟨hvars, hentries, hbeyond, hending⟩ := readBody_spec hbody hlits
    ⟨n, m, #[], names, .ok line'⟩ line' hnames
  unfold parseText Document.ofText Source.ofText
  rw [hcs, hheader, hread]
  exact toCnf_lenient hclauses hvars hentries hbeyond hending

/-- A text with comments, signs, leading zeros, a wrong count and other white space than blanks; one
    of its clauses repeats a literal and the other one is a tautology. -/
theorem parseText_rendering_layout :
    Renders 3 99 [[1, -2, 1], [3, -3]]
      "c a model\np cnf\t3 +99\n1 -2 1 0c next\n3\u3000-03 00\n".toList ∧
    (parseText .lenient "c a model\np cnf\t3 +99\n1 -2 1 0c next\n3\u3000-03 00\n").1 =
      .ok ⟨Variables.anonymous 3, #[⟨.unordered, #[1, -2]⟩]⟩ := by
  have hproblem : WritesProblem 3 99 "p cnf\t3 +99".toList :=
    .intro ['\t'] ['3'] [' '] "+99".toList (by decide) (by decide) (.plain (by decide)) (by decide)
      (by decide) (.plus (by decide))
  have hone : WritesLiteral 1 ['1'] := .plain (n := 1) (by decide)
  have htwo : WritesLiteral (-2) "-2".toList := .minus (n := 2) (by decide)
  have hfirst : WritesClause [1, -2, 1] "1 -2 1 0".toList :=
    .literal _ [' '] _ (by decide) hone (by decide) (by decide)
      (.literal _ [' '] _ (by decide) htwo (by decide) (by decide)
        (.literal _ [' '] _ (by decide) hone (by decide) (by decide)
          (.zero (.plain (n := 0) (by decide)))))
  have hsecond : WritesClause [3, -3] "3\u3000-03 00".toList :=
    .literal ['3'] ['\u3000'] _ (by decide) (.plain (n := 3) (by decide)) (by decide) (by decide)
      (.literal "-03".toList [' '] _ (by decide) (.minus (n := 3) (by decide)) (by decide)
        (by decide) (.zero (.plain (n := 0) (by decide))))
  have hmodel : Silent 3 " a model".toList :=
    silent_of_unnamed (by decide) (by decide) (by decide)
  have hnext : Silent 3 " next".toList := silent_of_unnamed (by decide) (by decide) (by decide)
  have hnewline : Gap 3 ['\n'] := .blank (by decide) .nil
  have hrenders : Renders 3 99 [[1, -2, 1], [3, -3]]
      "c a model\np cnf\t3 +99\n1 -2 1 0c next\n3\u3000-03 00\n".toList :=
    .intro (.comment hmodel .nil) hproblem (.clause hnewline (by decide) hfirst
      (.clause (.comment hnext .nil) (by decide) hsecond (.none hnewline)))
  exact ⟨hrenders, parseText_rendering (by decide) (by decide) (by decide) hrenders⟩

end Dimacs

end ConfigSampler
