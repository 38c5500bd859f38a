import ConfigSampler.Proofs.Formulas
import ConfigSampler.Proofs.IndexedNames
import ConfigSampler.Proofs.Modes

/-!
# What reading a text comes to

Every function of the reader either gives what the next one relies on, or fails with a fault of the
text at a line (`Reads`).  So clauses reach the formula without zeros and within the table
(`reads_addEntries`), which therefore never refuses them, and only a name that is taken can be refused
after that (`spec_applyNames`).  The table of the formula has gone through calls that register the
numbers of further variables and then give names (`Document.Tabulates`).

Principal result: `Dimacs.names_bijective`.
-/

set_option autoImplicit false

namespace ConfigSampler.Dimacs

/-- What is read has the property, or the text has a fault. -/
def Reads {α : Type} (P : α → Prop) : Except SampleError α → Prop
  | .ok a => P a
  | .error e => ∃ line fault, e = .dimacs line fault

/-- The errors that reading a text can end with: a fault of the text, or a name that is taken. -/
inductive Refusal : SampleError → Prop
  | fault (line : Nat) (fault : DimacsFault) : Refusal (.dimacs line fault)
  | taken (name : String) : Refusal (.duplicateVariable name)

namespace Reads

variable {α β : Type} {P : α → Prop} {Q : β → Prop} {outcome : Except SampleError α}
  {e : SampleError}

theorem ok {a : α} (h : Reads P outcome) (he : outcome = .ok a) : P a := by
  rwa [he] at h

theorem error (h : Reads P outcome) (he : outcome = .error e) : Reads Q (.error e) := by
  rwa [he] at h

theorem refusal (h : Reads P outcome) (he : outcome = .error e) : Refusal e := by
  rw [he] at h
  obtain ⟨line, fault, rfl⟩ := h
  exact .fault line fault

end Reads

variable {names : Array (Nat × String)} {doc : Document} {cnf : Cnf} {vars : Variables} {n size : Nat}

/-! ## Numbers, clauses and documents -/

theorem reads_readDigits (s : Source) : Reads (fun _ => True) (readDigits s) := by
  unfold readDigits
  dsimp only
  split
  · exact ⟨_, _, rfl⟩
  · split
    · exact ⟨_, _, rfl⟩
    · trivial

theorem reads_readCount (s : Source) : Reads (fun _ => True) (readCount s) := by
  unfold readCount
  dsimp only
  split <;> exact reads_readDigits _

theorem reads_readMagnitude (negative : Bool) (s : Source) :
    Reads (fun _ => True) (readMagnitude negative s) := by
  unfold readMagnitude
  split
  · rename_i e he
    exact (reads_readDigits s).error he
  · split
    · exact ⟨_, _, rfl⟩
    · trivial

theorem reads_readLiteral (s : Source) : Reads (fun _ => True) (readLiteral s) := by
  unfold readLiteral
  dsimp only
  split <;> exact reads_readMagnitude _ _

/-- A zero ends a clause, so there is none in it. -/
theorem reads_readClause (s : Source) : Reads (fun read => ∀ x ∈ read.1, x ≠ 0) (readClause s) := by
  fun_induction readClause s with
  | case1 s e he => exact (reads_readLiteral s).error he
  | case2 => simp [Reads]
  | case3 s lit s' hs hne e he ih => exact ih.error he
  | case4 s lit s' hs hne lits s'' hrest ih => exact List.forall_mem_cons.2 ⟨hne, ih.ok hrest⟩

theorem NamesBeyond.addName_zero (h : NamesBeyond 0 names) (text : List Char) :
    NamesBeyond 0 (Dimacs.addName names text) := by
  unfold Dimacs.addName
  split
  · exact h
  · rename_i entry hname
    intro entry' hmem
    rcases Array.mem_push.1 hmem with hmem | rfl
    · exact h entry' hmem
    · exact (nameOfComment_eq_some.1 hname).2.1

theorem reads_readProblem (h : NamesBeyond 0 names) (s : Source) :
    Reads (fun read => NamesBeyond 0 read.1.names ∧ read.1.declaredVariables ≤ maxVariables)
      (readProblem names s) := by
  unfold readProblem
  split
  · split
    · rename_i e he
      exact (reads_readCount _).error he
    · split
      · rename_i e he
        exact (reads_readCount _).error he
      · split
        · exact ⟨_, _, rfl⟩
        · rename_i hle
          exact ⟨h, Nat.not_lt.1 hle⟩
  · exact ⟨_, _, rfl⟩

theorem reads_readHeader (h : NamesBeyond 0 names) (s : Source) :
    Reads (fun read => NamesBeyond 0 read.1.names ∧ read.1.declaredVariables ≤ maxVariables)
      (readHeader names s) := by
  fun_induction readHeader names s with
  | case1 => exact ⟨_, _, rfl⟩
  | case2 names s cs hs ih => exact ih (h.addName_zero _)
  | case3 => exact reads_readProblem h _

/-- What a formula relies on in a document. -/
structure Document.Regular (doc : Document) : Prop where
  declared : doc.declaredVariables ≤ maxVariables
  literals : ∀ entry ∈ doc.clauses, ∀ x ∈ entry.literals, x ≠ 0
  names : NamesBeyond 0 doc.names
  ending : Reads (fun _ => True) doc.ending

theorem Document.Regular.readBody (h : doc.Regular) (s : Source) : (readBody doc s).Regular := by
  fun_induction Dimacs.readBody doc s with
  | case1 doc s hs => exact ⟨h.declared, h.literals, h.names, trivial⟩
  | case2 doc s cs hs ih => exact ih ⟨h.declared, h.literals, h.names.addName_zero _, h.ending⟩
  | case3 doc s e he =>
    exact ⟨h.declared, h.literals, h.names, (reads_readClause s.skipBlanks).error he⟩
  | case4 doc s lits s' he _ _ ih =>
    refine ih ⟨h.declared, fun entry hentry => ?_, h.names, h.ending⟩
    rcases Array.mem_push.1 hentry with hentry | rfl
    · exact h.literals entry hentry
    · exact (reads_readClause s.skipBlanks).ok he

theorem reads_ofText (text : String) : Reads Document.Regular (Document.ofText text) := by
  have hnone : NamesBeyond 0 #[] := by simp [NamesBeyond]
  have hheader := reads_readHeader hnone (Source.ofText text)
  unfold Document.ofText
  split
  · rename_i e he
    exact hheader.error he
  · rename_i header s he
    obtain ⟨hnames, hdeclared⟩ := hheader.ok he
    have hstart : Document.Regular ⟨header.declaredVariables, header.declaredClauses, #[], header.names,
        .ok s.line⟩ := ⟨hdeclared, by simp, hnames, trivial⟩
    exact hstart.readBody s

/-! ## Clauses -/

theorem reads_sizeWith (mode : Mode) (entry : Entry) (hsize : size ≤ maxVariables) :
    Reads (fun size' => (size ≤ size' ∧ size' ≤ maxVariables) ∧ entry.Within size')
      (sizeWith mode size entry) := by
  unfold sizeWith
  dsimp only
  split
  · rename_i hle
    exact ⟨⟨Nat.le_refl _, hsize⟩, le_greatestVariable_iff.1 hle⟩
  · rename_i hgt
    cases mode with
    | strict => exact ⟨_, _, rfl⟩
    | lenient =>
      dsimp only
      split
      · exact ⟨_, _, rfl⟩
      · rename_i hmax
        exact ⟨⟨by omega, Nat.not_lt.1 hmax⟩, le_greatestVariable_iff.1 (Nat.le_refl _)⟩

theorem vars_growTo (h : cnf.vars = Variables.anonymous n) (hle : n ≤ size) :
    (growTo cnf size).vars = Variables.anonymous size := by
  have hn : cnf.size = n := by rw [Cnf.size, h, size_anonymous]
  unfold growTo
  split
  · rw [h, show n = size by omega]
  · rfl

/-- Clauses without zeros are all stored, unless the mode or the supported number of variables is
    against it. -/
theorem reads_addEntries (mode : Mode) : ∀ (entries : List Entry) (cnf : Cnf) (journal : Journal)
    {n : Nat}, cnf.vars = Variables.anonymous n → n ≤ maxVariables →
    (∀ entry ∈ entries, ∀ x ∈ entry.literals, x ≠ 0) →
    Reads (fun cnf' => ∃ m, n + m ≤ maxVariables ∧ cnf'.vars = Variables.anonymous (n + m))
      (addEntries mode cnf journal entries).1
  | [], _, _, _, hvars, hn, _ => ⟨0, hn, hvars⟩
  | entry :: rest, cnf, journal, n, hvars, hn, hentries => by
    obtain ⟨hentry, hrest⟩ := List.forall_mem_cons.1 hentries
    have hcnf : cnf.size = n := by rw [Cnf.size, hvars, size_anonymous]
    have hsize := reads_sizeWith mode entry (hcnf ▸ hn)
    rw [hcnf] at hsize
    unfold addEntries
    rw [hcnf]
    cases hgrown : sizeWith mode n entry with
    | error e => exact hsize.error hgrown
    | ok size =>
      obtain ⟨⟨hle, hmax⟩, hwithin⟩ := hsize.ok hgrown
      have hvars' := vars_growTo hvars hle
      have hcheck : Cnf.checkLiteralsWithin (growTo cnf size).size entry.literals = .ok () := by
        rw [Cnf.checkLiteralsWithin_eq_ok, Cnf.size, hvars', size_anonymous]
        exact fun x hx => ⟨hentry x hx, hwithin x hx⟩
      have hstore : ∀ clause, ((growTo cnf size).store clause).vars = Variables.anonymous size := by
        intro clause
        rw [Cnf.vars_store, hvars']
      simp only [Cnf.addClause, hcheck]
      obtain ⟨k, rfl⟩ := Nat.exists_eq_add_of_le hle
      have hreads := reads_addEntries mode rest _
        (journal ++ Cnf.storeEvents (LiteralSet.ofList entry.literals))
        (hstore (LiteralSet.ofList entry.literals)) hmax hrest
      revert hreads
      cases (addEntries mode ((growTo cnf (n + k)).store (LiteralSet.ofList entry.literals))
        (journal ++ Cnf.storeEvents (LiteralSet.ofList entry.literals)) rest).1 with
      | error e => exact id
      | ok cnf' =>
        rintro ⟨m, hm, hvars''⟩
        exact ⟨k + m, by omega, by rw [hvars'', Nat.add_assoc]⟩

/-! ## Names -/

/-- The calls that register the numbers of `m` more variables, after `n` are there. -/
def growth (n m : Nat) : List Naming :=
  (List.range m).map fun i => .register (toString (n + i + 1))

/-- The calls that give variables of a table of `size` their names. -/
def renamings (size : Nat) (names : List (Nat × String)) : List Naming :=
  (names.filter fun entry => entry.1 ≤ size).map fun (v, name) => .rename v name

theorem after_growth (n m : Nat) :
    (Variables.anonymous n).after (growth n m) = Variables.anonymous (n + m) := by
  induction m with
  | zero => rfl
  | succ m ih =>
    have hstep : (Variables.anonymous (n + m)).run (.register (toString (n + m + 1))) =
        .ok (Variables.anonymous (n + m + 1)) := by
      rw [Variables.run, Variables.register_anonymous]
      rfl
    rw [growth, List.range_succ, List.map_append, ← growth, Variables.after_append, ih]
    simp only [Variables.after, List.map_cons, List.map_nil, List.foldl_cons, List.foldl_nil, hstep]
    rfl

/-- A variable of the table gets its name, unless the name is taken. -/
theorem rename_outcome (name : String) {v : Nat} (hpos : 0 < v) (hle : v ≤ vars.size) :
    (∃ vars', vars.rename v name = .ok vars' ∧ vars'.size = vars.size) ∨
      vars.rename v name = .error (.duplicateVariable name) := by
  unfold Variables.rename
  cases vars.indexOf? name with
  | some other =>
    dsimp only
    by_cases hsame : other = v
    · exact .inl ⟨vars, if_pos hsame, rfl⟩
    · exact .inr (if_neg hsame)
  | none =>
    refine .inl ⟨⟨vars.names.setIfInBounds (v - 1) name⟩, ?_, by simp [Variables.size]⟩
    exact (if_neg (Nat.ne_of_gt hpos)).trans (if_neg (Nat.not_lt.2 hle))

/-- Names are given in turn, up to the first that is taken. -/
theorem spec_applyNames : ∀ (entries : List (Nat × String)) (vars : Variables) (journal : Journal),
    (∀ entry ∈ entries, 0 < entry.1) →
    match (applyNames vars journal entries).1 with
    | .ok vars' => vars' = vars.after (renamings vars.size entries) ∧ vars'.size = vars.size
    | .error e => ∃ name, e = .duplicateVariable name
  | [], _, _, _ => ⟨rfl, rfl⟩
  | (v, name) :: rest, vars, journal, h => by
    obtain ⟨hpos, hrest⟩ := List.forall_mem_cons.1 h
    unfold applyNames
    by_cases hlt : vars.size < v
    · rw [if_pos hlt, renamings, List.filter_cons_of_neg (by simpa using hlt), ← renamings]
      exact spec_applyNames rest vars _ hrest
    · rw [if_neg hlt, renamings, List.filter_cons_of_pos (by simpa using hlt), List.map_cons,
        ← renamings]
      rcases rename_outcome name hpos (Nat.not_lt.1 hlt) with ⟨vars', hok, hsize⟩ | herror
      · have hspec := spec_applyNames rest vars' journal hrest
        rw [hsize] at hspec
        have hstep : vars.after (.rename v name :: renamings vars.size rest) =
            vars'.after (renamings vars.size rest) := by
          simp [Variables.after, Variables.run, hok, Except.toOption]
        rw [hok, hstep]
        exact hspec
      · rw [herror]
        exact ⟨name, rfl⟩

/-! ## Whole texts -/

theorem reads_checkCounts (mode : Mode) (doc : Document) (line : Nat) :
    Reads (fun _ => True) (checkCounts mode doc line) := by
  cases mode with
  | lenient => trivial
  | strict =>
    unfold checkCounts
    dsimp only
    split
    · exact ⟨_, _, rfl⟩
    · split
      · exact ⟨_, _, rfl⟩
      · trivial

/-- The table grew from the declared variables and then got the names of the comments. -/
def Document.Tabulates (doc : Document) (vars : Variables) : Prop :=
  ∃ m, doc.declaredVariables + m = vars.size ∧
    vars = (Variables.anonymous doc.declaredVariables).after
      (growth doc.declaredVariables m ++ renamings vars.size doc.names.toList)

/-- **A document gives a formula over a table that it tabulates**, or has a fault or a name that is
    taken. -/
theorem Document.Regular.toCnf (h : doc.Regular) (mode : Mode) :
    match (doc.toCnf mode).1 with
    | .ok cnf => doc.Tabulates cnf.vars ∧ cnf.size ≤ maxVariables
    | .error e => Refusal e := by
  have hentries := reads_addEntries mode doc.clauses.toList
    (Cnf.ofVariables (Variables.anonymous doc.declaredVariables)) #[] rfl h.declared
    fun entry hentry => h.literals entry (by simpa using hentry)
  unfold Document.toCnf
  dsimp only
  cases hadd : addEntries mode (Cnf.ofVariables (Variables.anonymous doc.declaredVariables)) #[]
      doc.clauses.toList with
  | mk outcome journal =>
  rw [hadd] at hentries
  cases outcome with
  | error e => exact hentries.refusal rfl
  | ok cnf =>
    obtain ⟨m, hm, hvars⟩ := hentries
    cases hend : doc.ending with
    | error e => exact h.ending.refusal hend
    | ok line =>
      dsimp only
      cases hcheck : checkCounts mode doc line with
      | error e => exact (reads_checkCounts mode doc line).refusal hcheck
      | ok =>
        have hnames := spec_applyNames doc.names.toList cnf.vars journal fun entry hentry =>
          h.names entry (by simpa using hentry)
        dsimp only
        cases happly : applyNames cnf.vars journal doc.names.toList with
        | mk named journal' =>
        rw [happly] at hnames
        cases named with
        | error e =>
          obtain ⟨name, rfl⟩ := hnames
          exact .taken name
        | ok vars =>
          obtain ⟨hafter, hsize⟩ := hnames
          have hsum : vars.size = doc.declaredVariables + m := by
            rw [hsize, hvars, size_anonymous]
          refine ⟨⟨m, hsum.symm, ?_⟩, show vars.size ≤ maxVariables by omega⟩
          rw [Variables.after_append, after_growth, ← hvars, hsize]
          exact hafter

/-- What holds of the formula of a text. -/
structure IsRead (text : String) (cnf : Cnf) : Prop where
  size_le : cnf.size ≤ maxVariables
  tabulates : ∃ doc, Document.ofText text = .ok doc ∧ doc.Tabulates cnf.vars
  bijective : NameBijection cnf.vars.name? cnf.vars.indexOf cnf.size
  named : ∀ clause ∈ cnf.clauses, ∀ x ∈ clause.literals,
    x ≠ 0 ∧ ∃ name, cnf.vars.name? x.natAbs = some name

/-- **A text gives a formula or is refused.** -/
theorem spec_parseText (mode : Mode) (text : String) :
    match (parseText mode text).1 with
    | .ok cnf => IsRead text cnf
    | .error e => Refusal e := by
  have hdoc := reads_ofText text
  cases htext : Document.ofText text with
  | error e =>
    rw [parseText, htext]
    exact hdoc.refusal htext
  | ok doc =>
    have hcnf := (hdoc.ok htext).toCnf mode
    rw [show doc.toCnf mode = parseText mode text by rw [parseText, htext]] at hcnf
    cases hread : parseText mode text with
    | mk outcome journal =>
    rw [hread] at hcnf
    cases outcome with
    | error e => exact hcnf
    | ok cnf =>
      obtain ⟨htable, hle⟩ := hcnf
      refine ⟨hle, ⟨doc, htext, htable⟩, ?_, fun clause hclause x hx => ?_⟩
      · obtain ⟨m, -, hvars⟩ := htable
        rw [Cnf.size, hvars]
        exact (Variables.distinct_after _ _).bijective
      · have hne := LiteralSet.ne_zero_of_mem_literals hx
        have hbound := wellFormed_parseText hread clause hclause x hx
        exact ⟨hne, Option.isSome_iff_exists.1 (Variables.isSome_name?.2 ⟨by omega, hbound⟩)⟩

/-- **Names and variables determine each other** in every table that comes from numbers by registering
    and renaming, with an index that is updated on the side as well as without one; a call that fails
    changes nothing.  Reading a text ends with a formula over such a table, whose literals all have
    names, or with a fault of the text or a name that is taken. -/
theorem names_bijective :
    (∀ n calls,
      NameBijection ((Variables.anonymous n).after calls).name?
        ((Variables.anonymous n).after calls).indexOf ((Variables.anonymous n).after calls).size ∧
      NameBijection (IndexedNames.ofCalls n calls).name? (IndexedNames.ofCalls n calls).indexOf
        (IndexedNames.ofCalls n calls).names.size ∧
      (IndexedNames.ofCalls n calls).table = (Variables.anonymous n).after calls ∧
      ∀ call e,
        (((IndexedNames.ofCalls n calls).run call).1 = .error e ↔
          ((Variables.anonymous n).after calls).run call = .error e) ∧
        (((IndexedNames.ofCalls n calls).run call).1 = .error e →
          ((IndexedNames.ofCalls n calls).run call).2 = IndexedNames.ofCalls n calls)) ∧
    ∀ mode text,
      match (parseText mode text).1 with
      | .ok cnf => IsRead text cnf
      | .error e => Refusal e := by
  refine ⟨fun n calls => ?_, spec_parseText⟩
  obtain ⟨hsound, htable⟩ := IndexedNames.spec_ofCalls n calls
  refine ⟨(Variables.distinct_after n calls).bijective, hsound.bijective, htable, fun call e => ?_⟩
  rw [← htable]
  exact (hsound.run call).error_iff e

/-- A clause makes the table grow to three variables, and the first gets the number of the third once
    this has another name; in the other order the number is taken. -/
theorem names_bijective_grown :
    IsRead "c 3 a\nc 1 3\np cnf 1 1\n1 -3 0\n" ⟨⟨#["3", "2", "a"]⟩, #[⟨.unordered, #[1, -3]⟩]⟩ ∧
    (parseText .lenient "c 1 3\nc 3 a\np cnf 1 1\n1 -3 0\n").1 = .error (.duplicateVariable "3") ∧
    Refusal (.duplicateVariable "3") ∧
    (IndexedNames.ofCalls 1 (growth 1 2 ++ [.rename 3 "a", .rename 1 "3"])).table =
      ⟨#["3", "2", "a"]⟩ ∧
    ((IndexedNames.ofCalls 1 (growth 1 2 ++ [.rename 3 "a", .rename 1 "3"])).run (.rename 2 "a")).2 =
      IndexedNames.ofCalls 1 (growth 1 2 ++ [.rename 3 "a", .rename 1 "3"]) := by
  have hok : (parseText .lenient "c 3 a\nc 1 3\np cnf 1 1\n1 -3 0\n").1 =
      .ok ⟨⟨#["3", "2", "a"]⟩, #[⟨.unordered, #[1, -3]⟩]⟩ := by decide +kernel
  have herror : (parseText .lenient "c 1 3\nc 3 a\np cnf 1 1\n1 -3 0\n").1 =
      .error (.duplicateVariable "3") := by decide +kernel
  have hread := names_bijective.2 .lenient "c 3 a\nc 1 3\np cnf 1 1\n1 -3 0\n"
  have hrefused := names_bijective.2 .lenient "c 1 3\nc 3 a\np cnf 1 1\n1 -3 0\n"
  rw [hok] at hread
  rw [herror] at hrefused
  obtain ⟨-, -, htable, hcalls⟩ :=
    names_bijective.1 1 (growth 1 2 ++ [.rename 3 "a", .rename 1 "3"])
  obtain ⟨hiff, hsame⟩ := hcalls (.rename 2 "a") (.duplicateVariable "a")
  exact ⟨hread, herror, hrefused, htable.trans (by decide +kernel), hsame (hiff.2 (by decide +kernel))⟩

end ConfigSampler.Dimacs
