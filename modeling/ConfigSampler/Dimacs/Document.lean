import ConfigSampler.Dimacs.Source

/-!
# DIMACS documents

`Document.ofText` reads the parts of a DIMACS text that any use of it needs: the declared counts,
the clauses, the name comments, and how the text ended.  A clause keeps the line on which its
reading ended, so that a later check of it can name the place.  Whether the declared counts have
to fit is not decided here.

A comment `c <index> <name>` names a variable; every other comment is skipped.
-/

set_option autoImplicit false

namespace ConfigSampler.Dimacs

/-- A clause as it was written, with the line on which its end stands. -/
structure Entry where
  literals : List Int
  line : Nat
deriving DecidableEq, Repr

/-- The parts of a text. -/
structure Document where
  declaredVariables : Nat
  declaredClauses : Nat
  clauses : Array Entry
  names : Array (Nat × String)
  /-- The line on which the text ends, or the fault that made it unreadable. -/
  ending : Except SampleError Nat

set_option linter.unusedVariables false in
/-- Reads literals up to a zero. -/
def readClause (s : Source) : Except SampleError (List Int × Source) :=
  match h : readLiteral s with
  | .error e => .error e
  | .ok (lit, s') =>
    if lit = 0 then .ok ([], s')
    else
      match readClause s' with
      | .error e => .error e
      | .ok (lits, s'') => .ok (lit :: lits, s'')
termination_by s.rest.length
decreasing_by exact readLiteral_length h

theorem readClause_length {s s' : Source} {lits : List Int} (h : readClause s = .ok (lits, s')) :
    s'.rest.length < s.rest.length := by
  fun_induction readClause s generalizing lits with
  | case1 => cases h
  | case2 s s₁ hs => cases h; exact readLiteral_length hs
  | case3 => cases h
  | case4 s lit s₁ hs _ lits₁ s₂ hr ih =>
    cases h
    exact Nat.lt_trans (ih hr) (readLiteral_length hs)

/-- The largest variable number a name comment may give. -/
def maxNamedVariable : Nat := 4294967295

/-- The variable and the name that a comment gives, if it names one. -/
def nameOfComment (comment : List Char) : Option (Nat × String) :=
  match Text.splitAtBlank (Text.trim comment) with
  | (_, none) => none
  | (word, some rest) =>
    match Text.wordValue? maxNamedVariable word with
    | none => none
    | some index =>
      let name := Text.trim rest
      if index = 0 || name.isEmpty then none else some (index, String.ofList name)

/-- The text of a comment that starts with the first character of `cs`. -/
def commentText (cs : List Char) : List Char := cs.takeWhile (· ≠ '\n')

/-- The source after a comment, which ends before the next line break. -/
def afterComment (line : Nat) (cs : List Char) : Source := ⟨line, cs.dropWhile (· ≠ '\n')⟩

/-- Adds the name that a comment gives. -/
def addName (names : Array (Nat × String)) (comment : List Char) : Array (Nat × String) :=
  match nameOfComment comment with
  | none => names
  | some entry => names.push entry

/-- What stands before the first clause: the declared counts and the names given so far. -/
structure Header where
  declaredVariables : Nat
  declaredClauses : Nat
  names : Array (Nat × String)
deriving DecidableEq, Repr

/-- Reads the problem line, after the comments before it gave `names`. -/
def readProblem (names : Array (Nat × String)) (s : Source) :
    Except SampleError (Header × Source) :=
  match s.rest with
  | 'p' :: ' ' :: 'c' :: 'n' :: 'f' :: rest =>
    match readCount ⟨s.line, rest⟩ with
    | .error e => .error e
    | .ok (numVars, s) =>
      match readCount s with
      | .error e => .error e
      | .ok (numClauses, s) =>
        if maxVariables < numVars then s.fail (.tooManyDeclared numVars)
        else .ok (⟨numVars, numClauses, names⟩, s)
  | _ => s.fail .badHeader

set_option linter.unusedVariables false in
/-- Reads the comments before the problem line and the problem line. -/
def readHeader (names : Array (Nat × String)) (s : Source) :
    Except SampleError (Header × Source) :=
  match h : s.skipBlanks.rest with
  | [] => s.skipBlanks.fail .missingHeader
  | 'c' :: cs => readHeader (addName names (commentText cs)) (afterComment s.skipBlanks.line cs)
  | _ => readProblem names s.skipBlanks
termination_by s.rest.length
decreasing_by
  have h₁ := s.skipBlanks_length_le
  rw [h, List.length_cons] at h₁
  exact Nat.lt_of_le_of_lt (length_dropWhile_le _ _) h₁

set_option linter.unusedVariables false in
/-- Reads clauses and comments up to the end of the text or the first fault. -/
def readBody (doc : Document) (s : Source) : Document :=
  match h : s.skipBlanks.rest with
  | [] => { doc with ending := .ok s.skipBlanks.line }
  | 'c' :: cs =>
    readBody { doc with names := addName doc.names (commentText cs) }
      (afterComment s.skipBlanks.line cs)
  | _ =>
    match hc : readClause s.skipBlanks with
    | .error e => { doc with ending := .error e }
    | .ok (lits, s') => readBody { doc with clauses := doc.clauses.push ⟨lits, s'.line⟩ } s'
termination_by s.rest.length
decreasing_by
  · have h₁ := s.skipBlanks_length_le
    rw [h, List.length_cons] at h₁
    exact Nat.lt_of_le_of_lt (length_dropWhile_le _ _) h₁
  · exact Nat.lt_of_lt_of_le (readClause_length hc) s.skipBlanks_length_le

/-- The parts of a text, if it has a header. -/
def Document.ofText (text : String) : Except SampleError Document :=
  match readHeader #[] (Source.ofText text) with
  | .error e => .error e
  | .ok (header, s) =>
    .ok (readBody ⟨header.declaredVariables, header.declaredClauses, #[], header.names,
      .ok s.line⟩ s)

end ConfigSampler.Dimacs
