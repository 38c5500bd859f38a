import ConfigSampler.Dimacs.Document
import ConfigSampler.Formula.Cnf

/-!
# Formulas from DIMACS documents

A document becomes a formula in one of two modes.  In *strict* mode the declared counts have to
fit the body; in *lenient* mode a clause may use a variable beyond the declared ones, and the table
grows up to it.  Both modes read the same document, so they differ only in these checks.
-/

set_option autoImplicit false

namespace ConfigSampler.Dimacs

/-- How the declared counts are treated. -/
inductive Mode where
  /-- The declared counts have to fit the body. -/
  | strict
  /-- The variable table grows as needed. -/
  | lenient
deriving DecidableEq, Repr

/-- The greatest variable among the literals. -/
def greatestVariable (lits : List Int) : Nat := lits.foldl (fun n lit => max n lit.natAbs) 0

/-- The number of variables after a clause was read: as before, or grown up to the clause's
    greatest variable where the mode allows it. -/
def sizeWith (mode : Mode) (size : Nat) (entry : Entry) : Except SampleError Nat :=
  let greatest := greatestVariable entry.literals
  if greatest ≤ size then .ok size
  else
    match mode with
    | .strict => .error (.dimacs entry.line (.beyondDeclared greatest))
    | .lenient =>
      if maxVariables < greatest then .error (.dimacs entry.line (.beyondSupported greatest))
      else .ok greatest

/-- The formula with a table of `size` decimal names, which is at least as long as before. -/
def growTo (cnf : Cnf) (size : Nat) : Cnf :=
  if size ≤ cnf.size then cnf else { cnf with vars := Variables.anonymous size }

/-- Adds the clauses of a body in order, up to the first that is refused. -/
def addEntries (mode : Mode) (cnf : Cnf) (journal : Journal) :
    List Entry → Except SampleError Cnf × Journal
  | [] => (.ok cnf, journal)
  | entry :: rest =>
    match sizeWith mode cnf.size entry with
    | .error e => (.error e, journal)
    | .ok size =>
      match (growTo cnf size).addClause entry.literals with
      | (.error e, _) => (.error e, journal)
      | (.ok (), cnf) =>
        addEntries mode cnf (journal ++ Cnf.storeEvents (LiteralSet.ofList entry.literals)) rest

/-- The number of variables that occur in the clauses of a document. -/
def Document.usedVariables (doc : Document) : Nat :=
  let lits := doc.clauses.toList.flatMap Entry.literals
  (LiteralSet.ofModel lits (greatestVariable lits) .indexed).size

/-- In strict mode, the number of clauses has to be the declared one, and no more variables than
    the declared ones may occur. -/
def checkCounts (mode : Mode) (doc : Document) (line : Nat) : Except SampleError Unit :=
  match mode with
  | .lenient => .ok ()
  | .strict =>
    if doc.declaredClauses ≠ doc.clauses.size then
      .error (.dimacs line (.clauseCount doc.declaredClauses doc.clauses.size))
    else if doc.declaredVariables < doc.usedVariables then
      .error (.dimacs line (.variableCount doc.declaredVariables doc.usedVariables))
    else .ok ()

/-- Gives the variables the names of the comments, in the order of the comments; a name for a
    variable that the table does not have is ignored. -/
def applyNames (vars : Variables) (journal : Journal) :
    List (Nat × String) → Except SampleError Variables × Journal
  | [] => (.ok vars, journal)
  | (index, name) :: rest =>
    if vars.size < index then applyNames vars (journal.push (.nameIgnored name index)) rest
    else
      match vars.rename index name with
      | .error e => (.error e, journal)
      | .ok vars => applyNames vars journal rest

/-- The formula that a document stands for. -/
def Document.toCnf (mode : Mode) (doc : Document) : Except SampleError Cnf × Journal :=
  let start := Cnf.ofVariables (Variables.anonymous doc.declaredVariables)
  match addEntries mode start #[] doc.clauses.toList with
  | (.error e, journal) => (.error e, journal)
  | (.ok cnf, journal) =>
    match doc.ending with
    | .error e => (.error e, journal)
    | .ok line =>
      match checkCounts mode doc line with
      | .error e => (.error e, journal)
      | .ok () =>
        match applyNames cnf.vars journal doc.names.toList with
        | (.error e, journal) => (.error e, journal)
        | (.ok vars, journal) => (.ok { cnf with vars := vars }, journal)

/-- Reads a formula from text. -/
def parseText (mode : Mode) (text : String) : Except SampleError Cnf × Journal :=
  match Document.ofText text with
  | .error e => (.error e, #[])
  | .ok doc => doc.toCnf mode

end ConfigSampler.Dimacs
