import ConfigSampler.Formula.Variables
import ConfigSampler.Journal

/-!
# Formulas

A `Cnf` is a conjunction of clauses over a variable table.  A clause is checked against the table
before it is stored; repeated literals collapse, and a clause that holds a literal with its
complement constrains nothing and is not stored.  `isSatisfiedBy` is the meaning of a formula.
-/

set_option autoImplicit false

namespace ConfigSampler

/-- A conjunction of clauses over a variable table. -/
structure Cnf where
  vars : Variables
  clauses : Array LiteralSet
deriving DecidableEq, Repr

namespace Cnf

instance : Inhabited Cnf := ⟨⟨Variables.empty, #[]⟩⟩

/-- The formula without clauses. -/
def ofVariables (vars : Variables) : Cnf := ⟨vars, #[]⟩

/-- The number of variables. -/
def size (cnf : Cnf) : Nat := cnf.vars.size

/-- The literal belongs to a variable of a table of `n` variables. -/
def checkLiteralWithin (n : Nat) (lit : Int) : Except SampleError Unit :=
  if lit = 0 then .error .zeroLiteral
  else if n < lit.natAbs then .error (.literalOutOfRange lit)
  else .ok ()

/-- Every literal belongs to a variable of a table of `n` variables; otherwise the first that does
    not is the error. -/
def checkLiteralsWithin (n : Nat) : List Int → Except SampleError Unit
  | [] => .ok ()
  | lit :: rest =>
    match checkLiteralWithin n lit with
    | .ok () => checkLiteralsWithin n rest
    | .error e => .error e

/-- The literal belongs to a registered variable. -/
def checkLiteral (cnf : Cnf) (lit : Int) : Except SampleError Unit :=
  checkLiteralWithin cnf.size lit

/-- Stores a clause, unless it is a tautology. -/
def store (cnf : Cnf) (clause : LiteralSet) : Cnf :=
  if clause.isContradictory then cnf else { cnf with clauses := cnf.clauses.push clause }

/-- What there is to report when a clause is stored. -/
def storeEvents (clause : LiteralSet) : Journal :=
  if clause.isContradictory then #[.tautologyDropped clause] else #[]

/-- Adds a clause: whether the call succeeds, and the formula after it.  All literals are checked
    before anything is stored, and the first bad one is the error. -/
def addClause (cnf : Cnf) (lits : List Int) : Except SampleError Unit × Cnf :=
  match checkLiteralsWithin cnf.size lits with
  | .ok () => (.ok (), cnf.store (LiteralSet.ofList lits))
  | .error e => (.error e, cnf)

/-- The literals with the given names and polarities; the first unknown name is the error. -/
def namedLiterals (vars : Variables) : List (String × Bool) → Except SampleError (List Int)
  | [] => .ok []
  | (name, selected) :: rest =>
    match vars.literal name selected with
    | .ok lit => (namedLiterals vars rest).map (lit :: ·)
    | .error e => .error e

/-- Adds a clause given by variable names. -/
def addNamedClause (cnf : Cnf) (lits : List (String × Bool)) : Except SampleError Unit × Cnf :=
  match namedLiterals cnf.vars lits with
  | .ok lits => cnf.addClause lits
  | .error e => (.error e, cnf)

/-- Adds clauses in order, up to the first bad one, and collects what there is to report. -/
def addClauses (cnf : Cnf) (journal : Journal) :
    List (List Int) → Except SampleError Cnf × Journal
  | [] => (.ok cnf, journal)
  | lits :: rest =>
    match cnf.addClause lits with
    | (.ok (), cnf) => cnf.addClauses (journal ++ storeEvents (LiteralSet.ofList lits)) rest
    | (.error e, _) => (.error e, journal)

/-- The set makes a literal of every clause true. -/
def isSatisfiedBy (cnf : Cnf) (config : LiteralSet) : Bool :=
  cnf.clauses.all fun clause => clause.literals.any config.contains

end Cnf

end ConfigSampler
