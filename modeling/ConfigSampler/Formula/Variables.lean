import ConfigSampler.Error

/-!
# Variable tables

A `Variables` table gives each of the variables `1, …, n` a name, and no name twice.  Variables are
registered at the end; a table read from text starts out with decimal names, which are replaced
one at a time by `rename`.
-/

set_option autoImplicit false

namespace ConfigSampler

/-- The names of the variables, that of variable `i` at place `i - 1`. -/
structure Variables where
  names : Array String
deriving DecidableEq, Repr

namespace Variables

instance : Inhabited Variables := ⟨⟨#[]⟩⟩

/-- The table without variables. -/
def empty : Variables := ⟨#[]⟩

/-- `n` variables, each named by its own number. -/
def anonymous (n : Nat) : Variables := ⟨Array.ofFn fun i : Fin n => toString (i.val + 1)⟩

/-- The number of variables. -/
def size (vars : Variables) : Nat := vars.names.size

/-- The variable of a name, if there is one. -/
def indexOf? (vars : Variables) (name : String) : Option Nat :=
  (vars.names.findIdx? (· == name)).map (· + 1)

/-- The variable of a name. -/
def indexOf (vars : Variables) (name : String) : Except SampleError Nat :=
  match vars.indexOf? name with
  | some index => .ok index
  | none => .error (.unknownVariable name)

/-- The name of a variable, if it is registered. -/
def name? (vars : Variables) (index : Nat) : Option String :=
  if index = 0 then none else vars.names[index - 1]?

/-- Adds a variable at the end and says which one it is. -/
def register (vars : Variables) (name : String) : Except SampleError (Nat × Variables) :=
  match vars.indexOf? name with
  | some _ => .error (.duplicateVariable name)
  | none => .ok (vars.size + 1, ⟨vars.names.push name⟩)

/-- Registers names in order, up to the first that is taken. -/
def registerAll (vars : Variables) : List String → Except SampleError Variables
  | [] => .ok vars
  | name :: rest =>
    match vars.register name with
    | .ok (_, vars) => vars.registerAll rest
    | .error e => .error e

/-- Gives a registered variable another name, unless another variable has it. -/
def rename (vars : Variables) (index : Nat) (name : String) : Except SampleError Variables :=
  match vars.indexOf? name with
  | some other => if other = index then .ok vars else .error (.duplicateVariable name)
  | none =>
    if index = 0 then .error .zeroLiteral
    else if vars.size < index then .error (.literalOutOfRange index)
    else .ok ⟨vars.names.setIfInBounds (index - 1) name⟩

/-- The literal that selects or deselects the variable of a name. -/
def literal (vars : Variables) (name : String) (selected : Bool) : Except SampleError Int :=
  (vars.indexOf name).map fun index => if selected then (index : Int) else -(index : Int)

/-- The variables whose name is not their own number, each with its name, by number. -/
def named (vars : Variables) : List (Nat × String) :=
  (vars.names.toList.zipIdx 1).filterMap fun (name, index) =>
    if name == toString index then none else some (index, name)

end Variables

end ConfigSampler
