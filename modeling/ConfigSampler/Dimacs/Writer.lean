import ConfigSampler.Formula.Cnf

/-!
# Writing samples

A configuration is written as its literals followed by a zero.  A sample is written as the name of
every variable, a line with the two counts, and one line per configuration.
-/

set_option autoImplicit false

namespace ConfigSampler.Dimacs

/-- A configuration on one line. -/
def configurationText (config : LiteralSet) : String :=
  String.join (config.literals.map fun lit => toString lit ++ " ") ++ "0\n"

/-- The comment that names a variable. -/
def nameText (index : Nat) (name : String) : String :=
  "c " ++ toString index ++ " " ++ name ++ "\n"

/-- The comments that name all variables, in order. -/
def namesText (vars : Variables) : String :=
  String.join ((vars.names.toList.zipIdx 1).map fun (name, index) => nameText index name)

/-- A variable table and the configurations over it. -/
def sampleText (vars : Variables) (configs : List LiteralSet) : String :=
  namesText vars ++ "p sample " ++ toString vars.size ++ " " ++ toString configs.length ++ "\n"
    ++ String.join (configs.map configurationText)

end ConfigSampler.Dimacs
