import ConfigSampler.Session
import ConfigSampler.Text.Decimal

/-!
# The command line

`CommandLine.parse` turns arguments into a `Command`.  Arguments are first *collected* from left to
right: options with their values, flags, and the input and output paths.  What was collected is then
*checked*: nothing is repeated, no value is left out, numbers and choices are well formed, exactly
one kind of sample is asked for, and there is an input.

An option takes its value from the next argument or after an equals sign.  An argument that starts
with a dash never is a value, and everything after `--` is a path.
-/

set_option autoImplicit false

namespace ConfigSampler

namespace CommandLine

/-- The options that take a value. -/
inductive OptionName where
  | verbosity
  | random
  | strength
  | feature
  | limit
  | seed
  | policy
deriving DecidableEq, Repr

/-- The flags. -/
inductive FlagName where
  | strict
  | allowDuplicates
deriving DecidableEq, Repr

/-- The option of a long name. -/
def optionOf? : String → Option OptionName
  | "verb" => some .verbosity
  | "random" => some .random
  | "twise" => some .strength
  | "module" => some .feature
  | "limit" => some .limit
  | "seed" => some .seed
  | "policy" => some .policy
  | _ => none

/-- The flag of a long name. -/
def flagOf? : String → Option FlagName
  | "strict" => some .strict
  | "allow-duplicates" => some .allowDuplicates
  | _ => none

/-- What was collected from the arguments, each part in order. -/
structure Arguments where
  /-- The options with their values; an option whose value is left out has none. -/
  options : List (OptionName × Option String) := []
  flags : List FlagName := []
  paths : List String := []
deriving DecidableEq, Repr

namespace Arguments

/-- Adds an option. -/
def addOption (a : Arguments) (name : OptionName) (value : Option String) : Arguments :=
  { a with options := a.options ++ [(name, value)] }

/-- Adds a flag. -/
def addFlag (a : Arguments) (name : FlagName) : Arguments := { a with flags := a.flags ++ [name] }

/-- Adds a path, of which there are at most two. -/
def addPath? (a : Arguments) (path : String) : Option Arguments :=
  if a.paths.length < 2 then some { a with paths := a.paths ++ [path] } else none

/-- Adds paths in order. -/
def addPaths? (a : Arguments) : List String → Option Arguments
  | [] => some a
  | path :: rest => (a.addPath? path).bind fun a => a.addPaths? rest

/-- The value of an option, if the option is given with one. -/
def value? (a : Arguments) (name : OptionName) : Option String :=
  (a.options.find? fun entry => entry.1 == name).bind (·.2)

/-- The flag is given. -/
def hasFlag (a : Arguments) (name : FlagName) : Bool := a.flags.contains name

end Arguments

/-- What an argument that starts with a dash is. -/
inductive Dashed where
  /-- An option, with its value if that stands after an equals sign. -/
  | option (name : OptionName) (value : Option String)
  | flag (name : FlagName)
  | version
  | unknown
deriving DecidableEq, Repr

/-- The name in a long argument and the text after its first equals sign, where more equals signs at
    the start of that text are left out. -/
def splitValue (body : List Char) : String × Option String :=
  let name := String.ofList (body.takeWhile (· ≠ '='))
  match body.dropWhile (· ≠ '=') with
  | [] => (name, none)
  | rest => (name, some (String.ofList (rest.dropWhile (· = '='))))

/-- Reads a long argument without the dashes before it.  The value of a flag is ignored. -/
def readLong (body : List Char) : Dashed :=
  let (name, value) := splitValue body
  match optionOf? name with
  | some option => .option option value
  | none =>
    match flagOf? name with
    | some flag => .flag flag
    | none => if name == "version" then .version else .unknown

/-- Reads an argument that starts with a dash. -/
def readDashed : List Char → Dashed
  | '-' :: '-' :: rest => readLong (rest.dropWhile (· = '-'))
  | '-' :: 'V' :: _ => .version
  | _ => .unknown

/-- The argument starts with a dash and is more than that. -/
def isDashed : List Char → Bool
  | '-' :: _ :: _ => true
  | _ => false

/-- Why no arguments were collected. -/
inductive Stop where
  /-- The version was asked for. -/
  | version
  | malformed
deriving DecidableEq, Repr

/-- Nothing, or a malformed command line. -/
def orMalformed (a : Option Arguments) : Except Stop Arguments :=
  match a with
  | some a => .ok a
  | none => .error .malformed

/-- Collects the arguments after those in `a`.  `pending` is the option that waits for its
    value. -/
def collect (pending : Option OptionName) (a : Arguments) : List String → Except Stop Arguments
  | [] => if pending.isSome then .error .malformed else .ok a
  | arg :: rest =>
    if arg == "--" then
      if pending.isSome then .error .malformed else orMalformed (a.addPaths? rest)
    else if isDashed arg.toList then
      let a := match pending with
        | some name => a.addOption name none
        | none => a
      match readDashed arg.toList with
      | .option name none => collect (some name) a rest
      | .option name (some value) => collect none (a.addOption name (some value)) rest
      | .flag name => collect none (a.addFlag name) rest
      | .version => .error .version
      | .unknown => .error .malformed
    else
      match pending with
      | some name => collect none (a.addOption name (some arg)) rest
      | none =>
        match a.addPath? arg with
        | some a => collect none a rest
        | none => .error .malformed

/-- A number in decimal digits, up to `maxCount`. -/
def number? (text : String) : Option Nat := Text.wordValue? maxCount text.toList

/-- A verbosity: silent, or the most detailed level to show. -/
def verbosity? : String → Option (Option Level)
  | "0" => some none
  | "1" => some (some .info)
  | "2" => some (some .trace)
  | _ => none

/-- A policy. -/
def policy? : String → Option ExtensionPolicy
  | "first" => some .firstFit
  | "last" => some .lastFit
  | "shuffled" => some .shuffled
  | _ => none

/-- The value of an option that may be left out: `default` if it is, nothing if the value is not
    well formed. -/
def setting? {α : Type} (a : Arguments) (name : OptionName) (read : String → Option α)
    (default : α) : Option α :=
  match a.value? name with
  | none => some default
  | some text => read text

/-- The request, if there is exactly one. -/
def request? (a : Arguments) (limit : Nat) : Option Request :=
  match a.value? .random, a.value? .strength, a.value? .feature with
  | some count, none, none => (number? count).map .random
  | none, some strength, none => (number? strength).map (.covering · none limit)
  | none, none, some name => some (.feature name)
  | _, _, _ => none

/-- Every option has its value. -/
def hasAllValues (a : Arguments) : Bool := a.options.all (·.2.isSome)

/-- No option and no flag is repeated. -/
def isRepetitionFree (a : Arguments) : Bool :=
  decide (a.options.map (·.1)).Nodup && decide a.flags.Nodup

/-- A job with its files, and the most detailed level of reports to show. -/
structure Invocation where
  verbosity : Option Level
  job : Job
  input : String
  output : Option String

/-- Checks what was collected. -/
def check (a : Arguments) : Option Invocation := do
  if !isRepetitionFree a || !hasAllValues a then none
  let verbosity ← setting? a .verbosity verbosity? (some .info)
  let policy ← setting? a .policy policy? default
  let limit ← setting? a .limit number? maxCount
  let seed ← setting? a .seed number? 0
  let request ← request? a limit
  let input ← a.paths[0]?
  let settings : SampleSettings :=
    { maxSize := limit, allowDuplicates := a.hasFlag .allowDuplicates, seed := seed }
  let mode : Dimacs.Mode := if a.hasFlag .strict then .strict else .lenient
  pure ⟨verbosity, ⟨mode, request, settings, policy⟩, input, a.paths[1]?⟩

/-- What the arguments ask for. -/
inductive Command where
  | version
  | sample (invocation : Invocation)
  /-- The arguments make no sense. -/
  | malformed

/-- Reads the arguments. -/
def parse (args : List String) : Command :=
  match collect none {} args with
  | .error .version => .version
  | .error .malformed => .malformed
  | .ok a =>
    match check a with
    | none => .malformed
    | some invocation => .sample invocation

/-- The program's name and version. -/
def versionText : String := "feature-sampler 0.0.1"

/-- What a malformed command line is answered with. -/
def usageText : String :=
  "error: invalid arguments\n\nUSAGE:\n    feature-sampler [OPTIONS] "
    ++ "<--random <count>|--twise <strength>|--module <feature>> <input> [output]"

/-- The lines to show of a journal. -/
def Invocation.lines (invocation : Invocation) (journal : Journal) : List String :=
  match invocation.verbosity with
  | none => []
  | some level => (journal.upTo level).map Event.text

end CommandLine

end ConfigSampler
