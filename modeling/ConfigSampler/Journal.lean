import ConfigSampler.Formula.LiteralSet
import ConfigSampler.Sampling.Completion
import ConfigSampler.Text.Fixed

/-!
# The journal

What a run reports while it works: a list of events, oldest first.  An event is data; `level`
says for whom it is meant and `text` how it is worded.  Nothing in the library reads a journal,
so reporting never changes a result.
-/

set_option autoImplicit false

namespace ConfigSampler

open Text

/-- How detailed a report is, the coarsest first. -/
inductive Level where
  | info
  | debug
  | trace
deriving DecidableEq, Repr

namespace Level

/-- The place of a level among the levels. -/
def rank : Level → Nat
  | .info => 0
  | .debug => 1
  | .trace => 2

/-- The name of a level. -/
def name : Level → String
  | .info => "INFO"
  | .debug => "DEBUG"
  | .trace => "TRACE"

end Level

/-- The state of a search when its limit on learnt clauses is raised. -/
structure SearchRow where
  conflicts : Nat
  freeVariables : Nat
  clauses : Nat
  clauseLiterals : Nat
  learntLimit : Nat
  learnts : Nat
  literalsPerLearnt : Float
  progress : Float

/-- Something worth reporting. -/
inductive Event where
  /-- A line of a report. -/
  | notice (line : String)
  | tautologyDropped (clause : LiteralSet)
  | nameIgnored (name : String) (index : Nat)
  | searchStarted (assumptions learnts : Nat)
  | learntLimitRaised (row : SearchRow)
  | compacted (before after : Nat)
  | clauseContradicts (clause : List Int)
  | solveInterrupted (progress : Float)
  | accepted (configuration : LiteralSet)
  | noneLeft (count : Nat)
  | sampled (count : Nat) (completion : Completion)
  | configurationOpened (combination : LiteralSet)
  | combinationInfeasible (combination : LiteralSet)
  | coveringFinished (strength configurations covered candidates infeasible : Nat)
  | workExpected (work : Nat)
  | workDone (done total : Nat)

namespace Event

/-- For whom an event is meant. -/
def level : Event → Level
  | .notice _ => .info
  | .tautologyDropped _ => .trace
  | .nameIgnored _ _ => .debug
  | .searchStarted _ _ => .trace
  | .learntLimitRaised _ => .debug
  | .compacted _ _ => .debug
  | .clauseContradicts _ => .trace
  | .solveInterrupted _ => .debug
  | .accepted _ => .trace
  | .noneLeft _ => .debug
  | .sampled _ _ => .info
  | .configurationOpened _ => .trace
  | .combinationInfeasible _ => .trace
  | .coveringFinished _ _ _ _ _ => .debug
  | .workExpected _ => .debug
  | .workDone _ _ => .info

/-- Integers between square brackets, separated by commas. -/
def listText (xs : List Int) : String := "[" ++ String.intercalate ", " (xs.map toString) ++ "]"

/-- The line of a search table. -/
def rowText (row : SearchRow) : String :=
  "| " ++ column 9 row.conflicts ++ " | " ++ column 7 row.freeVariables ++ " "
    ++ column 8 row.clauses ++ " " ++ column 8 row.clauseLiterals ++ " | "
    ++ column 8 row.learntLimit ++ " " ++ column 8 row.learnts ++ " "
    ++ padLeft 6 (Fixed.render 0 row.literalsPerLearnt) ++ " | "
    ++ padLeft 6 (Fixed.render 3 (row.progress * 100.0)) ++ " % |"

/-- The wording of an event. -/
def text : Event → String
  | .notice line => line
  | .tautologyDropped clause => "dropping tautology " ++ clause.render
  | .nameIgnored name index =>
    "ignoring name '" ++ name ++ "' for undeclared variable " ++ toString index
  | .searchStarted assumptions learnts =>
    "| search: " ++ toString assumptions ++ " assumptions, " ++ toString learnts ++ " learnts"
  | .learntLimitRaised row => rowText row
  | .compacted before after =>
    "|  Garbage collection:   " ++ column 12 before ++ " words => " ++ column 12 after
      ++ " words             |"
  | .clauseContradicts clause =>
    "clause " ++ listText clause ++ " contradicts the clause set"
  | .solveInterrupted progress =>
    "solve interrupted at " ++ Fixed.render 3 (progress * 100.0) ++ " % progress"
  | .accepted configuration => "accepted " ++ configuration.render
  | .noneLeft count => "no configuration left after " ++ toString count
  | .sampled count completion =>
    "| sampled " ++ toString count ++ " configurations (" ++ completion.name ++ ")"
  | .configurationOpened combination => "new configuration for " ++ combination.render
  | .combinationInfeasible combination => "infeasible " ++ combination.render
  | .coveringFinished strength configurations covered candidates infeasible =>
    "| t = " ++ toString strength ++ ": " ++ toString configurations ++ " configurations cover "
      ++ toString covered ++ " of " ++ toString candidates ++ " candidates ("
      ++ toString infeasible ++ " infeasible)"
  | .workExpected work => "expecting " ++ toString work ++ " units of work"
  | .workDone done total =>
    "| progress: " ++ column 8 done ++ " / " ++ column 8 total ++ " |"

end Event

/-- Events, oldest first. -/
abbrev Journal := Array Event

namespace Journal

/-- The events a reader who asked for `level` sees. -/
def upTo (journal : Journal) (level : Level) : List Event :=
  journal.toList.filter fun event => event.level.rank ≤ level.rank

end Journal

end ConfigSampler
