import ConfigSampler.Formula.Cnf
import ConfigSampler.Sampling.Run

/-!
# Reports

The lines that tell a user about a formula, a sample and the work of the solver.
-/

set_option autoImplicit false

namespace ConfigSampler

open Text

namespace Report

/-- A line across the report. -/
def rule : String :=
  "==============================================================================="

/-- The line above the report. -/
def title : String :=
  "============================[ Problem Statistics ]============================="

/-- A line without content. -/
def gap : String :=
  "|                                                                             |"

/-- The space to the right end of a line. -/
def margin : String := "                                         |"

/-- The lines before the formula is read. -/
def opening : List String := [title, gap]

/-- The lines about a formula that was read in so many seconds. -/
def formula (cnf : Cnf) (seconds : Float) : List String :=
  ["|  Number of variables:  " ++ column 12 cnf.size ++ margin,
    "|  Number of clauses:    " ++ column 12 cnf.clauses.size ++ margin,
    "|  Parse time:           " ++ padLeft 12 (Fixed.render 2 seconds)
      ++ " s                                       |",
    gap,
    rule]

/-- The line about the candidate counts. -/
def coverage (c : Coverage) : String :=
  "|  Coverage:             " ++ padLeft 12 (Fixed.render 2 (c.ratio * 100.0)) ++ " % ("
    ++ toString c.covered ++ " of " ++ toString c.candidates ++ ", " ++ toString c.infeasible
    ++ " infeasible)"

/-- The lines about a sample that was drawn in so many seconds. -/
def sample (s : Sample) (seconds : Float) : List String :=
  [rule,
    "|  Configurations:       " ++ column 12 s.configurations.size ++ margin,
    "|  Status:               " ++ padLeft 12 s.completion.name ++ margin]
    ++ (s.coverage.map coverage).toList
    ++ ["|  Sampling time:        " ++ padLeft 12 (Fixed.render 2 seconds)
      ++ " s                                       |",
    rule]

/-- A rate, in brackets. -/
def rate (count : Nat) (seconds : Float) : String :=
  "(" ++ Fixed.render 0 (Float.ofNat count / seconds) ++ " / sec)"

/-- A share in percent with two places. -/
def share (part whole : Nat) : String :=
  padLeft 4 (Fixed.render 2 (Float.ofNat part * 100.0 / Float.ofNat (max whole 1)))

/-- The lines about the solver's work in so many seconds. -/
def work (s : SolverStats) (seconds : Float) : List String :=
  ["restarts              : " ++ column 12 s.restarts,
    "solves                : " ++ column 12 s.solves,
    "conflicts             : " ++ column 12 s.conflicts ++ "   " ++ rate s.conflicts seconds,
    "decisions             : " ++ column 12 s.decisions ++ "   ("
      ++ share s.randomDecisions s.decisions ++ " % random) " ++ rate s.decisions seconds,
    "propagations          : " ++ column 12 s.propagations ++ "   " ++ rate s.propagations seconds,
    "conflict literals     : " ++ column 12 s.learntLiterals ++ "   ("
      ++ share s.droppedLiterals (s.droppedLiterals + s.learntLiterals) ++ " % deleted)",
    "CPU time              : " ++ Fixed.render 3 seconds ++ " s"]

/-- Lines as events. -/
def journal (lines : List String) : Journal := (lines.map Event.notice).toArray

end Report

end ConfigSampler
