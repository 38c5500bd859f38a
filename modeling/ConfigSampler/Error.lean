import ConfigSampler.Text.Utf8

/-!
# Errors

Every way in which reading a formula, solving it or sampling it can fail, as a cause with its
data.  The wording stands in `message` functions only.
-/

set_option autoImplicit false

namespace ConfigSampler

/-- The largest number of variables a formula read from text may declare or use. -/
def maxVariables : Nat := 4194304

/-- Why a text is no formula. -/
inductive DimacsFault where
  | missingHeader
  | badHeader
  | numberExpected
  | numberTooLarge
  | literalTooLarge
  | tooManyDeclared (declared : Nat)
  | beyondDeclared (var : Nat)
  | beyondSupported (var : Nat)
  | clauseCount (declared found : Nat)
  | variableCount (declared found : Nat)
deriving DecidableEq, Repr

/-- The wording of a fault. -/
def DimacsFault.message : DimacsFault → String
  | .missingHeader => "missing 'p cnf' header"
  | .badHeader => "failed to consume; expected 'p cnf'"
  | .numberExpected => "int expected"
  | .numberTooLarge => "integer overflow"
  | .literalTooLarge => "literal out of range"
  | .tooManyDeclared declared =>
    toString declared ++ " variables declared, at most " ++ toString maxVariables ++ " supported"
  | .beyondDeclared var =>
    "variable " ++ toString var ++ " exceeds the declared count"
  | .beyondSupported var =>
    "variable " ++ toString var ++ " exceeds the supported " ++ toString maxVariables
  | .clauseCount declared found =>
    "DIMACS header mismatch: " ++ toString declared ++ " clauses declared, " ++ toString found
      ++ " found"
  | .variableCount declared found =>
    "DIMACS header mismatch: " ++ toString declared ++ " vars declared, " ++ toString found
      ++ " discovered"

/-- Why compressed bytes cannot be expanded. -/
inductive GzipFault where
  | badHeader
  | fieldTooLong
  | corruptBody
  | checksumMismatch
  | truncated
deriving DecidableEq, Repr

/-- Why a file cannot be read or written. -/
inductive FileFault where
  | notFound
  | notText (fault : Text.Utf8Fault)
  | streamNotText
  | compressed (fault : GzipFault)
  | other (text : String)
deriving DecidableEq, Repr

/-- The wording of a fault. -/
def FileFault.message : FileFault → String
  | .notFound => "No such file or directory (os error 2)"
  | .notText fault => fault.message
  | .streamNotText => "stream did not contain valid UTF-8"
  | .compressed .badHeader => "invalid gzip header"
  | .compressed .fieldTooLong => "gzip header field too long"
  | .compressed .corruptBody => "corrupt deflate stream"
  | .compressed .checksumMismatch => "corrupt gzip stream does not have a matching checksum"
  | .compressed .truncated => "unexpected end of file"
  | .other text => text

/-- Every way in which an operation of the library can fail. -/
inductive SampleError where
  | duplicateVariable (name : String)
  | unknownVariable (name : String)
  | zeroLiteral
  | literalOutOfRange (literal : Int)
  | invalidStrength (strength : Nat)
  | budgetExhausted
  /-- A search was cut off by its step limit before it came to a result. -/
  | stepLimitReached
  | dimacs (line : Nat) (fault : DimacsFault)
  | file (fault : FileFault)
deriving DecidableEq, Repr

/-- The wording of an error. -/
def SampleError.message : SampleError → String
  | .duplicateVariable name => "variable '" ++ name ++ "' is already registered"
  | .unknownVariable name => "unknown variable '" ++ name ++ "'"
  | .zeroLiteral => "0 is not a literal"
  | .literalOutOfRange literal =>
    "literal " ++ toString literal ++ " references no registered variable"
  | .invalidStrength strength =>
    "interaction strength must be at least 1, got " ++ toString strength
  | .budgetExhausted => "solver budget exhausted before a result was reached"
  | .stepLimitReached => "step limit reached before a result was found"
  | .dimacs line fault => "PARSE ERROR at line " ++ toString line ++ ": " ++ fault.message
  | .file fault => fault.message

end ConfigSampler
