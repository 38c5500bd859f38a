import ConfigSampler.CommandLine

/-!
# The program

Reads the arguments, does the job they ask for, and writes the sample to the output file or to the
standard output.  Reports and errors go to the standard error stream.
-/

set_option autoImplicit false

namespace ConfigSampler.Program

open CommandLine

/-- The fault an input or output error stands for. -/
def faultOf : IO.Error → FileFault
  | .noFileOrDirectory _ _ _ => .notFound
  | e => .other (toString e)

/-- The bytes of a file. -/
def readBytesOf (path : String) : IO (Except FileFault (Array UInt8)) := do
  try
    let bytes ← IO.FS.readBinFile path
    pure (.ok bytes.data)
  catch e => pure (.error (faultOf e))

/-- Writes a text to a file. -/
def writeTextTo (path text : String) : IO (Except FileFault Unit) := do
  try
    IO.FS.writeFile path text
    pure (.ok ())
  catch e => pure (.error (faultOf e))

/-- The time in seconds since some fixed moment. -/
def secondsNow : IO Float := do
  let now ← IO.monoNanosNow
  pure (Float.ofNat now / 1000000000.0)

/-- Delivers the text of a sample to its destination. -/
def deliver (output : Option String) (text : String) : IO (Except FileFault Unit) := do
  match output with
  | some path => writeTextTo path text
  | none =>
    IO.print text
    pure (.ok ())

/-- Reports a failure and gives the exit code for it. -/
def failWith (e : SampleError) : IO UInt32 := do
  IO.eprintln e.message
  pure 1

/-- Does the job of an invocation. -/
def runInvocation (invocation : Invocation) : IO UInt32 := do
  let input ← readBytesOf invocation.input
  let (result, journal) ← invocation.job.run secondsNow false input
  for line in invocation.lines journal do
    IO.eprintln line
  match result with
  | .error e => failWith e
  | .ok delivery =>
    match ← deliver invocation.output delivery.text with
    | .error fault => failWith (.file fault)
    | .ok () => pure 0

/-- Does what the arguments ask for. -/
def run (args : List String) : IO UInt32 := do
  match parse args with
  | .version =>
    IO.println versionText
    pure 0
  | .malformed =>
    IO.eprintln usageText
    pure 1
  | .sample invocation => runInvocation invocation

end ConfigSampler.Program

/-- Entry point. -/
def main (args : List String) : IO UInt32 := ConfigSampler.Program.run args
