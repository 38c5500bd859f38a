import ConfigSampler.Dimacs.File
import ConfigSampler.Dimacs.Writer
import ConfigSampler.Report
import ConfigSampler.Sampling.Request

/-!
# Sessions

A session reads a formula from the bytes of a file, samples it, and writes the sample as text, with
a report on the way.  It runs in any monad that tells the time; everything else about it is pure.
-/

set_option autoImplicit false

namespace ConfigSampler

/-- What a session is to do. -/
structure Job where
  mode : Dimacs.Mode
  request : Request
  settings : SampleSettings
  policy : ExtensionPolicy

/-- What a session yields: the sample and its text. -/
structure Delivery where
  sample : Sample
  text : String

namespace Job

/-- Reads the formula of an input file, if the file could be read. -/
def readFormula (job : Job) (input : Except FileFault (Array UInt8)) :
    Except SampleError Cnf × Journal :=
  match input with
  | .error fault => (.error (.file fault), #[])
  | .ok bytes => Dimacs.parseFile job.mode bytes

/-- Samples a formula under a monitor that reports progress. -/
def drawSample (job : Job) (cancelled : Bool) (cnf : Cnf) : Except SampleError Sample × Journal :=
  let (result, _, journal) :=
    generate cnf job.request job.settings job.policy (ProgressLog.start cancelled)
  (result, journal)

/-- Does a job, with the time in seconds told by `clock`.  A session that is cancelled from the
    start still reads the formula. -/
def run {m : Type → Type} [Monad m] (clock : m Float) (job : Job) (cancelled : Bool)
    (input : Except FileFault (Array UInt8)) : m (Except SampleError Delivery × Journal) := do
  let started ← clock
  let journal := Report.journal Report.opening
  let (parsed, events) := job.readFormula input
  let journal := journal ++ events
  match parsed with
  | .error e => pure (.error e, journal)
  | .ok cnf => do
    let parsedAt ← clock
    let journal := journal ++ Report.journal (Report.formula cnf (parsedAt - started))
    let (drawn, events) := job.drawSample cancelled cnf
    let journal := journal ++ events
    match drawn with
    | .error e => pure (.error e, journal)
    | .ok sample => do
      let sampledAt ← clock
      let seconds := sampledAt - parsedAt
      let journal := journal
        ++ Report.journal (Report.sample sample seconds ++ Report.work sample.stats seconds)
      let text := Dimacs.sampleText cnf.vars sample.configurations.toList
      pure (.ok ⟨sample, text⟩, journal)

end Job

end ConfigSampler
