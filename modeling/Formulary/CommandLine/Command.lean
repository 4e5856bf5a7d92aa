import Formulary.CommandLine.Arguments
import Formulary.Report
import Formulary.Storage.Files
import Formulary.Tree

/-!
The command: reads a definition, runs on it, and writes the grammar and the parse tree. It ends
with a transcript of all that it told, recorded and printed.
-/

namespace Formulary

/-- Where a command runs: its files and its clock, and whether it was built to write JSON. -/
structure Host (m : Type → Type) where
  storage : Storage m
  now : m Timestamp
  writesJson : Bool := true

/-- Why a command does not succeed. -/
inductive CommandError
  | withoutJson
  | failure (f : Failure)
deriving DecidableEq, Repr

def CommandError.message : CommandError → String
  | .withoutJson => "--json requires folgram to be built with the `serde` feature"
  | .failure f => f.chain

structure Transcript where
  events : List Event := []
  records : List Record := []
  stdout : String := ""
  error : Option CommandError := none

namespace Transcript

def exitCode (t : Transcript) : Nat := if t.error.isSome then 1 else 0

/-- The events from a level up, one on each line; none without a level. -/
def eventLines (t : Transcript) (least : Option Level) : List String :=
  match least with
  | none => []
  | some level => (t.events.filter fun e => level.rank ≤ e.level.rank).map Event.line

/-- The line about the error that ended the command. -/
def failureLine? (t : Transcript) : Option String := t.error.map ("error: " ++ ·.message)

end Transcript

/-- The least level of shown events: the one a filter names, or else what the verbosity calls for.
This stands for filters that are a level and nothing else. Any other filter shows nothing here; one
with targets, such as `folgram=debug`, would show what it asks for, and one that cannot be read
would leave the choice to the verbosity. -/
def threshold (filter : Option String) (verbose : Bool) : Option Level :=
  match filter with
  | none => if verbose then some .debug else some .warn
  | some text =>
    match text.map Char.toLower with
    | "trace" | "5" => some .trace
    | "debug" | "4" => some .debug
    | "info" | "3" => some .info
    | "warn" | "2" => some .warn
    | _ => none

namespace Arguments

/-- The name under which the input is recorded. -/
def inputName (a : Arguments) : String := ((Path.fileName? a.input).getD a.input).shown

def runOptions (a : Arguments) : RunOptions := { limit := a.limit, input := a.inputName }

/-- What a successful command prints. -/
def printed (a : Arguments) (analysis : Analysis) : String :=
  let echo :=
    if a.print then
      analysis.grammar.report a.inputName ++ "\n" ++ analysis.tree.render ++ "\n"
    else ""
  echo ++ successMessage ++ "\n"

variable {m : Type → Type} [Monad m]

def pipeline (a : Arguments) (host : Host m) : Pipeline m where
  options := a.runOptions
  now := host.now
  sink := if a.noLog then .discard else host.storage.logFile a.log

/-- Writes the outputs, the JSON report last. -/
def writeAnalysis (a : Arguments) (host : Host m) (analysis : Analysis) : m (Traced Unit) := do
  let paths := OutputPaths.forInput a.input a.outDir (← host.now)
  match ← host.storage.writeOutputs
      [(paths.grammar, analysis.grammar.report a.inputName),
       (paths.parseTree, analysis.tree.toDot)] with
  | .error e => return ⟨[], .error (.file e)⟩
  | .ok () =>
    let written : Event := .outputsWritten paths.grammar paths.parseTree
    let reports := if a.json then [(paths.json, (analysis.report a.inputName).pretty)] else []
    return ⟨[written], (← host.storage.writeOutputs reports).mapError .file⟩

/-- Ends a transcript with a failure that the run itself did not record. -/
def abort (a : Arguments) (host : Host m) (t : Transcript) (f : Failure) : m Transcript := do
  let (record, more) ← (a.pipeline host).recordFailure f
  return { t with
    events := t.events ++ more
    records := t.records ++ [record]
    error := some (.failure f) }

/-- Reads, runs and writes. -/
def process (a : Arguments) (host : Host m) : m Transcript := do
  let reading ← host.storage.readDefinition a.input
  match reading.result with
  | .error f => a.abort host { events := reading.events } f
  | .ok lines =>
    let ran ← (a.pipeline host).runLines lines
    let t : Transcript := { events := reading.events ++ ran.events, records := [ran.record] }
    match ran.result with
    | .error f => return { t with error := some (.failure f) }
    | .ok analysis =>
      let writing ← a.writeAnalysis host analysis
      let t := { t with events := t.events ++ writing.events }
      match writing.result with
      | .error f => a.abort host t f
      | .ok () => return { t with stdout := a.printed analysis }

/-- A command that cannot give what it is asked for does not begin. -/
def run (a : Arguments) (host : Host m) : m Transcript :=
  if a.json && ! host.writesJson then return { error := some .withoutJson }
  else a.process host

end Arguments

end Formulary
