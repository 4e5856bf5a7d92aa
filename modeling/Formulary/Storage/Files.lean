import Formulary.Diagnostics.Event
import Formulary.Path
import Formulary.Text

/-!
Reading definitions, writing outputs under the names that they get, and keeping a log, in a
storage.
-/

namespace Formulary

/-- What a program needs of the place where its files are. -/
structure Storage (m : Type → Type) where
  read : (path : OsText) → m (Except Cause ByteArray)
  /-- Replaces the contents of a file, or makes it. -/
  write : (path : OsText) → (contents : String) → m (Except Cause Unit)
  /-- Adds to the end of a file, or makes it. -/
  append : (path : OsText) → (contents : String) → m (Except Cause Unit)
  makeDir : (path : OsText) → m (Except Cause Unit)
  isDir : (path : OsText) → m Bool

structure OutputPaths where
  grammar : OsText
  parseTree : OsText
deriving DecidableEq, Repr

namespace OutputPaths

/-- The outputs are named by the time of the run and the stem of the input, as it is shown, and by
what they hold. -/
def forInput (input outDir : OsText) (time : Timestamp) : OutputPaths :=
  let stem := ((Path.stem? input).map OsText.shown).getD ""
  let start := time.text ++ stem
  { grammar := Path.join outDir (.ofString (start ++ "-outputgrammar.txt"))
    parseTree := Path.join outDir (.ofString (start ++ "-outputparsetree.dot")) }

/-- Where the JSON report goes, beside the grammar. -/
def json (p : OutputPaths) : OsText := Path.withExtension p.grammar "json"

end OutputPaths

/-- The extension that the file of a definition has. -/
def definitionExtension : String := "txt"

def checkExtension (path : OsText) : Except FileError Unit :=
  if Path.extension? path = some definitionExtension then .ok ()
  else .error (.unsupportedExtension path)

namespace Storage

variable {m : Type → Type} [Monad m]

/-- The lines of a definition. -/
def readDefinition (s : Storage m) (path : OsText) : m (Traced (List String)) := do
  match checkExtension path with
  | .error e => return ⟨[], .error (.file e)⟩
  | .ok () =>
    match ← s.read path with
    | .error cause => return ⟨[], .error (.file (.read path cause))⟩
    | .ok bytes =>
      match String.fromUTF8? bytes with
      | none => return ⟨[], .error (.file (.read path .invalidUtf8))⟩
      | some text => return ⟨[.definitionRead path bytes.size], .ok (Text.linesOf text)⟩

/-- Makes the first of some directories, each of which lies in the next one. A missing one is made
after those it lies in, and one that exists is fine. -/
def ensureDirs (s : Storage m) : List OsText → m (Except Cause Unit)
  | [] => return .ok ()
  | path :: above => do
    let settle (cause : Cause) : m (Except Cause Unit) := do
      if ← s.isDir path then return .ok () else return .error cause
    match ← s.makeDir path with
    | .ok () => return .ok ()
    | .error cause =>
      if cause = .notFound then
        match ← s.ensureDirs above with
        | .error cause => return .error cause
        | .ok () =>
          match ← s.makeDir path with
          | .ok () => return .ok ()
          | .error cause => settle cause
      else settle cause

/-- Writes a file, in a directory that is made if need be. -/
def writeOutput (s : Storage m) (path : OsText) (contents : String) :
    m (Except FileError Unit) := do
  match ← s.ensureDirs (Path.ancestors path) with
  | .error cause => return .error (.write path cause)
  | .ok () => return (← s.write path contents).mapError (.write path)

/-- Writes files in order and stops at the first failure. -/
def writeOutputs (s : Storage m) : List (OsText × String) → m (Except FileError Unit)
  | [] => return .ok ()
  | (path, contents) :: rest => do
    match ← s.writeOutput path contents with
    | .error e => return .error e
    | .ok () => s.writeOutputs rest

/-- Adds each record to a file as a line. A line that cannot be added changes nothing else. -/
def logFile (s : Storage m) (path : OsText) : Sink m where
  record r := do
    match ← s.append path (r.line ++ "\n") with
    | .ok () => return []
    | .error cause => return [.appendFailed path cause]

end Storage

end Formulary
