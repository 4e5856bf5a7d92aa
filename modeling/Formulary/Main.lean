import Formulary.CommandLine.Command
import Formulary.CommandLine.Help
import Std.Time

/-!
The program: the command, run on the files and the clock of the system.
-/

namespace Formulary

def causeOf : IO.Error → Cause
  | .alreadyExists _ code _ => .os code.toNat
  | .otherError code _ => .os code.toNat
  | .resourceBusy code _ => .os code.toNat
  | .resourceVanished code _ => .os code.toNat
  | .unsupportedOperation code _ => .os code.toNat
  | .hardwareFault code _ => .os code.toNat
  | .unsatisfiedConstraints code _ => .os code.toNat
  | .illegalOperation code _ => .os code.toNat
  | .protocolError code _ => .os code.toNat
  | .timeExpired code _ => .os code.toNat
  | .interrupted _ code _ => .os code.toNat
  | .noFileOrDirectory _ code _ => .os code.toNat
  | .invalidArgument _ code _ => .os code.toNat
  | .permissionDenied _ code _ => .os code.toNat
  | .resourceExhausted _ code _ => .os code.toNat
  | .inappropriateType _ code _ => .os code.toNat
  | .noSuchThing _ code _ => .os code.toNat
  | .unexpectedEof => .os 5
  | .userError _ => .os 5

def tryFile {α : Type} (work : IO α) : IO (Except Cause α) := do
  match ← work.toBaseIO with
  | .ok a => return .ok a
  | .error e => return .error (causeOf e)

/-- Does something about a path, which has to be UTF-8 here. -/
def tryPath {α : Type} (path : OsText) (work : String → IO α) : IO (Except Cause α) :=
  match path.text? with
  | some text => tryFile (work text)
  | none => return .error .illegalBytes

def systemStorage : Storage IO where
  read path := tryPath path fun path => do (← IO.FS.Handle.mk path .read).readBinToEnd
  write path contents := tryPath path fun path => IO.FS.writeFile path contents
  append path contents := tryPath path fun path => do
    let handle ← IO.FS.Handle.mk path .append
    handle.putStr contents
    handle.flush
  makeDir path := tryPath path fun path => IO.FS.createDir path
  isDir path := do
    match ← tryPath path fun path => do (← IO.FS.realPath path).isDir with
    | .ok found => return found
    | .error _ => return false

def timestampOf (t : Std.Time.PlainDateTime) : Timestamp where
  year := t.year.toInt
  month := t.month.val.toNat
  day := t.day.val.toNat
  hour := t.hour.val.toNat
  minute := t.minute.val.toNat
  second := t.second.val.toNat

def universalTime : IO Std.Time.PlainDateTime := do
  return (Std.Time.DateTime.ofTimestamp (← Std.Time.Timestamp.now) .UTC).toPlainDateTime

/-- The local time, or that of UTC where no local one is known. -/
def systemTime : IO Timestamp := do
  match ← Std.Time.PlainDateTime.now.toBaseIO with
  | .ok t => return timestampOf t
  | .error _ => return timestampOf (← universalTime)

def stamp : IO String := do
  let t ← universalTime
  return (timestampOf t).precise (t.nanosecond.val.toNat / 1000)

end Formulary

open Formulary in
def main (texts : List String) : IO UInt32 := do
  match Arguments.ofList texts with
  | .error e =>
    IO.print e.stdout
    IO.eprint e.stderr
    return UInt32.ofNat e.exitCode
  | .ok arguments =>
    let t ← arguments.run { storage := systemStorage, now := systemTime }
    let least := threshold (← IO.getEnv "FOLGRAM_LOG") arguments.verbose
    for line in t.eventLines least do IO.eprintln ((← stamp) ++ line)
    for line in t.failureLine? do IO.eprintln line
    IO.print t.stdout
    return UInt32.ofNat t.exitCode
