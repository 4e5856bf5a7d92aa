import Formulary.Formula.Parser
import Formulary.Path

/-!
Arguments of the command line: one definition file, and options that start with dashes. After two
dashes alone everything is taken as it is.
-/

namespace Formulary

namespace Arguments

def defaultOutDir : String := "."
def defaultLog : String := "logfile.log"

end Arguments

structure Arguments where
  input : OsText
  outDir : OsText := Arguments.defaultOutDir
  log : OsText := Arguments.defaultLog
  noLog : Bool := false
  limit : Nat := defaultLimit
  print : Bool := false
  json : Bool := false
  verbose : Bool := false
deriving DecidableEq, Repr

inductive UsageError
  /-- Help was asked for, which is no mistake. -/
  | help
  | unknownArgument (text : String)
  | missingInput
  | missingValue (option : String)
  | invalidValue (option value : String)
  | unexpectedValue (flag value : String)
  | repeated (option : String)
deriving DecidableEq, Repr

def UsageError.message : UsageError → String
  | .help => "help is asked for"
  | .unknownArgument text => "unexpected argument '" ++ text ++ "'"
  | .missingInput => "no input file is given"
  | .missingValue option => "a value is required for '--" ++ option ++ "'"
  | .invalidValue option value => "invalid value '" ++ value ++ "' for '" ++ option ++ "'"
  | .unexpectedValue flag value => "unexpected value '" ++ value ++ "' for '--" ++ flag ++ "'"
  | .repeated option => "'--" ++ option ++ "' cannot be used multiple times"

def UsageError.exitCode : UsageError → Nat
  | .help => 0
  | _ => 2

/-- What has been read of the arguments; each of them can be given once. -/
structure PartialArguments where
  input : Option String := none
  outDir : Option String := none
  log : Option String := none
  noLog : Bool := false
  limit : Option Nat := none
  print : Bool := false
  json : Bool := false
  verbose : Bool := false

namespace PartialArguments

def setInput (p : PartialArguments) (value : String) : Except UsageError PartialArguments :=
  if p.input.isSome then .error (.unknownArgument value)
  else if value = "" then .error (.invalidValue "INPUT" value)
  else .ok { p with input := some value }

/-- Whether an option takes a value; none if there is no such option. -/
def takesValue? : String → Option Bool
  | "out-dir" | "log" | "max-depth" => some true
  | "no-log" | "print" | "json" | "verbose" | "help" => some false
  | _ => none

def setOption (p : PartialArguments) (name value : String) : Except UsageError PartialArguments :=
  match name with
  | "out-dir" =>
    if p.outDir.isSome then .error (.repeated name)
    else if value = "" then .error (.invalidValue name value)
    else .ok { p with outDir := some value }
  | "log" =>
    if p.log.isSome then .error (.repeated name)
    else if value = "" then .error (.invalidValue name value)
    else .ok { p with log := some value }
  | "max-depth" =>
    if p.limit.isSome then .error (.repeated name)
    else match Text.count? value.toList with
      | some limit => .ok { p with limit := some limit }
      | none => .error (.invalidValue name value)
  | _ => .error (.unknownArgument name)

def setFlag (p : PartialArguments) (name : String) : Except UsageError PartialArguments :=
  match name with
  | "no-log" => if p.noLog then .error (.repeated name) else .ok { p with noLog := true }
  | "print" => if p.print then .error (.repeated name) else .ok { p with print := true }
  | "json" => if p.json then .error (.repeated name) else .ok { p with json := true }
  | "verbose" => if p.verbose then .error (.repeated name) else .ok { p with verbose := true }
  | "help" => .error .help
  | _ => .error (.unknownArgument name)

def shortName? : Char → Option String
  | 'v' => some "verbose"
  | 'h' => some "help"
  | _ => none

/-- Reads the letters after a single dash. -/
def setShort (p : PartialArguments) : List Char → Except UsageError PartialArguments
  | [] => .ok p
  | c :: cs =>
    match shortName? c with
    | none => .error (.unknownArgument (String.ofList ['-', c]))
    | some name => do (← p.setFlag name).setShort cs

def isOption (text : String) : Bool := text.toList.head? = some '-' && text ≠ "-"

/-- Splits `name=value`. -/
def splitValue (cs : List Char) : String × Option String :=
  let name := String.ofList (cs.takeWhile (· ≠ '='))
  match cs.dropWhile (· ≠ '=') with
  | [] => (name, none)
  | _ :: value => (name, some (String.ofList value))

/-- Reads arguments that may be options. -/
def read (p : PartialArguments) : List String → Except UsageError PartialArguments
  | [] => .ok p
  | text :: rest =>
    match text.toList with
    | ['-', '-'] => rest.foldlM setInput p
    | '-' :: '-' :: cs =>
      let (name, value?) := splitValue cs
      match takesValue? name, value? with
      | none, _ => .error (.unknownArgument text)
      | some false, some value => .error (.unexpectedValue name value)
      | some false, none => do (← p.setFlag name).read rest
      | some true, some value => do (← p.setOption name value).read rest
      | some true, none =>
        match rest with
        | [] => .error (.missingValue name)
        | value :: rest =>
          if isOption value then .error (.missingValue name)
          else do (← p.setOption name value).read rest
    | '-' :: c :: cs => do (← p.setShort (c :: cs)).read rest
    | _ => do (← p.setInput text).read rest

def complete (p : PartialArguments) : Except UsageError Arguments :=
  match p.input with
  | none => .error .missingInput
  | some input => .ok {
      input
      outDir := p.outDir.getD Arguments.defaultOutDir
      log := p.log.getD Arguments.defaultLog
      noLog := p.noLog
      limit := p.limit.getD defaultLimit
      print := p.print
      json := p.json
      verbose := p.verbose
    }

end PartialArguments

def Arguments.ofList (texts : List String) : Except UsageError Arguments := do
  (← ({} : PartialArguments).read texts).complete

end Formulary
