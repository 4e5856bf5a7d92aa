import Formulary.Diagnostics.Record
import Formulary.Failure
import Formulary.Formula.Lookahead

/-!
Events: what the stages of a run tell about their work, each at a level. Computations tell them on
their way to a result or a failure, and receivers of records may tell them as well.
-/

namespace Formulary

open Text (decimal)

inductive Level
  | trace
  | debug
  | info
  | warn
deriving DecidableEq, Repr

namespace Level

def text : Level → String
  | .trace => "TRACE"
  | .debug => "DEBUG"
  | .info => "INFO"
  | .warn => "WARN"

def rank : Level → Nat
  | .trace => 0
  | .debug => 1
  | .info => 2
  | .warn => 3

end Level

inductive Event
  | strayLine (line : Nat)
  | definitionLoaded (vars constants predicates formulaTokens : Nat)
  | alphabetValidated (vars constants predicates : Nat)
  | structureChecked (tokens : Nat)
  | formulaEntered (rule : Option FormulaRule) (position depth : Nat)
  | formulaParsed (tokens nodes : Nat)
  | grammarGenerated (productions terminals : Nat)
  | recorded (record : Record)
  | appendFailed (path : String) (cause : Cause)
  | definitionRead (path : String) (bytes : Nat)
  | outputsWritten (grammar parseTree : String)
deriving DecidableEq, Repr

def FormulaRule.name : FormulaRule → String
  | .binary => "Binary"
  | .equation => "Equation"
  | .quantified => "Quantified"
  | .negation => "Negation"
  | .atom => "Atom"

/-- The text of a choice of rule. -/
def ruleText : Option FormulaRule → String
  | some rule => "Some(" ++ rule.name ++ ")"
  | none => "None"

namespace Event

def level : Event → Level
  | .strayLine _ => .warn
  | .definitionLoaded .. => .debug
  | .alphabetValidated .. => .debug
  | .structureChecked _ => .debug
  | .formulaEntered .. => .trace
  | .formulaParsed .. => .info
  | .grammarGenerated .. => .debug
  | .recorded record => if record.isError then .warn else .info
  | .appendFailed .. => .warn
  | .definitionRead .. => .debug
  | .outputsWritten .. => .info

/-- The part of the program that an event comes from. -/
def origin : Event → String
  | .strayLine _ => "folgram::alphabet::loader"
  | .definitionLoaded .. => "folgram::alphabet::loader"
  | .alphabetValidated .. => "folgram::alphabet::validator"
  | .structureChecked _ => "folgram::parser::structure"
  | .formulaEntered .. => "folgram::parser::parser"
  | .formulaParsed .. => "folgram::parser::parser"
  | .grammarGenerated .. => "folgram::pipeline"
  | .recorded _ => "folgram::diagnostics"
  | .appendFailed .. => "folgram::project::log_file"
  | .definitionRead .. => "folgram::project::file_loader"
  | .outputsWritten .. => "folgram"

def message : Event → String
  | .strayLine _ => "ignoring content before the first category header"
  | .definitionLoaded .. => "loaded definition"
  | .alphabetValidated .. => "alphabet validated"
  | .structureChecked _ => "formula structure checked"
  | .formulaEntered .. => "F"
  | .formulaParsed .. => "formula parsed successfully"
  | .grammarGenerated .. => "grammar generated"
  | .recorded record => record.message
  | .appendFailed _ cause => "failed to append to log: " ++ cause.message
  | .definitionRead .. => "read definition file"
  | .outputsWritten .. => "outputs written"

/-- The details of an event, each with a name. -/
def fields : Event → List (String × String)
  | .strayLine line => [("line", decimal line)]
  | .definitionLoaded vars constants predicates formulaTokens =>
    [("variables", decimal vars), ("constants", decimal constants),
     ("predicates", decimal predicates), ("formula_tokens", decimal formulaTokens)]
  | .alphabetValidated vars constants predicates =>
    [("variables", decimal vars), ("constants", decimal constants),
     ("predicates", decimal predicates)]
  | .structureChecked tokens => [("tokens", decimal tokens)]
  | .formulaEntered rule position depth =>
    [("rule", ruleText rule), ("position", decimal position), ("depth", decimal depth)]
  | .formulaParsed tokens nodes => [("tokens", decimal tokens), ("nodes", decimal nodes)]
  | .grammarGenerated productions terminals =>
    [("productions", decimal productions), ("terminals", decimal terminals)]
  | .recorded record => [("input", record.input)]
  | .appendFailed path _ => [("path", path)]
  | .definitionRead path bytes => [("path", path), ("bytes", decimal bytes)]
  | .outputsWritten grammar parseTree => [("grammar", grammar), ("parse_tree", parseTree)]

/-- An event on one line, the level right-aligned to five columns. -/
def line (e : Event) : String :=
  let indent := String.ofList (List.replicate (5 - e.level.text.length) ' ')
  " " ++ indent ++ e.level.text ++ " " ++ e.origin ++ ": " ++ e.message ++
    String.join (e.fields.map fun (name, value) => " " ++ name ++ "=" ++ value)

end Event

structure Sink (m : Type → Type) where
  record : Record → m (List Event)

namespace Sink

/-- Forgets every record. -/
def discard {m : Type → Type} [Monad m] : Sink m := ⟨fun _ => return []⟩

/-- Keeps the records in order of arrival. -/
def memory : Sink (StateM (List Record)) :=
  ⟨fun r => do
    modify (· ++ [r])
    return []⟩

/-- Turns every record into an event. -/
def tracing {m : Type → Type} [Monad m] : Sink m := ⟨fun r => return [.recorded r]⟩

end Sink

structure Traced (α : Type) where
  events : List Event
  result : Except Failure α

namespace Traced

/-- Goes on after a success; a failure keeps the events told so far. -/
def andThen {α β : Type} (x : Traced α) (f : α → Traced β) : Traced β :=
  match x.result with
  | .error e => ⟨x.events, .error e⟩
  | .ok a =>
    let y := f a
    ⟨x.events ++ y.events, y.result⟩

instance : Monad Traced where
  pure a := ⟨[], .ok a⟩
  bind := andThen

def tell (events : List Event) : Traced Unit := ⟨events, .ok ()⟩

def ofExcept {ε α : Type} (wrap : ε → Failure) (r : Except ε α) : Traced α := ⟨[], r.mapError wrap⟩

end Traced

end Formulary
