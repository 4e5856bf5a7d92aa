import Formulary.Alphabet.Validate
import Formulary.Definition
import Formulary.Diagnostics.Event
import Formulary.Formula.Parser
import Formulary.Formula.Structure
import Formulary.Grammar.Description

/-!
A whole run: a definition is loaded, its alphabet validated, its formula checked and parsed, and
the grammar of the alphabet generated. The first failure ends the run, and each run leaves one
record.
-/

namespace Formulary

structure Analysis where
  alphabet : Alphabet
  tokens : List Symbol
  tree : ParseTree
  grammar : Grammar

def Move.event? : Move → Option Event
  | .select rule position depth => some (.formulaEntered rule position depth)
  | .enter _ => none
  | .shift _ => none
  | .leave => none

/-- Parses, and tells of each formula that is begun and of the tree in the end. -/
def tracedParse (a : Alphabet) (limit : Nat) (tokens : List Symbol) : Traced ParseTree := do
  let parsing := attempt a limit tokens
  .tell (parsing.moves.filterMap Move.event?)
  let tree ← .ofExcept .parse parsing.result
  .tell [.formulaParsed tokens.length tree.size]
  return tree

namespace Definition

def load (lines : List String) : Traced Definition :=
  let d := ofLines lines
  let loaded : Event := .definitionLoaded d.declaration.vars.length
    d.declaration.constants.length d.declaration.predicates.length d.formula.length
  ⟨(strayLines lines).map .strayLine ++ [loaded], .ok d⟩

def analyze (d : Definition) (limit : Nat) : Traced Analysis := do
  let a ← .ofExcept .alphabet d.declaration.validate
  .tell [.alphabetValidated a.vars.length a.constants.length a.predicates.length]
  .ofExcept .formula (checkStructure a.toSignature d.formula)
  .tell [.structureChecked d.formula.length]
  let tree ← tracedParse a limit d.formula
  let grammar := a.grammar
  .tell [.grammarGenerated grammar.rules.length grammar.terminals.length]
  return { alphabet := a, tokens := d.formula, tree, grammar }

end Definition

def successMessage : String := "FO formula parsed successfully"

structure RunOptions where
  limit : Nat := defaultLimit
  input : String := "<input>"
deriving DecidableEq, Repr

def RunOptions.failureRecord (o : RunOptions) (time : Timestamp) (f : Failure) : Record :=
  ⟨time, o.input, .err, f.message⟩

/-- The record that a run leaves. -/
def RunOptions.recordOf {α : Type} (o : RunOptions) (time : Timestamp) :
    Except Failure α → Record
  | .ok _ => ⟨time, o.input, .ok, successMessage⟩
  | .error f => o.failureRecord time f

/-- A run that has left its record. -/
structure Run (α : Type) extends Traced α where
  record : Record

/-- Runs share their options, a clock and a sink. -/
structure Pipeline (m : Type → Type) where
  options : RunOptions
  now : m Timestamp
  sink : Sink m

namespace Pipeline

variable {m : Type → Type} [Monad m]

def conclude {α : Type} (p : Pipeline m) (work : Traced α) : m (Run α) := do
  let record := p.options.recordOf (← p.now) work.result
  let more ← p.sink.record record
  return { events := work.events ++ more, result := work.result, record }

def runDefinition (p : Pipeline m) (d : Definition) : m (Run Analysis) :=
  p.conclude (d.analyze p.options.limit)

def runLines (p : Pipeline m) (lines : List String) : m (Run Analysis) :=
  p.conclude do (← Definition.load lines).analyze p.options.limit

def runText (p : Pipeline m) (text : String) : m (Run Analysis) := p.runLines (Text.linesOf text)

/-- Leaves a record for a failure that arose outside of a run. -/
def recordFailure (p : Pipeline m) (f : Failure) : m (Record × List Event) := do
  let record := p.options.failureRecord (← p.now) f
  let more ← p.sink.record record
  return (record, more)

end Pipeline

end Formulary
