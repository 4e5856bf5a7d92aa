import Formulary.Pipeline

/-!
The JSON report of a successful run: its input, its tokens and tree with symbols as they are
stored, and its grammar with symbols as they are shown.
-/

namespace Formulary

/-! JSON values and their indented text, two blanks for each level. Text is written as it is, apart
from quotes, backslashes and control characters. -/

open Text (decimal)

inductive Json
  | null
  | number (n : Nat)
  | text (s : String)
  | list (items : List Json)
  | record (fields : List (String × Json))
deriving Repr

namespace Json

def hexDigit (n : Nat) : Char := (Nat.toDigits 16 n).headD '0'

/-- A character as it is written between quotes. -/
def escapeChar (c : Char) : List Char :=
  if c = '"' then ['\\', '"']
  else if c = '\\' then ['\\', '\\']
  else if c = '\n' then ['\\', 'n']
  else if c = '\r' then ['\\', 'r']
  else if c = '\t' then ['\\', 't']
  else if c = '\x08' then ['\\', 'b']
  else if c = '\x0c' then ['\\', 'f']
  else if c.toNat < 0x20 then
    ['\\', 'u', '0', '0', hexDigit (c.toNat / 16), hexDigit (c.toNat % 16)]
  else [c]

def quoted (s : String) : String := "\"" ++ String.ofList (s.toList.flatMap escapeChar) ++ "\""

def indent (level : Nat) : String := String.ofList (List.replicate (2 * level) ' ')

/-- Entries on lines of their own between brackets; without entries the brackets stand alone. -/
def bracketed (opening closing : String) (level : Nat) (entries : List String) : String :=
  if entries.isEmpty then opening ++ closing
  else
    opening ++ "\n" ++ ",\n".intercalate (entries.map (indent (level + 1) ++ ·)) ++ "\n" ++
      indent level ++ closing

mutual

/-- The text of a value that stands `level` levels deep. -/
def write (level : Nat) : Json → String
  | null => "null"
  | number n => decimal n
  | text s => quoted s
  | list items => bracketed "[" "]" level (writeItems (level + 1) items)
  | record fields => bracketed "\x7b" "\x7d" level (writeFields (level + 1) fields)

def writeItems (level : Nat) : List Json → List String
  | [] => []
  | item :: rest => write level item :: writeItems level rest

def writeFields (level : Nat) : List (String × Json) → List String
  | [] => []
  | (name, value) :: rest => (quoted name ++ ": " ++ write level value) :: writeFields level rest

end

def pretty (j : Json) : String := j.write 0

end Json

/-! What is reported. -/

/-- The name of a category in reports. -/
def NonTerminal.key : NonTerminal → String
  | .formula => "Formula"
  | .predicate => "Predicate"
  | .predicateSymbol => "PredicateSymbol"
  | .term => "Term"
  | .var => "Variable"
  | .connective => "Connective"
  | .constant => "Constant"
  | .quantifier => "Quantifier"
  | .varList => "VariableList"

namespace Report

def ofNonTerminal (nt : NonTerminal) : Json := .text nt.key

def ofLabel : NodeLabel → Json
  | .nonTerminal nt => .record [("NonTerminal", ofNonTerminal nt)]
  | .terminal symbol => .record [("Terminal", .text symbol.stored)]

def ofNode (n : Node) : Json :=
  .record [
    ("label", ofLabel n.label),
    ("parent", match n.parent with | some id => .number id | none => .null),
    ("children", .list (n.children.map .number))]

def ofTree (t : ParseTree) : Json := .record [("nodes", .list (t.nodes.toList.map ofNode))]

def ofGrammarSymbol : GrammarSymbol → Json
  | .terminal text => .record [("Terminal", .text text)]
  | .nonTerminal nt => .record [("NonTerminal", ofNonTerminal nt)]

def ofRule (r : Rule) : Json :=
  .record [
    ("lhs", ofNonTerminal r.lhs),
    ("alternatives", .list (r.alternatives.map fun alt => .list (alt.map ofGrammarSymbol)))]

def ofGrammar (g : Grammar) : Json :=
  .record [
    ("terminals", .list (g.terminals.map .text)),
    ("non_terminals", .list (g.nonTerminals.map ofNonTerminal)),
    ("productions", .list (g.rules.map ofRule)),
    ("start", ofNonTerminal g.start)]

end Report

def Analysis.report (a : Analysis) (input : String) : Json :=
  .record [
    ("input", .text input),
    ("tokens", .list (a.tokens.map fun t => .text t.stored)),
    ("tree", Report.ofTree a.tree),
    ("grammar", Report.ofGrammar a.grammar)]

end Formulary
