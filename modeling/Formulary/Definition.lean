import Formulary.Alphabet.Basic
import Formulary.Formula.Token

/-!
Definitions: what a text declares about an alphabet, and the formula it states. Reading never
fails; whatever is wrong with a declaration is left for validation.
-/

namespace Formulary

/-! Lines of a definition. A line that begins, after blanks, with one of seven labels opens the
section of that label; every other line continues the section it stands in. -/

inductive Section
  | vars
  | constants
  | predicates
  | equality
  | connectives
  | quantifiers
  | formula
deriving DecidableEq, Repr

namespace Section

def all : List Section :=
  [.vars, .constants, .predicates, .equality, .connectives, .quantifiers, .formula]

def label : Section → String
  | .vars => "variables:"
  | .constants => "constants:"
  | .predicates => "predicates:"
  | .equality => "equality:"
  | .connectives => "connectives:"
  | .quantifiers => "quantifiers:"
  | .formula => "formula:"

/-- What follows the label of a section at the start of a text. -/
def strip? (s : Section) (cs : List Char) : Option (List Char) :=
  if s.label.toList.isPrefixOf cs then some (cs.drop s.label.length) else none

end Section

inductive Line
  | header (owner : Section) (rest : List Char)
  | continuation (content : List Char)
deriving DecidableEq, Repr

namespace Line

def classify (cs : List Char) : Line :=
  match Section.all.findSome? fun s => (s.strip? (Text.trimLeft cs)).map (s, ·) with
  | some (owner, rest) => .header owner rest
  | none => .continuation cs

/-- What a line adds to its section. -/
def content : Line → List Char
  | .header _ rest => rest
  | .continuation content => content

/-- The section open after a line, given the one open before it. -/
def owner (current : Option Section) : Line → Option Section
  | .header owner _ => some owner
  | .continuation _ => current

end Line

/-- A line's content, with the section it belongs to if one is open. -/
structure Placed where
  owner : Option Section
  content : List Char
deriving DecidableEq, Repr

def place (current : Option Section) : List (List Char) → List Placed
  | [] => []
  | cs :: rest =>
    let line := Line.classify cs
    ⟨line.owner current, line.content⟩ :: place (line.owner current) rest

/-! What sections say, and definitions as a whole. -/

structure Definition where
  declaration : Declaration
  formula : List Symbol
deriving DecidableEq, Repr

/-- Splits at the first occurrence of a character, which is dropped. -/
def cut? (c : Char) (cs : List Char) : Option (List Char × List Char) :=
  match cs.dropWhile (· ≠ c) with
  | [] => none
  | _ :: rest => some (cs.takeWhile (· ≠ c), rest)

/-- Reads `symbol[arity]`. What follows the closing bracket belongs to the symbol, a missing
closing bracket is no fault, and without an opening one the arity is empty. -/
def PredicateDecl.ofWord (w : List Char) : PredicateDecl :=
  match cut? '[' w with
  | none => ⟨.ofText (String.ofList w), ""⟩
  | some (head, tail) =>
    match cut? ']' tail with
    | none => ⟨.ofText (String.ofList head), String.ofList tail⟩
    | some (arity, rest) => ⟨.ofText (String.ofList (head ++ rest)), String.ofList arity⟩

namespace Definition

def symbolsOf (content : List Char) : List Symbol :=
  (Text.words content).map fun w => .ofText (String.ofList w)

def predicatesOf (content : List Char) : List PredicateDecl :=
  (Text.words content).map .ofWord

def formulaOf (content : List Char) : List Symbol :=
  (tokenize (String.ofList content)).map .ofText

/-- Everything that the lines of one section say, in order. -/
def gather {α : Type} (read : List Char → List α) (s : Section) (lines : List Placed) : List α :=
  lines.flatMap fun l => if l.owner = some s then read l.content else []

def ofPlaced (lines : List Placed) : Definition where
  declaration := {
    vars := gather symbolsOf .vars lines
    constants := gather symbolsOf .constants lines
    predicates := gather predicatesOf .predicates lines
    equality := gather symbolsOf .equality lines
    connectives := gather symbolsOf .connectives lines
    quantifiers := gather symbolsOf .quantifiers lines
  }
  formula := gather formulaOf .formula lines

def placed (lines : List String) : List Placed := place none (lines.map String.toList)

def ofLines (lines : List String) : Definition := ofPlaced (placed lines)

def ofText (text : String) : Definition := ofLines (Text.linesOf text)

/-- The numbers of the lines, counted from one, whose content is lost because no section is open. -/
def strayLines (lines : List String) : List Nat :=
  (placed lines).zipIdx.filterMap fun (l, i) =>
    if l.owner = none ∧ Text.trim l.content ≠ [] then some (i + 1) else none

end Definition

end Formulary
