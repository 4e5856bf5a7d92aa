import Formulary.Grammar.Production
import Formulary.Symbol

/-!
Rooted, ordered trees kept as a table of nodes. A node is known by its index in the table, and
indices are given out in the order in which nodes are attached; the root has index zero.
-/

namespace Formulary

open Text (decimal)

inductive NodeLabel
  | nonTerminal (nt : NonTerminal)
  | terminal (symbol : Symbol)
deriving DecidableEq, Repr

namespace NodeLabel

def shown : NodeLabel → String
  | .nonTerminal nt => nt.letter
  | .terminal symbol => symbol.shown

def isTerminal : NodeLabel → Bool
  | .nonTerminal _ => false
  | .terminal _ => true

def terminal? : NodeLabel → Option Symbol
  | .nonTerminal _ => none
  | .terminal symbol => some symbol

end NodeLabel

structure Node where
  label : NodeLabel
  parent : Option Nat := none
  children : List Nat := []
deriving DecidableEq, Repr

structure ParseTree where
  nodes : Array Node
deriving DecidableEq, Repr

namespace ParseTree

/-- The tree that has only a root. -/
def singleton (root : NonTerminal) : ParseTree := ⟨#[{ label := .nonTerminal root }]⟩

def size (t : ParseTree) : Nat := t.nodes.size

/-- Attaches a new last child to a node; its index is the size of the tree before. -/
def addChild : ParseTree → (parent : Nat) → NodeLabel → ParseTree
  | ⟨nodes⟩, parent, label =>
    let id := nodes.size
    let nodes := nodes.modify parent fun n => { n with children := n.children ++ [id] }
    ⟨nodes.push { label, parent := some parent }⟩

def isBare (t : ParseTree) : Bool := t.size = 1

def label? (t : ParseTree) (id : Nat) : Option NodeLabel := (t.nodes[id]?).map Node.label

def children (t : ParseTree) (id : Nat) : List Nat :=
  match t.nodes[id]? with
  | some n => n.children
  | none => []

def parent? (t : ParseTree) (id : Nat) : Option Nat := (t.nodes[id]?).bind Node.parent

/-- Visits the nodes on a stack and all below them, at most `fuel` in number. -/
def walkFrom (t : ParseTree) : (fuel : Nat) → List (Nat × Nat) → List (Nat × Nat)
  | 0, _ => []
  | _, [] => []
  | fuel + 1, (id, depth) :: stack =>
    (id, depth) :: t.walkFrom fuel ((t.children id).map (·, depth + 1) ++ stack)

/-- The nodes from top to bottom and left to right, each with its distance from the root. -/
def walk (t : ParseTree) : List (Nat × Nat) := t.walkFrom t.size [(0, 0)]

def preorder (t : ParseTree) : List Nat := t.walk.map Prod.fst

/-- Notes the distance of a node from the root, one more than that of its parent, in a table, and
keeps the greatest distance so far. -/
def measureAt (t : ParseTree) : Array Nat × Nat → Nat → Array Nat × Nat
  | (depths, height), id =>
    match t.parent? id with
    | none => (depths, height)
    | some parent =>
      let depth := depths.getD parent 0 + 1
      (depths.setIfInBounds id depth, max height depth)

/-- The greatest distance from the root. A node is visited after its parent, so that the distance of
the parent is in the table by then. -/
def height (t : ParseTree) : Nat :=
  (t.preorder.foldl t.measureAt (Array.replicate t.size 0, 0)).2

/-- The symbols at the leaves, from left to right. -/
def terminals (t : ParseTree) : List Symbol :=
  t.preorder.filterMap fun id => (t.label? id).bind NodeLabel.terminal?

def shownAt (t : ParseTree) (id : Nat) : String := ((t.label? id).map NodeLabel.shown).getD ""

def childLabels (t : ParseTree) (id : Nat) : List String := (t.children id).map t.shownAt

/-- One line for each node, indented by two blanks for each step from the root. -/
def render (t : ParseTree) : String :=
  String.join (t.walk.map fun (id, depth) =>
    String.ofList (List.replicate (2 * depth) ' ') ++ t.shownAt id ++ "\n")

end ParseTree

/-! Trees as Graphviz digraphs: first one line for each node, then one for each edge. -/

namespace Dot

/-- A character as it is written between double quotes. -/
def escapeChar (c : Char) : List Char :=
  if c = '\\' then ['\\', '\\']
  else if c = '"' then ['\\', '"']
  else if c = '\n' then ['\\', 'n']
  else [c]

def escape (text : String) : String := String.ofList (text.toList.flatMap escapeChar)

def nodeName (id : Nat) : String := "n" ++ decimal id

def nodeLine (id : Nat) (label : NodeLabel) : String :=
  let style := if label.isTerminal then ", fontcolor=blue" else ""
  "  " ++ nodeName id ++ " [label=\"" ++ escape label.shown ++ "\"" ++ style ++ "];\n"

def edgeLine (parent child : Nat) : String :=
  "  " ++ nodeName parent ++ " -> " ++ nodeName child ++ ";\n"

end Dot

def ParseTree.toDot (t : ParseTree) : String :=
  let nodeLines := t.preorder.filterMap fun id => (t.label? id).map (Dot.nodeLine id)
  let edgeLines := t.preorder.flatMap fun id => (t.children id).map (Dot.edgeLine id)
  "digraph ParseTree \x7b\n  node [shape=plaintext];\n  edge [arrowhead=none];\n\n" ++
    String.join nodeLines ++ "\n" ++ String.join edgeLines ++ "\x7d\n"

end Formulary
