import Formulary.Symbol

/-!
The nine categories of the grammar of formulas, and their productions as templates that every
alphabet fills in.
-/

namespace Formulary

inductive NonTerminal
  | formula
  | predicate
  | predicateSymbol
  | term
  | var
  | connective
  | constant
  | quantifier
  | varList
deriving DecidableEq, Repr

namespace NonTerminal

def all : List NonTerminal :=
  [.formula, .predicate, .predicateSymbol, .term, .var, .connective, .constant, .quantifier,
   .varList]

def start : NonTerminal := .formula

def letter : NonTerminal → String
  | .formula => "F"
  | .predicate => "P"
  | .predicateSymbol => "Z"
  | .term => "T"
  | .var => "V"
  | .connective => "C"
  | .constant => "K"
  | .quantifier => "Q"
  | .varList => "J"

theorem letter_injective {nt nt' : NonTerminal} (h : nt.letter = nt'.letter) : nt = nt' := by
  cases nt <;> cases nt' <;> first | rfl | exact absurd h (by decide)

def describe : NonTerminal → String
  | .formula => "formula"
  | .predicate => "predicate"
  | .predicateSymbol => "predicate symbol"
  | .term => "term"
  | .var => "variable"
  | .connective => "connective"
  | .constant => "constant"
  | .quantifier => "quantifier"
  | .varList => "variable list"

end NonTerminal

/-- The declared symbols that a template stands for one by one. -/
inductive TerminalSet
  | binaryConnectives
  | quantifiers
  | predicateSymbols
  | constants
  | vars
deriving DecidableEq, Repr

inductive Element
  | nt (nt : NonTerminal)
  | punct (symbol : Symbol)
  | equality
  | negation
  | each (set : TerminalSet)
deriving DecidableEq, Repr

structure Production where
  lhs : NonTerminal
  alternatives : List (List Element)
deriving DecidableEq, Repr

namespace Production

def formula : Production where
  lhs := .formula
  alternatives := [
    [.punct .openParen, .nt .formula, .nt .connective, .nt .formula, .punct .closeParen],
    [.nt .quantifier, .nt .var, .nt .formula],
    [.negation, .nt .formula],
    [.punct .openParen, .nt .term, .equality, .nt .term, .punct .closeParen],
    [.nt .predicate]]

def term : Production := ⟨.term, [[.nt .var], [.nt .constant]]⟩

def connective : Production := ⟨.connective, [[.each .binaryConnectives]]⟩

def quantifier : Production := ⟨.quantifier, [[.each .quantifiers]]⟩

def predicate : Production :=
  ⟨.predicate, [[.nt .predicateSymbol, .punct .openParen, .nt .varList, .punct .closeParen]]⟩

def varList : Production := ⟨.varList, [[.nt .var], [.nt .var, .punct .comma, .nt .varList]]⟩

def predicateSymbol : Production := ⟨.predicateSymbol, [[.each .predicateSymbols]]⟩

def constant : Production := ⟨.constant, [[.each .constants]]⟩

def var : Production := ⟨.var, [[.each .vars]]⟩

/-- The productions in the order in which they are written out. -/
def all : List Production :=
  [formula, term, connective, quantifier, predicate, varList, predicateSymbol, constant, var]

end Production

end Formulary
