import Formulary.Alphabet.Basic

/-!
Choosing a rule for a formula from the tokens ahead. Only the two parenthesised forms need more
than one token: the token two places ahead tells an equation from a binary formula.
-/

namespace Formulary

inductive TokenClass
  | openParen
  | closeParen
  | comma
  | equality
  | negation
  | binaryConnective
  | quantifier
  | var
  | constant
  | predicateSymbol
  | finish
deriving DecidableEq, Repr

namespace TokenClass

def all : List TokenClass :=
  [.openParen, .closeParen, .comma, .equality, .negation, .binaryConnective, .quantifier, .var,
   .constant, .predicateSymbol, .finish]

/-- The symbols of a class; `finish` stands for the end of input and has none. -/
def members (s : Signature) : TokenClass → List Symbol
  | .openParen => [.openParen]
  | .closeParen => [.closeParen]
  | .comma => [.comma]
  | .equality => [s.equality]
  | .negation => [s.connectives.neg]
  | .binaryConnective => s.connectives.binary
  | .quantifier => s.quantifiers.toList
  | .var => s.vars
  | .constant => s.constants
  | .predicateSymbol => s.predicateSymbols
  | .finish => []

/-- Tests a token, or the end of input. -/
def admits (s : Signature) (k : TokenClass) : Option Symbol → Bool
  | none => k = .finish
  | some t => t ∈ k.members s

end TokenClass

/-- Asks whether the token `offset` places ahead is in a class, or, if negated, is not. -/
structure Peek where
  offset : Nat
  kind : TokenClass
  negated : Bool := false
deriving DecidableEq, Repr

def Peek.test (s : Signature) (p : Peek) (ahead : List Symbol) : Bool :=
  p.kind.admits s ahead[p.offset]? != p.negated

inductive FormulaRule
  | binary
  | equation
  | quantified
  | negation
  | atom
deriving DecidableEq, Repr

namespace FormulaRule

def all : List FormulaRule := [.binary, .equation, .quantified, .negation, .atom]

/-- The tests that all have to succeed for a rule to apply. -/
def lookahead : FormulaRule → List Peek
  | .binary =>
    [{ offset := 0, kind := .openParen }, { offset := 2, kind := .equality, negated := true }]
  | .equation => [{ offset := 0, kind := .openParen }, { offset := 2, kind := .equality }]
  | .quantified => [{ offset := 0, kind := .quantifier }]
  | .negation => [{ offset := 0, kind := .negation }]
  | .atom => [{ offset := 0, kind := .predicateSymbol }]

/-- How many tokens the tests of a rule reach over. -/
def reach (r : FormulaRule) : Nat := (r.lookahead.map (·.offset + 1)).foldl max 0

def applies (s : Signature) (ahead : List Symbol) (r : FormulaRule) : Bool :=
  r.lookahead.all fun p => p.test s ahead

def select? (s : Signature) (ahead : List Symbol) : Option FormulaRule :=
  all.find? (applies s ahead)

end FormulaRule

end Formulary
