import Formulary.Symbol

/-!
Alphabets of first-order languages. A `Declaration` lists symbols as they were written, a
`Signature` has the right number of each and numeric arities, and an `Alphabet` is a signature in
which no two symbols are the same and none is punctuation.
-/

namespace Formulary

/-- A predicate symbol with its arity as written. -/
structure PredicateDecl where
  symbol : Symbol
  arity : String
deriving DecidableEq, Repr

structure Declaration where
  vars : List Symbol := []
  constants : List Symbol := []
  predicates : List PredicateDecl := []
  equality : List Symbol := []
  connectives : List Symbol := []
  quantifiers : List Symbol := []
deriving DecidableEq, Repr

/-- The declared symbols of one class, in order. -/
def Declaration.members (d : Declaration) : SymbolClass → List Symbol
  | .var => d.vars
  | .constant => d.constants
  | .predicate => d.predicates.map PredicateDecl.symbol
  | .equality => d.equality
  | .connective => d.connectives
  | .quantifier => d.quantifiers

structure Predicate where
  symbol : Symbol
  arity : Nat
deriving DecidableEq, Repr

structure Connectives where
  conj : Symbol
  disj : Symbol
  implies : Symbol
  iff : Symbol
  neg : Symbol
deriving DecidableEq, Repr

namespace Connectives

def get (c : Connectives) : ConnectiveRole → Symbol
  | .conj => c.conj
  | .disj => c.disj
  | .implies => c.implies
  | .iff => c.iff
  | .neg => c.neg

def toList (c : Connectives) : List Symbol := ConnectiveRole.all.map c.get

def binary (c : Connectives) : List Symbol := ConnectiveRole.binary.map c.get

end Connectives

structure Quantifiers where
  universal : Symbol
  existential : Symbol
deriving DecidableEq, Repr

namespace Quantifiers

def get (q : Quantifiers) : QuantifierRole → Symbol
  | .universal => q.universal
  | .existential => q.existential

def toList (q : Quantifiers) : List Symbol := QuantifierRole.all.map q.get

end Quantifiers

structure Signature where
  vars : List Symbol
  constants : List Symbol
  predicates : List Predicate
  equality : Symbol
  connectives : Connectives
  quantifiers : Quantifiers
deriving DecidableEq, Repr

namespace Signature

def predicateSymbols (s : Signature) : List Symbol := s.predicates.map Predicate.symbol

def members (s : Signature) : SymbolClass → List Symbol
  | .var => s.vars
  | .constant => s.constants
  | .predicate => s.predicateSymbols
  | .equality => [s.equality]
  | .connective => s.connectives.toList
  | .quantifier => s.quantifiers.toList

/-- Every declared symbol, class by class. -/
def symbols (s : Signature) : List Symbol :=
  s.vars ++ s.constants ++ s.predicateSymbols ++ s.connectives.toList ++
    s.quantifiers.toList ++ [s.equality]

def arity? (s : Signature) (t : Symbol) : Option Nat :=
  (s.predicates.find? (·.symbol = t)).map Predicate.arity

def classOf? (s : Signature) (t : Symbol) : Option SymbolClass :=
  SymbolClass.all.find? fun k => t ∈ s.members k

end Signature

structure Alphabet extends Signature where
  distinct : toSignature.symbols.Nodup
  unreserved : ∀ t ∈ toSignature.symbols, t ∉ Symbol.punctuation

end Formulary
