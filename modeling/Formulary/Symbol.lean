import Formulary.Text

/-!
Symbols of a formal language. A symbol is kept with every backslash doubled, and shown with each
pair collapsed. Declared symbols are of six classes; connectives and quantifiers have roles, which
are given by their order of declaration.
-/

namespace Formulary

structure Symbol where
  stored : String
deriving DecidableEq, Repr, Inhabited

namespace Symbol

/-- The symbol that is shown as `text`. -/
def ofText (text : String) : Symbol := ⟨String.ofList (Text.escape text.toList)⟩

def shown (s : Symbol) : String := String.ofList (Text.unescape s.stored.toList)

theorem shown_ofText (text : String) : (ofText text).shown = text := by
  simp [ofText, shown, Text.unescape_escape]

def openParen : Symbol := ⟨"("⟩
def closeParen : Symbol := ⟨")"⟩
def comma : Symbol := ⟨","⟩

/-- The symbols that give a formula its shape; no alphabet declares one of them. -/
def punctuation : List Symbol := [openParen, closeParen, comma]

/-- Stands for the end of a formula, so it cannot occur inside one. -/
def sentinel : Symbol := ⟨"$"⟩

def quoted (s : Symbol) : String := "'" ++ s.shown ++ "'"

end Symbol

inductive SymbolClass
  | var
  | constant
  | predicate
  | equality
  | connective
  | quantifier
deriving DecidableEq, Repr

namespace SymbolClass

def all : List SymbolClass := [.var, .constant, .predicate, .equality, .connective, .quantifier]

def singular : SymbolClass → String
  | .var => "variable"
  | .constant => "constant"
  | .predicate => "predicate symbol"
  | .equality => "equality symbol"
  | .connective => "connective"
  | .quantifier => "quantifier"

def plural : SymbolClass → String
  | .var => "variables"
  | .constant => "constants"
  | .predicate => "predicate symbols"
  | .equality => "equality"
  | .connective => "connectives"
  | .quantifier => "quantifiers"

/-- The noun that agrees with a count. -/
def describe (k : SymbolClass) (count : Nat) : String :=
  if count = 1 then k.singular else k.plural

end SymbolClass

inductive ConnectiveRole
  | conj
  | disj
  | implies
  | iff
  | neg
deriving DecidableEq, Repr

def ConnectiveRole.all : List ConnectiveRole := [.conj, .disj, .implies, .iff, .neg]

/-- The roles that join two formulas. -/
def ConnectiveRole.binary : List ConnectiveRole := [.conj, .disj, .implies, .iff]

inductive QuantifierRole
  | universal
  | existential
deriving DecidableEq, Repr

def QuantifierRole.all : List QuantifierRole := [.universal, .existential]

end Formulary
