import Formulary.Alphabet.Basic
import Formulary.Grammar.Production

/-!
The grammar that an alphabet induces, with its symbols as they are shown, and its report.
Non-terminals are shown with a trailing star.
-/

namespace Formulary

inductive GrammarSymbol
  | terminal (text : String)
  | nonTerminal (nt : NonTerminal)
deriving DecidableEq, Repr

def NonTerminal.starred (nt : NonTerminal) : String := nt.letter ++ "*"

def GrammarSymbol.shown : GrammarSymbol → String
  | .terminal text => text
  | .nonTerminal nt => nt.starred

structure Rule where
  lhs : NonTerminal
  alternatives : List (List GrammarSymbol)
deriving DecidableEq, Repr

/-- A rule without alternatives, and one whose only alternative is empty, ends with its arrow. -/
def Rule.shown (r : Rule) : String :=
  let rhs := " | ".intercalate (r.alternatives.map fun alt => " ".intercalate (alt.map (·.shown)))
  if rhs = "" then r.lhs.starred ++ " ->" else r.lhs.starred ++ " -> " ++ rhs

structure Grammar where
  terminals : List String
  nonTerminals : List NonTerminal
  rules : List Rule
  start : NonTerminal
deriving DecidableEq, Repr

namespace Signature

def terminalSet (s : Signature) : TerminalSet → List Symbol
  | .binaryConnectives => s.connectives.binary
  | .quantifiers => s.quantifiers.toList
  | .predicateSymbols => s.predicateSymbols
  | .constants => s.constants
  | .vars => s.vars

/-- The grammar symbols that may stand for an element. -/
def choices (s : Signature) : Element → List GrammarSymbol
  | .nt nt => [.nonTerminal nt]
  | .punct symbol => [.terminal symbol.shown]
  | .equality => [.terminal s.equality.shown]
  | .negation => [.terminal s.connectives.neg.shown]
  | .each set => (s.terminalSet set).map fun t => .terminal t.shown

/-- All ways to fill in a template, from left to right. -/
def expand (s : Signature) : List Element → List (List GrammarSymbol)
  | [] => [[]]
  | e :: rest => (s.choices e).flatMap fun c => (s.expand rest).map (c :: ·)

def grammar (s : Signature) : Grammar where
  terminals := (s.symbols ++ Symbol.punctuation).map Symbol.shown
  nonTerminals := NonTerminal.all
  rules := Production.all.map fun p => ⟨p.lhs, p.alternatives.flatMap s.expand⟩
  start := NonTerminal.start

end Signature

namespace Grammar

def rule? (g : Grammar) (lhs : NonTerminal) : Option Rule := g.rules.find? (·.lhs = lhs)

def braced (items : List String) : String := "\x7b" ++ ", ".intercalate items ++ "\x7d"

def lines (g : Grammar) : List String :=
  ["V_t = " ++ braced g.terminals,
   "",
   "V_n = " ++ braced (g.nonTerminals.map (·.starred)),
   "",
   "P = \x7b",
   ""] ++
  g.rules.map Rule.shown ++
  ["",
   "\x7d",
   "",
   "S = " ++ braced [g.start.starred]]

def unlines (lines : List String) : String := String.join (lines.map (· ++ "\n"))

def shown (g : Grammar) : String := unlines g.lines

def preamble : List String :=
  ["A formal grammar is defined as a quadruple (V_t, V_n, P, S), where:",
   "- V_t is a set of terminal symbols",
   "- V_n is a set of non-terminal symbols",
   "- P is set of production rules",
   "- S is the start symbol, which is a non-terminal",
   ""]

/-- The grammar with an explanation, as written for one input. -/
def report (g : Grammar) (input : String) : String :=
  unlines preamble ++
    "The formal grammar for the supplied input file, " ++ input ++
    ", is defined by the sets V_t, V_n, P, and S as follows:\n\n" ++ g.shown

end Grammar

end Formulary
