import Formulary.Grammar.Production
import Formulary.Symbol
import Formulary.Text

/-!
Reasons for which tokens are not a formula, with the wording of each. Positions count tokens from
zero and arguments from one.
-/

namespace Formulary

open Text (decimal)

/-- What is wrong with the argument list of a predicate symbol. -/
inductive ArityViolation
  | missingOpenParen
  | zeroArity
  | truncated
  | earlyClose (argument : Nat)
  | missingArgument (argument : Nat)
  | expectedComma (argument : Nat) (found : Symbol)
  | expectedClose (found : Symbol)
deriving DecidableEq, Repr

def ArityViolation.message : ArityViolation → String
  | .missingOpenParen => "predicate symbol must be directly followed by '('"
  | .zeroArity => "zero-arity predicates cannot take an argument list"
  | .truncated => "argument list runs past the end of the formula"
  | .earlyClose argument => "')' arrived before argument " ++ decimal argument
  | .missingArgument argument =>
    "argument " ++ decimal argument ++ " is missing; commas must alternate with arguments"
  | .expectedComma argument found =>
    "expected ',' after argument " ++ decimal argument ++ " but found " ++ found.quoted
  | .expectedClose found => "expected ')' after the last argument but found " ++ found.quoted

/-- What is wrong with a token list before it is parsed. -/
inductive StructureError
  | balance (opened closed : Nat)
  | arity (predicate : Symbol) (places position : Nat) (reason : ArityViolation)
  | sentinel (position : Nat)
deriving DecidableEq, Repr

def StructureError.message : StructureError → String
  | .balance opened closed =>
    "opening and closing parentheses do not match (" ++ decimal opened ++ " '(' vs " ++
      decimal closed ++ " ')')"
  | .arity predicate places position reason =>
    "predicate " ++ predicate.quoted ++ " (arity " ++ decimal places ++ ") at token " ++
      decimal position ++ ": " ++ reason.message
  | .sentinel position =>
    "'$' at token " ++ decimal position ++ " is a forbidden input symbol; it denotes end of input"

inductive ParseError
  | expected (nt : NonTerminal) (wanted : String) (found : Symbol) (position : Nat)
  | unexpectedEnd (nt : NonTerminal) (wanted : String)
  | trailingInput (found : Symbol) (position : Nat)
  | tooDeep (limit position : Nat)
  | empty
deriving DecidableEq, Repr

def ParseError.message : ParseError → String
  | .expected nt wanted found position =>
    nt.letter ++ ": expected " ++ wanted ++ " but found " ++ found.quoted ++ " at token " ++
      decimal position
  | .unexpectedEnd nt wanted =>
    nt.letter ++ ": expected " ++ wanted ++ " but reached end of input"
  | .trailingInput found position =>
    "expected end of input but found " ++ found.quoted ++ " at token " ++ decimal position
  | .tooDeep limit position =>
    "formula nesting exceeds the limit of " ++ decimal limit ++ " at token " ++ decimal position
  | .empty => "nothing was parsed; the formula is empty"

end Formulary
