import Formulary.Alphabet.Basic
import Formulary.Formula.Error

/-!
Checks on a token list that need no parser: the sentinel does not occur, parentheses are equal in
number, and every predicate symbol is followed by as many arguments as it has places.
-/

namespace Formulary

open Formulary.Symbol

def checkSentinel (tokens : List Symbol) : Except StructureError Unit :=
  match tokens.findIdx? (· = sentinel) with
  | some position => .error (.sentinel position)
  | none => .ok ()

def checkBalance (tokens : List Symbol) : Except StructureError Unit :=
  let opened := tokens.count openParen
  let closed := tokens.count closeParen
  if opened = closed then .ok () else .error (.balance opened closed)

/-- Reads arguments from number `k` on, each followed by a comma, the last by a closing
parenthesis. -/
def checkArguments (arity k : Nat) : List Symbol → Except ArityViolation Unit
  | [] => .error .truncated
  | argument :: rest =>
    if argument = closeParen then .error (.earlyClose k)
    else if argument = comma then .error (.missingArgument k)
    else match rest with
      | [] => .error .truncated
      | separator :: rest =>
        if k < arity then
          if separator = comma then checkArguments arity (k + 1) rest
          else if separator = closeParen then .error (.earlyClose (k + 1))
          else .error (.expectedComma k separator)
        else if separator = closeParen then .ok ()
        else .error (.expectedClose separator)

/-- Checks the tokens that follow a predicate symbol. -/
def checkOccurrence (arity : Nat) : List Symbol → Except ArityViolation Unit
  | [] => .error .truncated
  | t :: rest =>
    if t ≠ openParen then .error .missingOpenParen
    else if arity = 0 then .error .zeroArity
    else checkArguments arity 1 rest

/-- Checks every predicate symbol in tokens of which the first is at `position`. -/
def checkArityFrom (s : Signature) (position : Nat) : List Symbol → Except StructureError Unit
  | [] => .ok ()
  | t :: rest =>
    match s.arity? t with
    | none => checkArityFrom s (position + 1) rest
    | some arity =>
      match checkOccurrence arity rest with
      | .error reason => .error (.arity t arity position reason)
      | .ok () => checkArityFrom s (position + 1) rest

def checkArity (s : Signature) (tokens : List Symbol) : Except StructureError Unit :=
  checkArityFrom s 0 tokens

def checkStructure (s : Signature) (tokens : List Symbol) : Except StructureError Unit := do
  checkSentinel tokens
  checkBalance tokens
  checkArity s tokens

end Formulary
