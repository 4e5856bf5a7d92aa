import Formulary.Formula.Error
import Formulary.Formula.Lookahead
import Formulary.Tree

/-!
Parsing by recursive descent. The parser keeps a record of its moves, also of those before a
failure, and the parse tree is what the moves of a successful run draw.
-/

namespace Formulary

inductive Move
  /-- A formula is begun, by the rule that the tokens ahead call for, if any. -/
  | select (rule : Option FormulaRule) (position depth : Nat)
  | enter (nt : NonTerminal)
  | shift (token : Symbol)
  | leave
deriving DecidableEq, Repr

/-- A tree under construction, with the nodes from the innermost open one to the root. -/
structure Sketch where
  tree : ParseTree := .singleton .start
  opened : List Nat := [0]

def Sketch.draw : Sketch → Move → Sketch
  | s, .select .. => s
  | ⟨tree, opened⟩, .enter nt =>
    let id := tree.size
    ⟨tree.addChild (opened.headD 0) (.nonTerminal nt), id :: opened⟩
  | ⟨tree, opened⟩, .shift token => ⟨tree.addChild (opened.headD 0) (.terminal token), opened⟩
  | ⟨tree, opened⟩, .leave => ⟨tree, opened.tail⟩

def ParseTree.ofMoves (moves : List Move) : ParseTree := (moves.foldl Sketch.draw {}).tree

/-- The tokens still to be read, the number of those already read, and the moves so far with the
latest first. -/
structure Scan where
  rest : List Symbol
  position : Nat := 0
  moves : List Move := []
deriving DecidableEq, Repr

abbrev Parser := EStateM ParseError Scan

namespace Parser

def note (m : Move) : Parser Unit := modify fun s => { s with moves := m :: s.moves }

/-- Reads one token, if there is one. -/
def shift : Parser Unit :=
  modify fun s =>
    match s.rest with
    | [] => s
    | t :: rest => ⟨rest, s.position + 1, .shift t :: s.moves⟩

def fail (nt : NonTerminal) (expected : String) : Parser Unit := do
  let s ← get
  match s.rest with
  | [] => throw (.unexpectedEnd nt expected)
  | found :: _ => throw (.expected nt expected found s.position)

/-- Whether the next token exists and satisfies a test. -/
def sees (test : Symbol → Bool) : Parser Bool := do return (← get).rest.head?.any test

def expect (nt : NonTerminal) (expected : String) (test : Symbol → Bool) : Parser Unit := do
  if ← sees test then shift else fail nt expected

def literal (nt : NonTerminal) (t : Symbol) : Parser Unit := expect nt t.quoted (· = t)

/-- Runs a parser below a new node. -/
def within (nt : NonTerminal) (p : Parser Unit) : Parser Unit := do
  note (.enter nt)
  p
  note .leave

/-- Reads `C → AND | OR | IMPLIES | IFF`. -/
def connective (a : Alphabet) : Parser Unit :=
  within .connective <|
    expect .connective "a connective" (· ∈ a.connectives.binary)

/-- Reads `Q → UNIVERSAL | EXISTENTIAL`. -/
def quantifier (a : Alphabet) : Parser Unit :=
  within .quantifier <|
    expect .quantifier "a quantifier" (· ∈ a.quantifiers.toList)

def var (a : Alphabet) : Parser Unit :=
  within .var <|
    expect .var "a variable" (· ∈ a.vars)

def constant (a : Alphabet) : Parser Unit :=
  within .constant <|
    expect .constant "a constant" (· ∈ a.constants)

def predicateSymbol (a : Alphabet) : Parser Unit :=
  within .predicateSymbol <|
    expect .predicateSymbol "a predicate symbol" (· ∈ a.predicateSymbols)

/-- Reads `T → V | K`. -/
def term (a : Alphabet) : Parser Unit :=
  within .term do
    if ← sees (· ∈ a.vars) then var a
    else if ← sees (· ∈ a.constants) then constant a
    else fail .term "a variable or constant"

/-- Reads `J → V | V , J`, with at most `commas` commas. -/
def varList (a : Alphabet) : (commas : Nat) → Parser Unit
  | 0 => within .varList (var a)
  | commas + 1 =>
    within .varList do
      var a
      if ← sees (· = .comma) then
        shift
        varList a commas

/-- Reads `P → Z ( J )`; no more commas than tokens can follow. -/
def predicate (a : Alphabet) : Parser Unit :=
  within .predicate do
    predicateSymbol a
    literal .predicate .openParen
    varList a (← get).rest.length
    literal .predicate .closeParen

/-- Reads `F → ( F C F ) | ( T = T ) | Q V F | NOT F | P`, below `depth` other formulas and with
room for `budget` nested ones. -/
def formula (a : Alphabet) : (budget depth : Nat) → Parser Unit
  | 0, depth => do throw (.tooDeep depth (← get).position)
  | budget + 1, depth => do
    let s ← get
    let rule := FormulaRule.select? a.toSignature s.rest
    note (.select rule s.position (depth + 1))
    match rule with
    | some .binary =>
      shift
      within .formula (formula a budget (depth + 1))
      connective a
      within .formula (formula a budget (depth + 1))
      literal .formula .closeParen
    | some .equation =>
      shift
      term a
      literal .formula a.equality
      term a
      literal .formula .closeParen
    | some .quantified =>
      quantifier a
      var a
      within .formula (formula a budget (depth + 1))
    | some .negation =>
      shift
      within .formula (formula a budget (depth + 1))
    | some .atom => predicate a
    | none =>
      fail .formula
        ("'(', a quantifier, " ++ a.connectives.neg.quoted ++ " or a predicate symbol")

/-- Succeeds at the end of the input. -/
def finish : Parser Unit := do
  let s ← get
  match s.rest with
  | [] => return
  | found :: _ => throw (.trailingInput found s.position)

theorem within_apply (nt : NonTerminal) (p : Parser Unit) (s : Scan) :
    within nt p s =
      match p { s with moves := .enter nt :: s.moves } with
      | .ok _ s => .ok () { s with moves := .leave :: s.moves }
      | .error e s => .error e s := by
  change EStateM.bind p (fun _ => note .leave) { s with moves := .enter nt :: s.moves } = _
  cases h : p { s with moves := .enter nt :: s.moves } with
  | ok _ _ =>
    simp only [EStateM.bind, h]
    rfl
  | error _ _ => simp only [EStateM.bind, h]

theorem expect_apply (nt : NonTerminal) (wanted : String) (test : Symbol → Bool) (s : Scan) :
    expect nt wanted test s =
      match s.rest with
      | [] => .error (.unexpectedEnd nt wanted) s
      | t :: rest =>
        if test t then .ok () ⟨rest, s.position + 1, .shift t :: s.moves⟩
        else .error (.expected nt wanted t s.position) s := by
  obtain ⟨rest, position, moves⟩ := s
  cases rest with
  | nil => rfl
  | cons t rest =>
    change (if test t then shift else fail nt wanted) ⟨t :: rest, position, moves⟩ = _
    cases h : test t
    · simp [h]
      rfl
    · simp [h]
      rfl

end Parser

/-- The nesting allowed where nothing else is asked for. -/
def defaultLimit : Nat := 256

/-- What the parser did, in order, and what came of it. -/
structure Attempt where
  moves : List Move
  result : Except ParseError ParseTree

def attempt (a : Alphabet) (limit : Nat) (tokens : List Symbol) : Attempt :=
  let run : Parser Unit := do
    if tokens.isEmpty then throw .empty
    Parser.formula a limit 0
    Parser.finish
  match run { rest := tokens } with
  | .error e s => ⟨s.moves.reverse, .error e⟩
  | .ok _ s =>
    let tree := ParseTree.ofMoves s.moves.reverse
    ⟨s.moves.reverse, if tree.isBare then .error .empty else .ok tree⟩

/-- The parse tree of some tokens, in which formulas nest at most `limit` deep. -/
def parse (a : Alphabet) (limit : Nat) (tokens : List Symbol) : Except ParseError ParseTree :=
  (attempt a limit tokens).result

end Formulary
