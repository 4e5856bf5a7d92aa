import Formulary.Proofs.Derivation.Readability
import Formulary.Proofs.Parser.Steps

/-!
Completeness of the parser. Over an alphabet it reads every formula that nests no deeper than its
budget, whatever follows the formula, and leaves the moves that the formula prescribes.
-/

namespace Formulary

namespace SyntaxTree

mutual

/-- The moves that read a tree from left to right. -/
def moves : SyntaxTree → List Move
  | leaf token => [.shift token]
  | node nt cs => .enter nt :: (movesOf cs ++ [.leave])

def movesOf : List SyntaxTree → List Move
  | [] => []
  | c :: cs => moves c ++ movesOf cs

end

theorem movesOf_eq (cs : List SyntaxTree) : movesOf cs = cs.flatMap moves := by
  induction cs with
  | nil => rfl
  | cons c cs ih => rw [movesOf, ih, List.flatMap_cons]

@[simp] theorem moves_leaf (token : Symbol) : (leaf token).moves = [.shift token] := by
  rw [moves]

@[simp] theorem moves_node (nt : NonTerminal) (cs : List SyntaxTree) :
    (node nt cs).moves = .enter nt :: (cs.flatMap moves ++ [.leave]) := by
  rw [moves, movesOf_eq]

end SyntaxTree

variable {s : Signature} {a : Alphabet}

/-- The moves that read a formula below `depth` others, its first token being at `position`. -/
def Formula.moves (depth position : Nat) : Formula s → List Move
  | binary left c right =>
    .select (some .binary) position (depth + 1) :: .shift .openParen ::
      (.enter .formula :: (left.moves (depth + 1) (position + 1) ++ [.leave]) ++
        (NonTerminal.connective.over c).moves ++
        .enter .formula ::
          (right.moves (depth + 1) (position + 1 + left.yield.length + 1) ++ [.leave]) ++
        [.shift .closeParen])
  | equation left right =>
    .select (some .equation) position (depth + 1) :: .shift .openParen ::
      (left.tree.moves ++ .shift s.equality :: (right.tree.moves ++ [.shift .closeParen]))
  | quantified q v body =>
    .select (some .quantified) position (depth + 1) ::
      ((NonTerminal.quantifier.over q).moves ++ (NonTerminal.var.over v).moves ++
        .enter .formula :: (body.moves (depth + 1) (position + 2) ++ [.leave]))
  | negation body =>
    .select (some .negation) position (depth + 1) :: .shift s.connectives.neg ::
      .enter .formula :: (body.moves (depth + 1) (position + 1) ++ [.leave])
  | atom z args => .select (some .atom) position (depth + 1) :: (args.atomTree z).moves

namespace Parser

/-- Whether a parser, when `rest` is what follows some tokens, reads just these, with moves that
depend on where it starts. -/
def Reads (rest : List Symbol) (p : Parser Unit) (tokens : List Symbol)
    (moves : Nat → List Move) : Prop :=
  ∀ position before, p ⟨tokens ++ rest, position, before⟩ =
    .ok () ⟨rest, position + tokens.length, (moves position).reverse ++ before⟩

variable {rest tokens tokens' : List Symbol} {moves moves' : Nat → List Move}

theorem Reads.bind {p q : Parser Unit} (hp : Reads (tokens' ++ rest) p tokens moves)
    (hq : Reads rest q tokens' moves') :
    Reads rest (do p; q) (tokens ++ tokens') fun i => moves i ++ moves' (i + tokens.length) := by
  intro position before
  rw [bind_apply, List.append_assoc, hp]
  simp only
  rw [hq]
  simp [Nat.add_assoc]

theorem Reads.within {p : Parser Unit} (h : Reads rest p tokens moves) (nt : NonTerminal) :
    Reads rest (within nt p) tokens fun i => .enter nt :: (moves i ++ [.leave]) := by
  intro position before
  rw [within_apply, h]
  simp

theorem Reads.of_sees {test : Symbol → Bool} {p q : Parser Unit}
    (h : Reads rest (if (tokens ++ rest).head?.any test then p else q) tokens moves) :
    Reads rest (do if ← sees test then p else q) tokens moves := by
  intro position before
  rw [bind_sees]
  exact h position before

theorem reads_pure : Reads rest (pure ()) [] fun _ => [] := by
  intro position before
  rfl

theorem reads_shift (t : Symbol) : Reads rest shift [t] fun _ => [.shift t] := by
  intro position before
  rfl

theorem reads_expect {test : Symbol → Bool} {t : Symbol} (h : test t = true) (nt : NonTerminal)
    (wanted : String) : Reads rest (expect nt wanted test) [t] fun _ => [.shift t] := by
  intro position before
  simp [expect_apply, h]

theorem reads_literal (nt : NonTerminal) (t : Symbol) :
    Reads rest (literal nt t) [t] fun _ => [.shift t] :=
  reads_expect (by simp) nt _

theorem reads_member {k : TokenClass} (m : a.Member k) (nt : NonTerminal) (wanted : String) :
    Reads rest (within nt (expect nt wanted fun t => t ∈ k.members a.toSignature)) [m.1]
      fun _ => (nt.over m).moves := by
  simpa [NonTerminal.over] using (reads_expect (decide_eq_true m.2) nt wanted).within nt

theorem reads_connective (c : a.Member .binaryConnective) :
    Reads rest (connective a) [c.1] fun _ => (NonTerminal.connective.over c).moves :=
  reads_member c .connective "a connective"

theorem reads_quantifier (q : a.Member .quantifier) :
    Reads rest (quantifier a) [q.1] fun _ => (NonTerminal.quantifier.over q).moves :=
  reads_member q .quantifier "a quantifier"

theorem reads_var (v : a.Member .var) :
    Reads rest (var a) [v.1] fun _ => (NonTerminal.var.over v).moves :=
  reads_member v .var "a variable"

theorem reads_constant (k : a.Member .constant) :
    Reads rest (constant a) [k.1] fun _ => (NonTerminal.constant.over k).moves :=
  reads_member k .constant "a constant"

theorem reads_predicateSymbol (z : a.Member .predicateSymbol) :
    Reads rest (predicateSymbol a) [z.1] fun _ => (NonTerminal.predicateSymbol.over z).moves :=
  reads_member z .predicateSymbol "a predicate symbol"

theorem reads_term (τ : Term a.toSignature) :
    Reads rest (term a) [τ.token] fun _ => τ.tree.moves := by
  cases τ with
  | var v =>
    have hv : v.1 ∈ a.vars := v.2
    have h : Reads rest (term a) [v.1] _ :=
      (Reads.of_sees (by simpa [hv] using reads_var v)).within .term
    simpa [Term.tree, Term.token] using h
  | constant k =>
    have hk : k.1 ∈ a.constants := k.2
    have hv : k.1 ∉ a.vars := fun hv =>
      absurd (a.tokenClass_unique (k := .var) hv k.2) (by decide)
    have h : Reads rest (term a) [k.1] _ :=
      (Reads.of_sees (by
        simpa [hv] using Reads.of_sees (by simpa [hk] using reads_constant k))).within .term
    simpa [Term.tree, Term.token] using h

/-- Variables are read up to the closing parenthesis, if there are no more of them than allowed. -/
theorem reads_varList (args : VarList a.toSignature) {commas : Nat}
    (h : args.length ≤ commas + 1) :
    Reads (.closeParen :: rest) (varList a commas) args.yield fun _ => args.tree.moves := by
  induction args generalizing commas with
  | last v =>
    cases commas with
    | zero => simpa [varList, VarList.tree, VarList.yield] using (reads_var v).within .varList
    | succ commas =>
      have hend : Reads (.closeParen :: rest) (do
          if ← sees (· = .comma) then
            shift
            varList a commas) [] fun _ => [] :=
        Reads.of_sees (by simpa [Symbol.closeParen, Symbol.comma] using reads_pure)
      simpa [varList, VarList.tree, VarList.yield] using ((reads_var v).bind hend).within .varList
  | more v more ih =>
    cases commas with
    | zero =>
      have hpos := more.length_pos
      simp only [VarList.length] at h
      omega
    | succ commas =>
      have hmore : Reads (.closeParen :: rest) (varList a commas) more.yield _ :=
        ih (by simp only [VarList.length] at h; omega)
      have hnext : Reads (.closeParen :: rest) (do
          if ← sees (· = .comma) then
            shift
            varList a commas) (.comma :: more.yield) fun _ => .shift .comma :: more.tree.moves :=
        Reads.of_sees (by simpa using (reads_shift .comma).bind hmore)
      simpa [varList, VarList.tree, VarList.yield] using ((reads_var v).bind hnext).within .varList

theorem reads_predicate (z : a.Member .predicateSymbol) (args : VarList a.toSignature) :
    Reads rest (predicate a) (z.1 :: .openParen :: (args.yield ++ [.closeParen]))
      fun _ => (args.atomTree z).moves := by
  have hargs : Reads rest (do
      varList a (← get).rest.length
      literal .predicate .closeParen) (args.yield ++ [.closeParen])
      fun _ => args.tree.moves ++ [.shift .closeParen] := by
    intro position before
    have hlength : args.length ≤ (args.yield ++ [Symbol.closeParen] ++ rest).length + 1 := by
      have := args.length_le
      simp only [List.length_append]
      omega
    exact (reads_varList args hlength).bind (reads_literal _ _) position before
  simpa [predicate, VarList.atomTree] using
    ((reads_predicateSymbol z).bind ((reads_literal _ _).bind hargs)).within .predicate

theorem Reads.of_select {r : FormulaRule} {budget depth : Nat}
    (hr : FormulaRule.select? a.toSignature (tokens ++ rest) = some r)
    (h : Reads rest (byRule a (formula a budget (depth + 1)) r) tokens moves) :
    Reads rest (formula a (budget + 1) depth) tokens
      fun i => .select (some r) i (depth + 1) :: moves i := by
  intro position before
  rw [formula_of_some hr, Scan.noted, h]
  simp

/-- By its rule a formula is read if the formulas inside it are. -/
theorem reads_byRule (φ : Formula a.toSignature) {inner : Parser Unit} {depth : Nat}
    (h : ∀ ψ ∈ φ.parts, ∀ rest, Reads rest inner ψ.yield fun i => ψ.moves (depth + 1) i) :
    Reads rest (byRule a inner φ.rule) φ.yield fun i => (φ.moves depth i).tail := by
  cases φ with
  | binary left c right =>
    have hleft := (h left (by simp [Formula.parts])
      ([c.1] ++ (right.yield ++ [.closeParen]) ++ rest)).within .formula
    have hright := (h right (by simp [Formula.parts]) ([.closeParen] ++ rest)).within .formula
    have hafter := (reads_connective c).bind (hright.bind (reads_literal .formula .closeParen))
    have hread := (reads_shift .openParen).bind (hleft.bind hafter)
    simpa [byRule, Formula.rule, Formula.yield, Formula.moves, Nat.add_assoc] using hread
  | equation left right =>
    have hclose : Reads rest (literal .formula .closeParen) _ _ := reads_literal _ _
    have hread := (reads_shift .openParen).bind ((reads_term left).bind
      ((reads_literal .formula a.equality).bind ((reads_term right).bind hclose)))
    simpa [byRule, Formula.rule, Formula.yield, Formula.moves] using hread
  | quantified q v body =>
    have hbody := (h body (by simp [Formula.parts]) rest).within .formula
    have hread := (reads_quantifier q).bind ((reads_var v).bind hbody)
    simpa [byRule, Formula.rule, Formula.yield, Formula.moves, Nat.add_assoc] using hread
  | negation body =>
    have hbody := (h body (by simp [Formula.parts]) rest).within .formula
    have hread := (reads_shift a.connectives.neg).bind hbody
    simpa [byRule, Formula.rule, Formula.yield, Formula.moves] using hread
  | atom z args =>
    simpa [byRule, Formula.rule, Formula.yield, Formula.moves] using reads_predicate z args

/-- The parser reads a formula that nests no deeper than its budget. -/
theorem reads_formula (φ : Formula a.toSignature) {budget depth : Nat}
    (h : φ.nesting ≤ budget) :
    Reads rest (formula a budget depth) φ.yield fun i => φ.moves depth i := by
  induction budget generalizing φ rest depth with
  | zero =>
    have := φ.nesting_pos
    omega
  | succ budget ih =>
    have hinner : ∀ ψ ∈ φ.parts, ∀ rest,
        Reads rest (formula a budget (depth + 1)) ψ.yield fun i => ψ.moves (depth + 1) i := by
      intro ψ hψ rest
      have := Formula.nesting_lt_of_mem_parts hψ
      exact ih ψ (by omega)
    have hread := Reads.of_select (φ.select?_yield rest) (reads_byRule φ hinner)
    cases φ <;> exact hread

end Parser

end Formulary
