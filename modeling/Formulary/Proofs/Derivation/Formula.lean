import Formulary.Formula.Lookahead
import Formulary.Proofs.Derivation.Tree

/-!
Formulas over a signature, built from members of its classes, so that none is ill-formed. Their
trees are the derivation trees of formulas, and no others.
-/

namespace Formulary

/-- The tokens of a class. -/
abbrev Signature.Member (s : Signature) (k : TokenClass) := {t : Symbol // t ∈ k.members s}

inductive Term (s : Signature)
  | var (v : s.Member .var)
  | constant (k : s.Member .constant)

/-- Lists of at least one variable. -/
inductive VarList (s : Signature)
  | last (v : s.Member .var)
  | more (v : s.Member .var) (rest : VarList s)

inductive Formula (s : Signature)
  | binary (left : Formula s) (connective : s.Member .binaryConnective) (right : Formula s)
  | equation (left right : Term s)
  | quantified (quantifier : s.Member .quantifier) (var : s.Member .var) (body : Formula s)
  | negation (body : Formula s)
  | atom (predicate : s.Member .predicateSymbol) (args : VarList s)

/-- The tree of a category over one token. -/
def NonTerminal.over (nt : NonTerminal) (t : Symbol) : SyntaxTree := .node nt [.leaf t]

@[simp] theorem NonTerminal.label_over (nt : NonTerminal) (t : Symbol) :
    (nt.over t).label = .nonTerminal nt := rfl

@[simp] theorem NonTerminal.yield_over (nt : NonTerminal) (t : Symbol) :
    (nt.over t).yield = [t] := rfl

variable {s : Signature}

namespace Term

def token : Term s → Symbol
  | var v => v
  | constant k => k

def tree : Term s → SyntaxTree
  | var v => .node .term [NonTerminal.var.over v]
  | constant k => .node .term [NonTerminal.constant.over k]

@[simp] theorem label_tree (τ : Term s) : τ.tree.label = .nonTerminal .term := by
  cases τ <;> rfl

@[simp] theorem yield_tree (τ : Term s) : τ.tree.yield = [τ.token] := by
  cases τ <;> rfl

end Term

namespace VarList

def length : VarList s → Nat
  | last _ => 1
  | more _ rest => rest.length + 1

def yield : VarList s → List Symbol
  | last v => [v.1]
  | more v rest => v.1 :: .comma :: rest.yield

def tree : VarList s → SyntaxTree
  | last v => .node .varList [NonTerminal.var.over v]
  | more v rest => .node .varList [NonTerminal.var.over v, .leaf .comma, rest.tree]

@[simp] theorem label_tree (args : VarList s) : args.tree.label = .nonTerminal .varList := by
  cases args <;> rfl

@[simp] theorem yield_tree (args : VarList s) : args.tree.yield = args.yield := by
  induction args with
  | last v => rfl
  | more v rest ih => simp [tree, yield, ih]

/-- The tree of a predicate symbol with its arguments. -/
def atomTree (z : s.Member .predicateSymbol) (args : VarList s) : SyntaxTree :=
  .node .predicate [NonTerminal.predicateSymbol.over z, .leaf .openParen, args.tree,
    .leaf .closeParen]

theorem length_pos (args : VarList s) : 0 < args.length := by
  cases args <;> simp [length]

theorem length_le (args : VarList s) : args.length ≤ args.yield.length := by
  induction args with
  | last v => simp [length, yield]
  | more v rest ih =>
    simp only [length, yield, List.length_cons]
    omega

end VarList

namespace Formula

def rule : Formula s → FormulaRule
  | binary .. => .binary
  | equation .. => .equation
  | quantified .. => .quantified
  | negation _ => .negation
  | atom .. => .atom

def yield : Formula s → List Symbol
  | binary left c right => .openParen :: (left.yield ++ c.1 :: (right.yield ++ [.closeParen]))
  | equation left right => [.openParen, left.token, s.equality, right.token, .closeParen]
  | quantified q v body => q.1 :: v.1 :: body.yield
  | negation body => s.connectives.neg :: body.yield
  | atom z args => z.1 :: .openParen :: (args.yield ++ [.closeParen])

def nesting : Formula s → Nat
  | binary left _ right => max left.nesting right.nesting + 1
  | equation .. => 1
  | quantified _ _ body => body.nesting + 1
  | negation body => body.nesting + 1
  | atom .. => 1

def tree : Formula s → SyntaxTree
  | binary left c right =>
    .node .formula [.leaf .openParen, left.tree, NonTerminal.connective.over c, right.tree,
      .leaf .closeParen]
  | equation left right =>
    .node .formula [.leaf .openParen, left.tree, .leaf s.equality, right.tree, .leaf .closeParen]
  | quantified q v body =>
    .node .formula [NonTerminal.quantifier.over q, NonTerminal.var.over v, body.tree]
  | negation body => .node .formula [.leaf s.connectives.neg, body.tree]
  | atom z args => .node .formula [args.atomTree z]

/-- The formulas directly inside a formula. -/
def parts : Formula s → List (Formula s)
  | binary left _ right => [left, right]
  | quantified _ _ body => [body]
  | negation body => [body]
  | equation .. | atom .. => []

@[simp] theorem label_tree (φ : Formula s) : φ.tree.label = .nonTerminal .formula := by
  cases φ <;> rfl

@[simp] theorem yield_tree (φ : Formula s) : φ.tree.yield = φ.yield := by
  induction φ with
  | binary left c right ihl ihr => simp [tree, yield, ihl, ihr]
  | equation left right => simp [tree, yield]
  | quantified q v body ih => simp [tree, yield, ih]
  | negation body ih => simp [tree, yield, ih]
  | atom z args => simp [tree, yield, VarList.atomTree]

theorem nesting_pos (φ : Formula s) : 0 < φ.nesting := by
  cases φ <;> simp [nesting]

theorem nesting_lt_of_mem_parts {φ ψ : Formula s} (h : ψ ∈ φ.parts) : ψ.nesting < φ.nesting := by
  cases φ <;> simp only [parts, List.mem_cons, List.not_mem_nil, or_false] at h
  case binary left c right => obtain rfl | rfl := h <;> simp only [nesting] <;> omega
  all_goals simp [nesting, h]

end Formula

theorem NonTerminal.nesting_over {nt : NonTerminal} (h : nt ≠ .formula) (t : Symbol) :
    (nt.over t).nesting = 0 := by
  simp [NonTerminal.over, h]

@[simp] theorem Term.nesting_tree (τ : Term s) : τ.tree.nesting = 0 := by
  cases τ <;> simp [tree, NonTerminal.nesting_over]

@[simp] theorem VarList.nesting_tree (args : VarList s) : args.tree.nesting = 0 := by
  induction args with
  | last v => simp [tree, NonTerminal.nesting_over]
  | more v rest ih => simp [tree, NonTerminal.nesting_over, ih]

theorem Formula.nesting_tree (φ : Formula s) : φ.tree.nesting = φ.nesting := by
  induction φ with
  | binary left c right ihl ihr =>
    simp [tree, nesting, NonTerminal.nesting_over, ihl, ihr]
  | equation left right => simp [tree, nesting]
  | quantified q v body ih => simp [tree, nesting, NonTerminal.nesting_over, ih]
  | negation body ih => simp [tree, nesting, ih]
  | atom z args => simp [tree, nesting, NonTerminal.nesting_over, VarList.atomTree]

/-! Every formula has a derivation tree. -/

/-- The class whose members a category derives, if it derives single tokens only. -/
def NonTerminal.tokenClass? : NonTerminal → Option TokenClass
  | .connective => some .binaryConnective
  | .quantifier => some .quantifier
  | .predicateSymbol => some .predicateSymbol
  | .constant => some .constant
  | .var => some .var
  | .formula | .predicate | .term | .varList => none

namespace Signature

theorem produces_each_iff {p : Production} {set : TerminalSet} (hp : p ∈ Production.all)
    (halt : p.alternatives = [[.each set]]) (labels : List NodeLabel) :
    s.Produces p.lhs labels ↔ ∃ t ∈ s.terminalSet set, labels = [.terminal t] := by
  rw [s.produces_iff_of_mem hp, halt]
  simp only [List.mem_singleton, exists_eq_left, List.forall₂_cons_left_iff, Fills,
    List.forall₂_nil_left_iff]
  constructor
  · rintro ⟨l, rest, ⟨t, ht, rfl⟩, rfl, rfl⟩
    exact ⟨t, ht, rfl⟩
  · rintro ⟨t, ht, rfl⟩
    exact ⟨.terminal t, [], ⟨t, ht, rfl⟩, rfl, rfl⟩

theorem produces_member_iff {nt : NonTerminal} {k : TokenClass} (h : nt.tokenClass? = some k)
    (labels : List NodeLabel) :
    s.Produces nt labels ↔ ∃ m : s.Member k, labels = [.terminal m] := by
  simp only [Subtype.exists, exists_prop]
  cases nt <;> simp only [NonTerminal.tokenClass?, Option.some.injEq, reduceCtorEq] at h <;> subst h
  case connective => exact produces_each_iff (p := .connective) (by simp [Production.all]) rfl _
  case quantifier => exact produces_each_iff (p := .quantifier) (by simp [Production.all]) rfl _
  case predicateSymbol =>
    exact produces_each_iff (p := .predicateSymbol) (by simp [Production.all]) rfl _
  case constant => exact produces_each_iff (p := .constant) (by simp [Production.all]) rfl _
  case var => exact produces_each_iff (p := .var) (by simp [Production.all]) rfl _

theorem produces_term_iff (labels : List NodeLabel) :
    s.Produces .term labels ↔
      labels = [.nonTerminal .var] ∨ labels = [.nonTerminal .constant] := by
  have hp : Production.term ∈ Production.all := by simp [Production.all]
  refine (s.produces_iff_of_mem hp labels).trans ?_
  simp [Production.term, Fills, List.forall₂_cons_left_iff]

theorem produces_varList_iff (labels : List NodeLabel) :
    s.Produces .varList labels ↔
      labels = [.nonTerminal .var] ∨
        labels = [.nonTerminal .var, .terminal .comma, .nonTerminal .varList] := by
  have hp : Production.varList ∈ Production.all := by simp [Production.all]
  refine (s.produces_iff_of_mem hp labels).trans ?_
  simp [Production.varList, Fills, List.forall₂_cons_left_iff]

theorem produces_predicate_iff (labels : List NodeLabel) :
    s.Produces .predicate labels ↔
      labels = [.nonTerminal .predicateSymbol, .terminal .openParen, .nonTerminal .varList,
        .terminal .closeParen] := by
  have hp : Production.predicate ∈ Production.all := by simp [Production.all]
  refine (s.produces_iff_of_mem hp labels).trans ?_
  simp [Production.predicate, Fills, List.forall₂_cons_left_iff]

theorem produces_formula_iff (labels : List NodeLabel) :
    s.Produces .formula labels ↔
      labels = [.terminal .openParen, .nonTerminal .formula, .nonTerminal .connective,
        .nonTerminal .formula, .terminal .closeParen] ∨
      labels = [.nonTerminal .quantifier, .nonTerminal .var, .nonTerminal .formula] ∨
      labels = [.terminal s.connectives.neg, .nonTerminal .formula] ∨
      labels = [.terminal .openParen, .nonTerminal .term, .terminal s.equality,
        .nonTerminal .term, .terminal .closeParen] ∨
      labels = [.nonTerminal .predicate] := by
  have hp : Production.formula ∈ Production.all := by simp [Production.all]
  refine (s.produces_iff_of_mem hp labels).trans ?_
  simp [Production.formula, Fills, List.forall₂_cons_left_iff]

theorem derives_over {nt : NonTerminal} {k : TokenClass} (h : nt.tokenClass? = some k)
    (m : s.Member k) : s.Derives (nt.over m) :=
  .node ((produces_member_iff h _).2 ⟨m, rfl⟩) (by simp [Derives.leaf])

end Signature

theorem Term.derives (τ : Term s) : s.Derives τ.tree := by
  cases τ with
  | var v =>
    refine .node ((Signature.produces_term_iff _).2 (.inl rfl)) ?_
    simpa using Signature.derives_over rfl v
  | constant k =>
    refine .node ((Signature.produces_term_iff _).2 (.inr rfl)) ?_
    simpa using Signature.derives_over rfl k

theorem VarList.derives (args : VarList s) : s.Derives args.tree := by
  induction args with
  | last v =>
    refine .node ((Signature.produces_varList_iff _).2 (.inl rfl)) ?_
    simpa using Signature.derives_over rfl v
  | more v rest ih =>
    refine .node ((Signature.produces_varList_iff _).2 (.inr (by simp))) ?_
    simpa using ⟨Signature.derives_over rfl v, .leaf _, ih⟩

theorem Formula.derives (φ : Formula s) : s.Derives φ.tree := by
  induction φ with
  | binary left c right ihl ihr =>
    refine .node ((Signature.produces_formula_iff _).2 (.inl (by simp))) ?_
    simpa using ⟨.leaf _, ihl, Signature.derives_over rfl c, ihr, .leaf _⟩
  | equation left right =>
    refine .node ((Signature.produces_formula_iff _).2 (by simp)) ?_
    simpa using ⟨.leaf _, left.derives, .leaf _, right.derives, .leaf _⟩
  | quantified q v body ih =>
    refine .node ((Signature.produces_formula_iff _).2 (.inr (.inl (by simp)))) ?_
    simpa using ⟨Signature.derives_over rfl q, Signature.derives_over rfl v, ih⟩
  | negation body ih =>
    refine .node ((Signature.produces_formula_iff _).2 (by simp)) ?_
    simpa using ⟨.leaf _, ih⟩
  | atom z args =>
    refine .node ((Signature.produces_formula_iff _).2 (by simp [VarList.atomTree])) ?_
    simp only [List.mem_singleton, forall_eq]
    refine .node ((Signature.produces_predicate_iff _).2 (by simp)) ?_
    simpa using ⟨Signature.derives_over rfl z, .leaf _, args.derives, .leaf _⟩

/-! Every derivation tree of a formula is the tree of one of these. -/

namespace Signature.Derives

theorem exists_member {t : SyntaxTree} (h : s.Derives t) {nt : NonTerminal} {k : TokenClass}
    (hk : nt.tokenClass? = some k) (hl : t.label = .nonTerminal nt) :
    ∃ m : s.Member k, t = nt.over m := by
  obtain ⟨m, hm⟩ := (produces_member_iff hk _).1 (h.produces hl)
  simp only [List.map_eq_cons_iff, List.map_eq_nil_iff] at hm
  obtain ⟨c, _, hchildren, hc, rfl⟩ := hm
  exact ⟨m, by rw [SyntaxTree.eq_node hl, hchildren, SyntaxTree.eq_leaf hc, NonTerminal.over]⟩

theorem exists_term {t : SyntaxTree} (h : s.Derives t) (hl : t.label = .nonTerminal .term) :
    ∃ τ : Term s, t = τ.tree := by
  have hp := (produces_term_iff _).1 (h.produces hl)
  have hbelow := h.of_mem_children
  rw [SyntaxTree.eq_node hl]
  simp only [List.map_eq_cons_iff, List.map_eq_nil_iff] at hp
  rcases hp with ⟨c, _, hchildren, hc, rfl⟩ | ⟨c, _, hchildren, hc, rfl⟩
  · rw [hchildren] at hbelow ⊢
    obtain ⟨v, rfl⟩ := (hbelow c (by simp)).exists_member rfl hc
    exact ⟨.var v, rfl⟩
  · rw [hchildren] at hbelow ⊢
    obtain ⟨k, rfl⟩ := (hbelow c (by simp)).exists_member rfl hc
    exact ⟨.constant k, rfl⟩

theorem exists_varList {t : SyntaxTree} (h : s.Derives t) (hl : t.label = .nonTerminal .varList) :
    ∃ args : VarList s, t = args.tree := by
  induction t with
  | leaf token => simp at hl
  | node nt cs ih =>
    obtain rfl : nt = .varList := by simpa using hl
    have hp := (produces_varList_iff _).1 (h.produces hl)
    have hbelow := h.of_mem_children
    simp only [SyntaxTree.children, List.map_eq_cons_iff, List.map_eq_nil_iff] at hp hbelow
    obtain ⟨c, _, rfl, hc, rfl⟩ | ⟨c, _, rfl, hc, d, _, rfl, hd, e, _, rfl, he, rfl⟩ := hp
    · obtain ⟨v, rfl⟩ := (hbelow c (by simp)).exists_member rfl hc
      exact ⟨.last v, rfl⟩
    · obtain ⟨v, rfl⟩ := (hbelow c (by simp)).exists_member rfl hc
      obtain rfl := SyntaxTree.eq_leaf hd
      obtain ⟨rest, rfl⟩ := ih e (by simp) (hbelow e (by simp)) he
      exact ⟨.more v rest, rfl⟩

theorem exists_atom {t : SyntaxTree} (h : s.Derives t) (hl : t.label = .nonTerminal .predicate) :
    ∃ (z : s.Member .predicateSymbol) (args : VarList s), t = args.atomTree z := by
  have hp := (produces_predicate_iff _).1 (h.produces hl)
  have hbelow := h.of_mem_children
  rw [SyntaxTree.eq_node hl]
  simp only [List.map_eq_cons_iff, List.map_eq_nil_iff] at hp
  obtain ⟨z, _, hchildren, hz, o, _, rfl, ho, j, _, rfl, hj, c, _, rfl, hc, rfl⟩ := hp
  rw [hchildren] at hbelow ⊢
  obtain ⟨m, rfl⟩ := (hbelow z (by simp)).exists_member rfl hz
  obtain ⟨args, rfl⟩ := (hbelow j (by simp)).exists_varList hj
  obtain rfl := SyntaxTree.eq_leaf ho
  obtain rfl := SyntaxTree.eq_leaf hc
  exact ⟨m, args, rfl⟩

/-- What is derived from the non-terminal for formulas is the tree of one. -/
theorem exists_formula {t : SyntaxTree} (h : s.Derives t) (hl : t.label = .nonTerminal .formula) :
    ∃ φ : Formula s, t = φ.tree := by
  induction t with
  | leaf token => simp at hl
  | node nt cs ih =>
    obtain rfl : nt = .formula := by simpa using hl
    have hp := (produces_formula_iff _).1 (h.produces hl)
    have hbelow := h.of_mem_children
    simp only [SyntaxTree.children, List.map_eq_cons_iff, List.map_eq_nil_iff] at hp hbelow
    obtain ⟨_, _, rfl, ho, l, _, rfl, hleft, c, _, rfl, hc, r, _, rfl, hr, _, _, rfl, hcl, rfl⟩ |
      ⟨q, _, rfl, hq, v, _, rfl, hv, b, _, rfl, hb, rfl⟩ | ⟨_, _, rfl, hn, b, _, rfl, hb, rfl⟩ |
      ⟨_, _, rfl, ho, l, _, rfl, hleft, _, _, rfl, he, r, _, rfl, hr, _, _, rfl, hcl, rfl⟩ |
      ⟨p, _, rfl, hp, rfl⟩ := hp
    · obtain ⟨left, rfl⟩ := ih l (by simp) (hbelow l (by simp)) hleft
      obtain ⟨m, rfl⟩ := (hbelow c (by simp)).exists_member rfl hc
      obtain ⟨right, rfl⟩ := ih r (by simp) (hbelow r (by simp)) hr
      obtain rfl := SyntaxTree.eq_leaf ho
      obtain rfl := SyntaxTree.eq_leaf hcl
      exact ⟨.binary left m right, rfl⟩
    · obtain ⟨m, rfl⟩ := (hbelow q (by simp)).exists_member rfl hq
      obtain ⟨w, rfl⟩ := (hbelow v (by simp)).exists_member rfl hv
      obtain ⟨body, rfl⟩ := ih b (by simp) (hbelow b (by simp)) hb
      exact ⟨.quantified m w body, rfl⟩
    · obtain ⟨body, rfl⟩ := ih b (by simp) (hbelow b (by simp)) hb
      obtain rfl := SyntaxTree.eq_leaf hn
      exact ⟨.negation body, rfl⟩
    · obtain ⟨left, rfl⟩ := (hbelow l (by simp)).exists_term hleft
      obtain ⟨right, rfl⟩ := (hbelow r (by simp)).exists_term hr
      obtain rfl := SyntaxTree.eq_leaf ho
      obtain rfl := SyntaxTree.eq_leaf he
      obtain rfl := SyntaxTree.eq_leaf hcl
      exact ⟨.equation left right, rfl⟩
    · obtain ⟨m, args, rfl⟩ := (hbelow p (by simp)).exists_atom hp
      exact ⟨.atom m args, rfl⟩

end Signature.Derives

theorem Formula.derivesFormula (φ : Formula s) : s.DerivesFormula φ.tree :=
  ⟨φ.label_tree, φ.derives⟩

theorem Signature.derivesFormula_iff (t : SyntaxTree) :
    s.DerivesFormula t ↔ ∃ φ : Formula s, φ.tree = t := by
  constructor
  · intro h
    obtain ⟨φ, hφ⟩ := h.derives.exists_formula h.root
    exact ⟨φ, hφ.symm⟩
  · rintro ⟨φ, rfl⟩
    exact φ.derivesFormula

theorem Signature.exists_derivesFormula_iff (p : SyntaxTree → Prop) :
    (∃ t, s.DerivesFormula t ∧ p t) ↔ ∃ φ : Formula s, p φ.tree := by
  constructor
  · rintro ⟨t, ht, hp⟩
    obtain ⟨φ, rfl⟩ := (derivesFormula_iff t).1 ht
    exact ⟨φ, hp⟩
  · rintro ⟨φ, hp⟩
    exact ⟨φ.tree, φ.derivesFormula, hp⟩

/-- Whether tokens are those of a formula. -/
def Signature.Derivable (s : Signature) (tokens : List Symbol) : Prop :=
  ∃ t, s.DerivesFormula t ∧ t.yield = tokens

theorem Signature.derivable_iff (tokens : List Symbol) :
    s.Derivable tokens ↔ ∃ φ : Formula s, φ.yield = tokens := by
  rw [Derivable, exists_derivesFormula_iff]
  simp only [Formula.yield_tree]

end Formulary
