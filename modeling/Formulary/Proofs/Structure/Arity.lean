import Formulary.Formula.Structure
import Formulary.Proofs.Derivation.Readability

/-!
Arities in token lists and in trees. The check of arities looks at each predicate symbol and the
tokens after it and knows no trees; on the yield of a formula it passes exactly if in the tree of
the formula every predicate symbol has as many variables as it has places.
-/

namespace Formulary

namespace SyntaxTree

/-- The number of variables below a node. -/
def varCount (t : SyntaxTree) : Nat := t.subtrees.countP (·.label = .nonTerminal .var)

/-- Whether every predicate symbol of a tree has as many variables as it has places. -/
def ArityCorrect (s : Signature) (t : SyntaxTree) : Prop :=
  ∀ z list, node .predicate [NonTerminal.predicateSymbol.over z, leaf .openParen, list,
    leaf .closeParen] ∈ t.subtrees → s.arity? z = some list.varCount

variable {s : Signature}

@[simp] theorem arityCorrect_leaf (token : Symbol) : (leaf token).ArityCorrect s := by
  intro z list h
  simp at h

/-- Only predicate nodes say something about arities themselves. -/
theorem arityCorrect_node {nt : NonTerminal} (h : nt ≠ .predicate) (cs : List SyntaxTree) :
    (node nt cs).ArityCorrect s ↔ ∀ c ∈ cs, c.ArityCorrect s := by
  constructor
  · intro hnode c hc z list hmem
    apply hnode z list
    rw [subtrees_node]
    exact List.mem_cons_of_mem _ (List.mem_flatMap.2 ⟨c, hc, hmem⟩)
  · intro hcs z list hmem
    rw [subtrees_node, List.mem_cons, List.mem_flatMap] at hmem
    rcases hmem with heq | ⟨c, hc, hmem⟩
    · cases heq
      exact absurd rfl h
    · exact hcs c hc z list hmem

@[simp] theorem varCount_leaf (token : Symbol) : (leaf token).varCount = 0 := rfl

@[simp] theorem varCount_node (nt : NonTerminal) (cs : List SyntaxTree) :
    (node nt cs).varCount = (cs.map varCount).sum + if nt = .var then 1 else 0 := by
  have hcs : (cs.flatMap subtrees).countP (·.label = .nonTerminal .var) =
      (cs.map varCount).sum := by
    rw [List.countP_flatMap]
    rfl
  rw [varCount, subtrees_node, List.countP_cons, hcs]
  simp

end SyntaxTree

variable {s : Signature} {a : Alphabet}

theorem NonTerminal.arityCorrect_over {nt : NonTerminal} (h : nt ≠ .predicate) (t : Symbol) :
    (nt.over t).ArityCorrect s := by
  simp [NonTerminal.over, SyntaxTree.arityCorrect_node h]

@[simp] theorem Term.arityCorrect_tree (τ : Term s) : τ.tree.ArityCorrect s := by
  cases τ <;> simp [tree, SyntaxTree.arityCorrect_node, NonTerminal.arityCorrect_over]

@[simp] theorem VarList.arityCorrect_tree (args : VarList s) : args.tree.ArityCorrect s := by
  induction args with
  | last v => simp [tree, SyntaxTree.arityCorrect_node, NonTerminal.arityCorrect_over]
  | more v rest ih =>
    simp [tree, SyntaxTree.arityCorrect_node, NonTerminal.arityCorrect_over, ih]

@[simp] theorem VarList.varCount_tree (args : VarList s) : args.tree.varCount = args.length := by
  induction args with
  | last v => simp [tree, length, NonTerminal.over]
  | more v rest ih => simp [tree, length, NonTerminal.over, ih, Nat.add_comm]

theorem VarList.arityCorrect_atomTree (z : s.Member .predicateSymbol) (args : VarList s) :
    (args.atomTree z).ArityCorrect s ↔ s.arity? z = some args.length := by
  constructor
  · intro h
    rw [h z args.tree (by simp [atomTree]), args.varCount_tree]
  · intro h y list hmem
    rw [atomTree, SyntaxTree.subtrees_node, List.mem_cons] at hmem
    rcases hmem with heq | hmem
    · simp only [NonTerminal.over, SyntaxTree.node.injEq, true_and, List.cons.injEq,
        SyntaxTree.leaf.injEq, and_true] at heq
      rw [heq.1, heq.2, args.varCount_tree]
      exact h
    · have hz : (NonTerminal.predicateSymbol.over z).ArityCorrect s :=
        NonTerminal.arityCorrect_over (by decide) z
      simp only [List.flatMap_cons, List.flatMap_nil, List.mem_append] at hmem
      rcases hmem with hmem | hmem | hmem | hmem
      · exact hz y list hmem
      · simp at hmem
      · exact args.arityCorrect_tree y list hmem
      · simp at hmem

/-! The tokens of a formula. -/

theorem Signature.arity?_eq_none_iff (s : Signature) (t : Symbol) :
    s.arity? t = none ↔ t ∉ s.predicateSymbols := by
  simp [arity?, predicateSymbols]

theorem Alphabet.arity?_eq_none {k : TokenClass} {t : Symbol}
    (h : t ∈ k.members a.toSignature) (hk : k ≠ .predicateSymbol) : a.arity? t = none := by
  rw [Signature.arity?_eq_none_iff]
  intro ht
  exact hk (a.tokenClass_unique (l := .predicateSymbol) h ht)

/-- From argument `k` on, the check wants exactly the arguments that are left to `arity`. -/
theorem checkArguments_yield (args : VarList a.toSignature) {arity k : Nat} (h : k ≤ arity)
    (rest : List Symbol) :
    checkArguments arity k (args.yield ++ .closeParen :: rest) = .ok () ↔
      args.length + k = arity + 1 := by
  induction args generalizing k with
  | last v =>
    have hclose : v.1 ≠ .closeParen := a.ne_of_members_eq v.2 (l := .closeParen) rfl (by decide)
    have hcomma : v.1 ≠ .comma := a.ne_of_members_eq v.2 (l := .comma) rfl (by decide)
    have hsep : Symbol.closeParen ≠ .comma := by decide
    by_cases hk : k < arity
    · simp [checkArguments, VarList.yield, VarList.length, hclose, hcomma, hsep, hk]
      omega
    · simp [checkArguments, VarList.yield, VarList.length, hclose, hcomma, hk]
      omega
  | more v more ih =>
    have hclose : v.1 ≠ .closeParen := a.ne_of_members_eq v.2 (l := .closeParen) rfl (by decide)
    have hcomma : v.1 ≠ .comma := a.ne_of_members_eq v.2 (l := .comma) rfl (by decide)
    have hsep : Symbol.comma ≠ .closeParen := by decide
    have hpos := more.length_pos
    by_cases hk : k < arity
    · simp only [checkArguments, VarList.yield, VarList.length, List.cons_append, hclose, hcomma,
        hk, ↓reduceIte]
      rw [ih hk]
      omega
    · simp [checkArguments, VarList.yield, VarList.length, hclose, hcomma, hsep, hk]
      omega

/-- The tokens of an argument list satisfy the check for the number of its variables only. -/
theorem checkOccurrence_yield (args : VarList a.toSignature) (arity : Nat) (rest : List Symbol) :
    checkOccurrence arity (.openParen :: (args.yield ++ .closeParen :: rest)) = .ok () ↔
      arity = args.length := by
  have hpos := args.length_pos
  by_cases harity : arity = 0
  · simp [checkOccurrence, harity]
    omega
  · simp only [checkOccurrence, harity, ne_eq, not_true_eq_false, ↓reduceIte]
    rw [checkArguments_yield args (by omega)]
    omega

theorem checkArityFrom_cons_iff {t : Symbol} {arity : Nat} (h : s.arity? t = some arity)
    (position : Nat) (rest : List Symbol) :
    checkArityFrom s position (t :: rest) = .ok () ↔
      checkOccurrence arity rest = .ok () ∧ checkArityFrom s (position + 1) rest = .ok () := by
  rw [checkArityFrom, h]
  cases hoccurrence : checkOccurrence arity rest <;> simp [hoccurrence]

/-- No predicate symbol without places occurs in tokens that pass the check. -/
theorem arity?_ne_zero_of_checkArityFrom {position : Nat} {tokens : List Symbol}
    (h : checkArityFrom s position tokens = .ok ()) : ∀ t ∈ tokens, s.arity? t ≠ some 0 := by
  induction tokens generalizing position with
  | nil => simp
  | cons t rest ih =>
    cases harity : s.arity? t with
    | none =>
      rw [checkArityFrom, harity] at h
      simpa [harity] using ih h
    | some arity =>
      obtain ⟨hoccurrence, hrest⟩ := (checkArityFrom_cons_iff harity position rest).1 h
      have hne : arity ≠ 0 := by
        rintro rfl
        cases rest with
        | nil => cases hoccurrence
        | cons u rest =>
          simp only [checkOccurrence, ↓reduceIte] at hoccurrence
          split at hoccurrence <;> cases hoccurrence
      simpa [harity, hne] using ih hrest

/-- Whether the check of arities passes some tokens exactly on a condition, whatever follows. -/
def Checks (s : Signature) (tokens : List Symbol) (condition : Prop) : Prop :=
  ∀ position rest, checkArityFrom s position (tokens ++ rest) = .ok () ↔
    condition ∧ checkArityFrom s (position + tokens.length) rest = .ok ()

theorem Checks.append {tokens tokens' : List Symbol} {p q : Prop} (h : Checks s tokens p)
    (h' : Checks s tokens' q) : Checks s (tokens ++ tokens') (p ∧ q) := by
  intro position rest
  rw [List.append_assoc, h, h', List.length_append, and_assoc, Nat.add_assoc]

theorem Checks.congr {tokens : List Symbol} {p q : Prop} (h : Checks s tokens p) (hpq : p ↔ q) :
    Checks s tokens q := by
  intro position rest
  rw [h, hpq]

/-- Tokens that are no predicate symbols are passed over. -/
theorem checks_of_arity?_eq_none {tokens : List Symbol} (h : ∀ t ∈ tokens, s.arity? t = none) :
    Checks s tokens True := by
  induction tokens with
  | nil =>
    intro position rest
    simp
  | cons t tokens ih =>
    intro position rest
    have ht := h t (by simp)
    have htokens := ih (fun u hu => h u (by simp [hu])) (position + 1) rest
    rw [List.cons_append, checkArityFrom, ht, List.length_cons]
    rw [show position + (tokens.length + 1) = position + 1 + tokens.length by omega]
    exact htokens

theorem checks_token {k : TokenClass} {t : Symbol} (h : t ∈ k.members a.toSignature)
    (hk : k ≠ .predicateSymbol) : Checks a.toSignature [t] True := by
  apply checks_of_arity?_eq_none
  intro u hu
  rw [List.mem_singleton.1 hu]
  exact Alphabet.arity?_eq_none h hk

theorem checks_openParen : Checks a.toSignature [.openParen] True :=
  checks_token (k := .openParen) (by simp [TokenClass.members]) (by decide)

theorem checks_closeParen : Checks a.toSignature [.closeParen] True :=
  checks_token (k := .closeParen) (by simp [TokenClass.members]) (by decide)

theorem checks_comma : Checks a.toSignature [.comma] True :=
  checks_token (k := .comma) (by simp [TokenClass.members]) (by decide)

theorem checks_varList (args : VarList a.toSignature) :
    Checks a.toSignature args.yield True := by
  induction args with
  | last v => exact checks_token v.2 (by decide)
  | more v more ih =>
    have hv := checks_token v.2 (by decide)
    exact (hv.append (checks_comma.append ih)).congr (by simp)

theorem checks_term (τ : Term a.toSignature) : Checks a.toSignature [τ.token] True := by
  cases τ with
  | var v => exact checks_token v.2 (by decide)
  | constant k => exact checks_token k.2 (by decide)

theorem checks_atom (z : a.Member .predicateSymbol) (args : VarList a.toSignature) :
    Checks a.toSignature (z.1 :: .openParen :: (args.yield ++ [.closeParen]))
      (a.arity? z = some args.length) := by
  intro position rest
  obtain ⟨arity, harity⟩ : ∃ arity, a.arity? z = some arity := by
    apply Option.ne_none_iff_exists'.1
    rw [ne_eq, Signature.arity?_eq_none_iff, not_not]
    exact z.2
  have hsplit : z.1 :: .openParen :: (args.yield ++ [.closeParen]) ++ rest =
      z.1 :: .openParen :: (args.yield ++ .closeParen :: rest) := by simp
  have hoccurrence := checkOccurrence_yield args arity rest
  have hbetween := checks_openParen.append ((checks_varList args).append checks_closeParen)
  have hafter := hbetween (position + 1) rest
  simp only [List.append_assoc, List.cons_append, List.nil_append, and_self, true_and] at hafter
  have hlength : position + (z.1 :: .openParen :: (args.yield ++ [.closeParen])).length =
      position + 1 + (.openParen :: (args.yield ++ [.closeParen])).length := by
    simp only [List.length_cons]
    omega
  rw [hsplit, checkArityFrom_cons_iff harity, harity, Option.some.injEq, hoccurrence, hlength,
    hafter]

/-- The check passes a formula exactly if its tree has the right arities. -/
theorem checks_formula (φ : Formula a.toSignature) :
    Checks a.toSignature φ.yield (φ.tree.ArityCorrect a.toSignature) := by
  induction φ with
  | binary left c right ihl ihr =>
    have hc := checks_token c.2 (by decide)
    have hafter := hc.append (ihr.append checks_closeParen)
    refine (checks_openParen.append (ihl.append hafter)).congr ?_
    simp [Formula.tree, SyntaxTree.arityCorrect_node, NonTerminal.arityCorrect_over]
  | equation left right =>
    have hequality : Checks a.toSignature [a.equality] True :=
      checks_token (k := .equality) (by simp [TokenClass.members]) (by decide)
    have hright := (checks_term right).append checks_closeParen
    have hafter := (checks_term left).append (hequality.append hright)
    refine (checks_openParen.append hafter).congr ?_
    simp [Formula.tree, SyntaxTree.arityCorrect_node]
  | quantified q v body ih =>
    have hq := checks_token q.2 (by decide)
    have hv := checks_token v.2 (by decide)
    refine (hq.append (hv.append ih)).congr ?_
    simp [Formula.tree, SyntaxTree.arityCorrect_node, NonTerminal.arityCorrect_over]
  | negation body ih =>
    have hneg : Checks a.toSignature [a.connectives.neg] True :=
      checks_token (k := .negation) (by simp [TokenClass.members]) (by decide)
    refine (hneg.append ih).congr ?_
    simp [Formula.tree, SyntaxTree.arityCorrect_node]
  | atom z args =>
    refine (checks_atom z args).congr ?_
    simp [Formula.tree, SyntaxTree.arityCorrect_node, VarList.arityCorrect_atomTree]

end Formulary
