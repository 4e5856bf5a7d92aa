import Formulary.Proofs.Derivation.Formula
import Formulary.Proofs.Lookahead

/-!
Unique readability. Over an alphabet the tokens of a formula call for its rule, whatever follows
them, so no two formulas have the same tokens and none is a proper beginning of another.
-/

namespace Formulary

theorem Alphabet.ne_equality (a : Alphabet) {k : TokenClass} {t : Symbol}
    (h : t ∈ k.members a.toSignature) (hk : k ≠ .equality) : t ≠ a.equality :=
  a.ne_of_members_eq h (l := .equality) rfl hk

variable {s : Signature} {a : Alphabet}

theorem FormulaRule.opener_ne_equality (r : FormulaRule) : r.opener ≠ .equality := by
  cases r <;> decide

theorem Term.token_ne_equality (τ : Term a.toSignature) : τ.token ≠ a.equality := by
  cases τ with
  | var v => exact a.ne_equality v.2 (by decide)
  | constant k => exact a.ne_equality k.2 (by decide)

theorem Term.token_injective {τ υ : Term a.toSignature} (h : τ.token = υ.token) : τ = υ := by
  cases τ <;> cases υ <;> simp only [token] at h
  case var.var => rw [Subtype.ext h]
  case constant.constant => rw [Subtype.ext h]
  case var.constant v k =>
    exact absurd (a.tokenClass_unique v.2 (h ▸ k.2)) (by decide)
  case constant.var k v =>
    exact absurd (a.tokenClass_unique k.2 (h ▸ v.2)) (by decide)

namespace Formula

/-- A formula starts with a token of the class that its rule looks for. -/
theorem exists_yield_eq_cons (φ : Formula s) :
    ∃ t ∈ φ.rule.opener.members s, ∃ rest, φ.yield = t :: rest := by
  cases φ with
  | binary left c right => exact ⟨_, by simp [rule, FormulaRule.opener, TokenClass.members], _, rfl⟩
  | equation left right => exact ⟨_, by simp [rule, FormulaRule.opener, TokenClass.members], _, rfl⟩
  | quantified q v body => exact ⟨q, q.2, _, rfl⟩
  | negation body => exact ⟨_, by simp [rule, FormulaRule.opener, TokenClass.members], _, rfl⟩
  | atom z args => exact ⟨z, z.2, _, rfl⟩

/-- The second token of a formula is there, and it is not the equality symbol. -/
theorem exists_yield_eq_cons_cons (φ : Formula a.toSignature) :
    ∃ t u rest, φ.yield = t :: u :: rest ∧ u ≠ a.equality := by
  have first (ψ : Formula a.toSignature) : ∃ t rest, ψ.yield = t :: rest ∧ t ≠ a.equality := by
    obtain ⟨t, ht, rest, heq⟩ := ψ.exists_yield_eq_cons
    exact ⟨t, rest, heq, a.ne_equality ht ψ.rule.opener_ne_equality⟩
  cases φ with
  | binary left c right =>
    obtain ⟨t, rest, heq, ht⟩ := first left
    exact ⟨_, t, _, by rw [yield, heq, List.cons_append], ht⟩
  | equation left right => exact ⟨_, left.token, _, rfl, left.token_ne_equality⟩
  | quantified q v body => exact ⟨q, v, _, rfl, a.ne_equality v.2 (by decide)⟩
  | negation body =>
    obtain ⟨t, rest, heq, ht⟩ := first body
    exact ⟨_, t, rest, by rw [yield, heq], ht⟩
  | atom z args =>
    refine ⟨z, .openParen, _, rfl, a.ne_equality (k := .openParen) ?_ (by decide)⟩
    simp [TokenClass.members]

/-- The tokens of a formula call for its rule. -/
theorem applies (φ : Formula a.toSignature) (rest : List Symbol) :
    φ.rule.applies a.toSignature (φ.yield ++ rest) = true := by
  cases φ with
  | binary left c right =>
    obtain ⟨t, u, more, heq, hu⟩ := left.exists_yield_eq_cons_cons
    rw [rule, FormulaRule.applies_binary_iff, yield, heq]
    simpa using hu
  | equation left right =>
    rw [rule, FormulaRule.applies_equation_iff, yield]
    exact ⟨rfl, rfl⟩
  | quantified q v body =>
    exact FormulaRule.applies_of_opener (r := .quantified) q.2 (by decide)
  | negation body =>
    refine FormulaRule.applies_of_opener (r := .negation) ?_ (by decide)
    simp [FormulaRule.opener, TokenClass.members]
  | atom z args => exact FormulaRule.applies_of_opener (r := .atom) z.2 (by decide)

theorem select?_yield (φ : Formula a.toSignature) (rest : List Symbol) :
    FormulaRule.select? a.toSignature (φ.yield ++ rest) = some φ.rule :=
  (FormulaRule.select?_eq_some_iff a _ _).2 (φ.applies rest)

end Formula

theorem VarList.yield_cancel {args args' : VarList s} {rest rest' : List Symbol}
    (h : args.yield ++ .closeParen :: rest = args'.yield ++ .closeParen :: rest') :
    args = args' ∧ rest = rest' := by
  induction args generalizing args' with
  | last v =>
    cases args' with
    | last w =>
      simp only [yield, List.cons_append, List.nil_append, List.cons.injEq, true_and] at h
      exact ⟨by rw [Subtype.ext h.1], h.2⟩
    | more w more => simp [yield, Symbol.closeParen, Symbol.comma] at h
  | more v more ih =>
    cases args' with
    | last w => simp [yield, Symbol.closeParen, Symbol.comma] at h
    | more w more' =>
      simp only [yield, List.cons_append, List.cons.injEq, true_and] at h
      obtain ⟨rfl, rfl⟩ := ih h.2
      exact ⟨by rw [Subtype.ext h.1], rfl⟩

theorem Formula.rule_eq_of_yield {φ ψ : Formula a.toSignature} {rest rest' : List Symbol}
    (h : φ.yield ++ rest = ψ.yield ++ rest') : φ.rule = ψ.rule := by
  have hψ := ψ.applies rest'
  rw [← h] at hψ
  exact FormulaRule.applies_unique a (φ.applies rest) hψ

/-- Formulas whose tokens agree up to what follows them are the same. -/
theorem Formula.yield_cancel {φ ψ : Formula a.toSignature} {rest rest' : List Symbol}
    (h : φ.yield ++ rest = ψ.yield ++ rest') : φ = ψ ∧ rest = rest' := by
  induction φ generalizing ψ rest rest' with
  | binary left c right ihl ihr =>
    cases ψ with
    | binary left' c' right' =>
      simp only [yield, List.cons_append, List.append_assoc, List.cons.injEq, true_and] at h
      obtain ⟨rfl, hleft⟩ := ihl h
      obtain ⟨hc, hright⟩ := List.cons.inj hleft
      obtain ⟨rfl, hrest⟩ := ihr hright
      rw [Subtype.ext hc]
      exact ⟨rfl, (List.cons.inj hrest).2⟩
    | _ => exact absurd (rule_eq_of_yield h) (by simp [rule])
  | equation left right =>
    cases ψ with
    | equation left' right' =>
      simp only [yield, List.cons_append, List.nil_append, List.cons.injEq, true_and] at h
      rw [Term.token_injective h.1, Term.token_injective h.2.1]
      exact ⟨rfl, h.2.2⟩
    | _ => exact absurd (rule_eq_of_yield h) (by simp [rule])
  | quantified q v body ih =>
    cases ψ with
    | quantified q' v' body' =>
      simp only [yield, List.cons_append, List.cons.injEq] at h
      obtain ⟨rfl, hrest⟩ := ih h.2.2
      rw [Subtype.ext h.1, Subtype.ext h.2.1]
      exact ⟨rfl, hrest⟩
    | _ => exact absurd (rule_eq_of_yield h) (by simp [rule])
  | negation body ih =>
    cases ψ with
    | negation body' =>
      simp only [yield, List.cons_append, List.cons.injEq, true_and] at h
      obtain ⟨rfl, hrest⟩ := ih h
      exact ⟨rfl, hrest⟩
    | _ => exact absurd (rule_eq_of_yield h) (by simp [rule])
  | atom z args =>
    cases ψ with
    | atom z' args' =>
      simp only [yield, List.cons_append, List.append_assoc, List.nil_append, List.cons.injEq,
        true_and] at h
      obtain ⟨rfl, hrest⟩ := VarList.yield_cancel h.2
      rw [Subtype.ext h.1]
      exact ⟨rfl, hrest⟩
    | _ => exact absurd (rule_eq_of_yield h) (by simp [rule])

end Formulary
