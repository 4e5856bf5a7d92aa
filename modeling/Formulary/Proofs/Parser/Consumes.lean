import Formulary.Proofs.Derivation.Formula
import Formulary.Proofs.Lookahead
import Formulary.Proofs.Parser.Steps

/-!
Soundness of the parser. Whatever it reads without failing is the yield of a formula that nests no
deeper than its budget.
-/

namespace Formulary.Parser

variable {a : Alphabet}

/-- Whether the tokens that a parser reads, if it succeeds, all are as described. -/
def Consumes (p : Parser Unit) (described : List Symbol → Prop) : Prop :=
  ∀ s s', p s = .ok () s' → ∃ tokens, described tokens ∧ s.rest = tokens ++ s'.rest

theorem Consumes.imp {p : Parser Unit} {described described' : List Symbol → Prop}
    (h : Consumes p described) (himp : ∀ tokens, described tokens → described' tokens) :
    Consumes p described' := by
  intro s s' hs
  obtain ⟨tokens, hd, hrest⟩ := h s s' hs
  exact ⟨tokens, himp tokens hd, hrest⟩

theorem Consumes.step {p : Parser Unit} {described : List Symbol → Prop} {f : Unit → Parser Unit}
    {s s' : Scan} (h : Consumes p described) (hs : (p >>= f) s = .ok () s') :
    ∃ tokens t, described tokens ∧ s.rest = tokens ++ t.rest ∧ f () t = .ok () s' := by
  obtain ⟨_, t, hp, hf⟩ := exists_of_bind_eq_ok hs
  obtain ⟨tokens, hd, hrest⟩ := h s t hp
  exact ⟨tokens, t, hd, hrest, hf⟩

theorem shift_step {f : Unit → Parser Unit} {s s' : Scan} {u : Symbol} {rest : List Symbol}
    (hrest : s.rest = u :: rest) (hs : (shift >>= f) s = .ok () s') :
    ∃ t : Scan, t.rest = rest ∧ f () t = .ok () s' := by
  rw [bind_apply, shift_apply hrest] at hs
  exact ⟨_, rfl, hs⟩

theorem Consumes.within {p : Parser Unit} {described : List Symbol → Prop}
    (h : Consumes p described) (nt : NonTerminal) : Consumes (within nt p) described := by
  intro s s' hs
  rw [within_apply] at hs
  split at hs
  · next t ht =>
    obtain ⟨tokens, hd, hrest⟩ := h _ _ ht
    cases hs
    exact ⟨tokens, hd, hrest⟩
  · cases hs

theorem consumes_expect (nt : NonTerminal) (wanted : String) (test : Symbol → Bool) :
    Consumes (expect nt wanted test) fun tokens => ∃ t, test t = true ∧ tokens = [t] := by
  intro s s' hs
  rw [expect_apply] at hs
  split at hs
  · cases hs
  · next t rest hrest =>
    split at hs
    · next ht =>
      cases hs
      exact ⟨[t], ⟨t, ht, rfl⟩, hrest⟩
    · cases hs

theorem consumes_literal (nt : NonTerminal) (t : Symbol) :
    Consumes (literal nt t) fun tokens => tokens = [t] := by
  intro s s' hs
  obtain ⟨_, ⟨u, hu, rfl⟩, hrest⟩ := consumes_expect _ _ _ s s' hs
  obtain rfl : u = t := by simpa using hu
  exact ⟨[u], rfl, hrest⟩

theorem consumes_member (k : TokenClass) (nt : NonTerminal) (wanted : String) :
    Consumes (Parser.within nt (expect nt wanted fun t => t ∈ k.members a.toSignature))
      fun tokens => ∃ m : a.Member k, tokens = [m.1] := by
  refine Consumes.within ?_ nt
  intro s s' hs
  obtain ⟨_, ⟨t, ht, rfl⟩, hrest⟩ := consumes_expect _ _ _ s s' hs
  exact ⟨[t], ⟨⟨t, of_decide_eq_true ht⟩, rfl⟩, hrest⟩

theorem consumes_connective : Consumes (connective a)
    fun tokens => ∃ c : a.Member .binaryConnective, tokens = [c.1] :=
  consumes_member .binaryConnective .connective "a connective"

theorem consumes_quantifier : Consumes (quantifier a)
    fun tokens => ∃ q : a.Member .quantifier, tokens = [q.1] :=
  consumes_member .quantifier .quantifier "a quantifier"

theorem consumes_var : Consumes (var a) fun tokens => ∃ v : a.Member .var, tokens = [v.1] :=
  consumes_member .var .var "a variable"

theorem consumes_constant : Consumes (constant a)
    fun tokens => ∃ k : a.Member .constant, tokens = [k.1] :=
  consumes_member .constant .constant "a constant"

theorem consumes_predicateSymbol : Consumes (predicateSymbol a)
    fun tokens => ∃ z : a.Member .predicateSymbol, tokens = [z.1] :=
  consumes_member .predicateSymbol .predicateSymbol "a predicate symbol"

theorem fail_ne_ok (nt : NonTerminal) (wanted : String) (s s' : Scan) :
    fail nt wanted s ≠ .ok () s' := by
  obtain ⟨rest, position, moves⟩ := s
  cases rest <;> exact fun h => by cases h

theorem consumes_fail (nt : NonTerminal) (wanted : String) (described : List Symbol → Prop) :
    Consumes (fail nt wanted) described :=
  fun s s' hs => absurd hs (fail_ne_ok nt wanted s s')

theorem Consumes.of_sees {test : Symbol → Bool} {p q : Parser Unit}
    {described : List Symbol → Prop} (hp : Consumes p described) (hq : Consumes q described) :
    Consumes (do if ← sees test then p else q) described := by
  intro s s' hs
  rw [bind_sees] at hs
  split at hs
  · exact hp s s' hs
  · exact hq s s' hs

theorem consumes_term : Consumes (term a)
    fun tokens => ∃ τ : Term a.toSignature, tokens = [τ.token] := by
  have hvar : Consumes (var a) fun tokens => ∃ τ : Term a.toSignature, tokens = [τ.token] :=
    consumes_var.imp fun _ ⟨v, hv⟩ => ⟨.var v, hv⟩
  have hconstant : Consumes (constant a)
      fun tokens => ∃ τ : Term a.toSignature, tokens = [τ.token] :=
    consumes_constant.imp fun _ ⟨k, hk⟩ => ⟨.constant k, hk⟩
  exact (hvar.of_sees (hconstant.of_sees (consumes_fail _ _ _))).within .term

theorem consumes_varList (commas : Nat) : Consumes (varList a commas)
    fun tokens => ∃ args : VarList a.toSignature, tokens = args.yield := by
  induction commas with
  | zero => exact (consumes_var.imp fun _ ⟨v, hv⟩ => ⟨.last v, hv⟩).within .varList
  | succ commas ih =>
    refine Consumes.within ?_ .varList
    intro s s' hs
    obtain ⟨_, t, ⟨v, rfl⟩, hv, hs⟩ := consumes_var.step hs
    rw [bind_sees] at hs
    cases hrest : t.rest with
    | nil =>
      simp only [hrest, List.head?_nil, Option.any_none] at hs
      cases hs
      exact ⟨_, ⟨.last v, rfl⟩, hv⟩
    | cons u rest =>
      simp only [hrest, List.head?_cons, Option.any_some, decide_eq_true_eq] at hs
      split at hs
      · next hu =>
        obtain ⟨t', ht', hs⟩ := shift_step hrest hs
        obtain ⟨_, ⟨args, rfl⟩, hargs⟩ := ih t' s' hs
        exact ⟨_, ⟨.more v args, rfl⟩, by simp [VarList.yield, hv, hrest, hu, ← ht', hargs]⟩
      · cases hs
        exact ⟨_, ⟨.last v, rfl⟩, hv⟩

theorem consumes_predicate : Consumes (predicate a) fun tokens =>
    ∃ (z : a.Member .predicateSymbol) (args : VarList a.toSignature),
      tokens = z.1 :: .openParen :: (args.yield ++ [.closeParen]) := by
  refine Consumes.within ?_ .predicate
  intro s s' hs
  obtain ⟨_, t₁, ⟨z, rfl⟩, hz, hs⟩ := consumes_predicateSymbol.step hs
  obtain ⟨_, t₂, rfl, hopen, hs⟩ := (consumes_literal _ _).step hs
  change (varList a t₂.rest.length >>= fun _ => literal .predicate .closeParen) t₂ = _ at hs
  obtain ⟨_, t₃, ⟨args, rfl⟩, hargs, hs⟩ := (consumes_varList _).step hs
  obtain ⟨_, rfl, hclose⟩ := consumes_literal _ _ t₃ s' hs
  exact ⟨_, ⟨z, args, rfl⟩, by simp [hz, hopen, hargs, hclose]⟩

/-- By a rule that applies, formulas are read if only formulas are read inside. -/
theorem consumes_byRule {inner : Parser Unit} {budget : Nat} {r : FormulaRule} {s s' : Scan}
    (hinner : Consumes inner fun tokens =>
      ∃ φ : Formula a.toSignature, φ.nesting ≤ budget ∧ tokens = φ.yield)
    (hr : r.applies a.toSignature s.rest = true) (hs : byRule a inner r s = .ok () s') :
    ∃ φ : Formula a.toSignature, φ.nesting ≤ budget + 1 ∧ s.rest = φ.yield ++ s'.rest := by
  obtain ⟨t, ht, rest, hrest⟩ := FormulaRule.exists_of_applies hr
  cases r with
  | binary =>
    obtain rfl : t = .openParen := by simpa [FormulaRule.opener, TokenClass.members] using ht
    obtain ⟨t₁, rfl, hs⟩ := shift_step hrest hs
    obtain ⟨_, t₂, ⟨left, hleft, rfl⟩, hl, hs⟩ := (hinner.within .formula).step hs
    obtain ⟨_, t₃, ⟨c, rfl⟩, hc, hs⟩ := consumes_connective.step hs
    obtain ⟨_, t₄, ⟨right, hright, rfl⟩, hr, hs⟩ := (hinner.within .formula).step hs
    obtain ⟨_, rfl, hclose⟩ := consumes_literal _ _ t₄ s' hs
    refine ⟨.binary left c right, ?_, ?_⟩
    · simp only [Formula.nesting]
      omega
    · simp [Formula.yield, hrest, hl, hc, hr, hclose]
  | equation =>
    obtain rfl : t = .openParen := by simpa [FormulaRule.opener, TokenClass.members] using ht
    obtain ⟨t₁, rfl, hs⟩ := shift_step hrest hs
    obtain ⟨_, t₂, ⟨left, rfl⟩, hl, hs⟩ := consumes_term.step hs
    obtain ⟨_, t₃, rfl, heq, hs⟩ := (consumes_literal _ _).step hs
    obtain ⟨_, t₄, ⟨right, rfl⟩, hr, hs⟩ := consumes_term.step hs
    obtain ⟨_, rfl, hclose⟩ := consumes_literal _ _ t₄ s' hs
    refine ⟨.equation left right, ?_, ?_⟩
    · simp [Formula.nesting]
    · simp [Formula.yield, hrest, hl, heq, hr, hclose]
  | quantified =>
    obtain ⟨_, t₁, ⟨q, rfl⟩, hq, hs⟩ := consumes_quantifier.step hs
    obtain ⟨_, t₂, ⟨v, rfl⟩, hv, hs⟩ := consumes_var.step hs
    obtain ⟨_, ⟨body, hbody, rfl⟩, hb⟩ := hinner.within .formula t₂ s' hs
    refine ⟨.quantified q v body, ?_, ?_⟩
    · simpa [Formula.nesting] using hbody
    · simp [Formula.yield, hq, hv, hb]
  | negation =>
    obtain rfl : t = a.connectives.neg := by
      simpa [FormulaRule.opener, TokenClass.members] using ht
    obtain ⟨t₁, rfl, hs⟩ := shift_step hrest hs
    obtain ⟨_, ⟨body, hbody, rfl⟩, hb⟩ := hinner.within .formula t₁ s' hs
    refine ⟨.negation body, ?_, ?_⟩
    · simpa [Formula.nesting] using hbody
    · simp [Formula.yield, hrest, hb]
  | atom =>
    obtain ⟨_, ⟨z, args, rfl⟩, hz⟩ := consumes_predicate s s' hs
    exact ⟨.atom z args, by simp [Formula.nesting], hz⟩

/-- What the parser reads as a formula is one. -/
theorem consumes_formula (budget depth : Nat) : Consumes (formula a budget depth) fun tokens =>
    ∃ φ : Formula a.toSignature, φ.nesting ≤ budget ∧ tokens = φ.yield := by
  induction budget generalizing depth with
  | zero =>
    intro s s' hs
    rw [formula_zero] at hs
    cases hs
  | succ budget ih =>
    intro s s' hs
    cases hr : FormulaRule.select? a.toSignature s.rest with
    | none =>
      rw [formula_of_none hr] at hs
      exact absurd hs (fail_ne_ok _ _ _ _)
    | some r =>
      rw [formula_of_some hr] at hs
      have happlies := (FormulaRule.select?_eq_some_iff a s.rest r).1 hr
      obtain ⟨φ, hφ, hrest⟩ := consumes_byRule (s := s.noted _) (ih (depth + 1)) happlies hs
      exact ⟨φ.yield, ⟨φ, hφ, rfl⟩, hrest⟩

end Formulary.Parser
