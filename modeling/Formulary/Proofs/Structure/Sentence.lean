import Formulary.Proofs.Structure.Arity

/-!
The checks before parsing on the yield of a formula. Parentheses are always equal in number there,
so that only the sentinel and the arities can be wrong.
-/

namespace Formulary

open Formulary.Symbol

variable {s : Signature} {a : Alphabet} {tokens tokens' : List Symbol}

theorem checkSentinel_eq_ok_iff : checkSentinel tokens = .ok () ↔ sentinel ∉ tokens := by
  have hfind : tokens.findIdx? (· = sentinel) = none ↔ sentinel ∉ tokens := by
    rw [List.findIdx?_eq_none_iff]
    constructor
    · intro h hmem
      simpa using h sentinel hmem
    · intro h t ht
      have hne : t ≠ sentinel := by
        rintro rfl
        exact h ht
      simpa using hne
  rw [← hfind, checkSentinel]
  cases tokens.findIdx? (· = sentinel) <;> simp

/-- Whether as many parentheses are opened as are closed. -/
def Balanced (tokens : List Symbol) : Prop := tokens.count openParen = tokens.count closeParen

theorem checkBalance_eq_ok_iff : checkBalance tokens = .ok () ↔ Balanced tokens := by
  by_cases h : tokens.count openParen = tokens.count closeParen
  · simp [checkBalance, Balanced, h]
  · simp [checkBalance, Balanced, h]

theorem Balanced.append (h : Balanced tokens) (h' : Balanced tokens') :
    Balanced (tokens ++ tokens') := by
  unfold Balanced at *
  rw [List.count_append, List.count_append, h, h']

theorem Balanced.enclosed (h : Balanced tokens) :
    Balanced (openParen :: (tokens ++ [closeParen])) := by
  have hne : openParen ≠ closeParen := by decide
  unfold Balanced at *
  simp [h, hne, hne.symm]

theorem balanced_token {k : TokenClass} {t : Symbol} (h : t ∈ k.members a.toSignature)
    (hopen : k ≠ .openParen) (hclose : k ≠ .closeParen) : Balanced [t] := by
  have ho : t ≠ openParen := a.ne_of_members_eq h (l := .openParen) rfl hopen
  have hc : t ≠ closeParen := a.ne_of_members_eq h (l := .closeParen) rfl hclose
  simp [Balanced, ho, hc]

theorem Term.balanced_token (τ : Term a.toSignature) : Balanced [τ.token] := by
  cases τ with
  | var v => exact Formulary.balanced_token v.2 (by decide) (by decide)
  | constant k => exact Formulary.balanced_token k.2 (by decide) (by decide)

theorem VarList.balanced_yield (args : VarList a.toSignature) : Balanced args.yield := by
  induction args with
  | last v => exact balanced_token v.2 (by decide) (by decide)
  | more v more ih =>
    have hv := balanced_token v.2 (by decide) (by decide)
    have hcomma : Balanced [comma] := by
      unfold Balanced
      decide
    exact hv.append (hcomma.append ih)

/-- A formula closes the parentheses that it opens. -/
theorem Formula.balanced_yield (φ : Formula a.toSignature) : Balanced φ.yield := by
  induction φ with
  | binary left c right ihl ihr =>
    have hc := balanced_token c.2 (by decide) (by decide)
    simpa [yield] using (ihl.append (hc.append ihr)).enclosed
  | equation left right =>
    have hequality : Balanced [a.equality] :=
      balanced_token (a := a) (k := .equality) (by simp [TokenClass.members]) (by decide)
        (by decide)
    exact (left.balanced_token.append (hequality.append right.balanced_token)).enclosed
  | quantified q v body ih =>
    have hq := balanced_token q.2 (by decide) (by decide)
    have hv := balanced_token v.2 (by decide) (by decide)
    exact hq.append (hv.append ih)
  | negation body ih =>
    have hneg : Balanced [a.connectives.neg] :=
      balanced_token (a := a) (k := .negation) (by simp [TokenClass.members]) (by decide)
        (by decide)
    exact hneg.append ih
  | atom z args =>
    have hz := balanced_token z.2 (by decide) (by decide)
    exact hz.append args.balanced_yield.enclosed

theorem checkStructure_eq_ok_iff :
    checkStructure s tokens = .ok () ↔
      sentinel ∉ tokens ∧ Balanced tokens ∧ checkArity s tokens = .ok () := by
  rw [← checkSentinel_eq_ok_iff, ← checkBalance_eq_ok_iff, checkStructure]
  cases checkSentinel tokens <;> cases checkBalance tokens <;> simp [bind, Except.bind]

/-- On the yield of a formula the checks find a sentinel or a wrong number of variables, if
anything. -/
theorem Formula.checkStructure_yield (φ : Formula a.toSignature) :
    checkStructure a.toSignature φ.yield = .ok () ↔
      sentinel ∉ φ.yield ∧ φ.tree.ArityCorrect a.toSignature := by
  have harity := checks_formula φ 0 []
  rw [List.append_nil] at harity
  rw [checkStructure_eq_ok_iff, checkArity, harity]
  simp [φ.balanced_yield, checkArityFrom]

end Formulary
