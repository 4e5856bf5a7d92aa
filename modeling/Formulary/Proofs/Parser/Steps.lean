import Formulary.Formula.Parser

/-!
The parser step by step: what a sequence of parsers does to a scan, and how reading a formula
splits into choosing a rule and reading by it.
-/

namespace Formulary

/-- A scan with one more move on record. -/
def Scan.noted (s : Scan) (m : Move) : Scan := { s with moves := m :: s.moves }

namespace Parser

theorem bind_apply {α β : Type} (p : Parser α) (f : α → Parser β) (s : Scan) :
    (p >>= f) s =
      match p s with
      | .ok x s => f x s
      | .error e s => .error e s := by
  change EStateM.bind p f s = _
  cases h : p s <;> simp only [EStateM.bind, h]

/-- A sequence of parsers succeeds only if the first one does. -/
theorem exists_of_bind_eq_ok {α β : Type} {p : Parser α} {f : α → Parser β} {s s' : Scan} {y : β}
    (h : (p >>= f) s = .ok y s') : ∃ x t, p s = .ok x t ∧ f x t = .ok y s' := by
  rw [bind_apply] at h
  split at h
  · next x t heq => exact ⟨x, t, heq, h⟩
  · cases h

theorem bind_sees {α : Type} (test : Symbol → Bool) (f : Bool → Parser α) (s : Scan) :
    (sees test >>= f) s = f (s.rest.head?.any test) s := rfl

theorem shift_apply {s : Scan} {t : Symbol} {rest : List Symbol} (h : s.rest = t :: rest) :
    shift s = .ok () ⟨rest, s.position + 1, .shift t :: s.moves⟩ := by
  obtain ⟨_, position, moves⟩ := s
  subst h
  rfl

/-- Reads a formula by a rule, with `inner` for the formulas directly inside it. -/
def byRule (a : Alphabet) (inner : Parser Unit) : FormulaRule → Parser Unit
  | .binary => do
    shift
    within .formula inner
    connective a
    within .formula inner
    literal .formula .closeParen
  | .equation => do
    shift
    term a
    literal .formula a.equality
    term a
    literal .formula .closeParen
  | .quantified => do
    quantifier a
    var a
    within .formula inner
  | .negation => do
    shift
    within .formula inner
  | .atom => predicate a

/-- Reads nothing and fails where no rule applies. -/
def noRule (a : Alphabet) : Parser Unit :=
  fail .formula ("'(', a quantifier, " ++ a.connectives.neg.quoted ++ " or a predicate symbol")

theorem formula_zero (a : Alphabet) (depth : Nat) (s : Scan) :
    formula a 0 depth s = .error (.tooDeep depth s.position) s := rfl

theorem formula_succ (a : Alphabet) (budget depth : Nat) (s : Scan) :
    formula a (budget + 1) depth s =
      ((FormulaRule.select? a.toSignature s.rest).map
        (byRule a (formula a budget (depth + 1)))).getD (noRule a)
        (s.noted (.select (FormulaRule.select? a.toSignature s.rest) s.position (depth + 1))) := by
  have h : formula a (budget + 1) depth =
      (do
        let t ← get
        let rule := FormulaRule.select? a.toSignature t.rest
        note (.select rule t.position (depth + 1))
        (rule.map (byRule a (formula a budget (depth + 1)))).getD (noRule a)) := by
    rw [formula]
    refine congrArg (get >>= ·) (funext fun t => ?_)
    cases FormulaRule.select? a.toSignature t.rest with
    | none => rfl
    | some rule => cases rule <;> rfl
  rw [h]
  rfl

theorem formula_of_some {a : Alphabet} {s : Scan} {r : FormulaRule}
    (h : FormulaRule.select? a.toSignature s.rest = some r) (budget depth : Nat) :
    formula a (budget + 1) depth s =
      byRule a (formula a budget (depth + 1)) r
        (s.noted (.select (some r) s.position (depth + 1))) := by
  rw [formula_succ, h]
  rfl

theorem formula_of_none {a : Alphabet} {s : Scan}
    (h : FormulaRule.select? a.toSignature s.rest = none) (budget depth : Nat) :
    formula a (budget + 1) depth s =
      noRule a (s.noted (.select none s.position (depth + 1))) := by
  rw [formula_succ, h]
  rfl

end Parser

end Formulary
