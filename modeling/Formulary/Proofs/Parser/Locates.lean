import Formulary.Proofs.Parser.Steps

/-!
Failure of the parser. Every error it raises while it reads a formula is placed at the token where
it stopped, so none of them says that there is input after a formula or none at all.
-/

namespace Formulary

/-- Whether an error is one of reading a formula and is placed where a scan stands. -/
def ParseError.At (s : Scan) : ParseError → Prop
  | .expected _ _ found position => s.rest.head? = some found ∧ position = s.position
  | .unexpectedEnd .. => s.rest = []
  | .tooDeep _ position => position = s.position
  | .trailingInput .. | .empty => False

namespace Parser

variable {α β : Type} {a : Alphabet}

/-- Whether every error of a parser is placed where it stopped. -/
def Locates (p : Parser α) : Prop := ∀ s e s', p s = .error e s' → e.At s'

theorem Locates.bind {p : Parser α} {f : α → Parser β} (hp : Locates p)
    (hf : ∀ x, Locates (f x)) : Locates (p >>= f) := by
  intro s e s' h
  rw [bind_apply] at h
  cases hs : p s with
  | ok x t =>
    rw [hs] at h
    exact hf x t e s' h
  | error d t =>
    rw [hs] at h
    cases h
    exact hp s e s' hs

theorem Locates.within {p : Parser Unit} (hp : Locates p) (nt : NonTerminal) :
    Locates (within nt p) := by
  intro s e s' h
  rw [within_apply] at h
  split at h
  · cases h
  · next hs =>
    cases h
    exact hp _ e s' hs

theorem Locates.of_sees {test : Symbol → Bool} {p q : Parser Unit} (hp : Locates p)
    (hq : Locates q) : Locates (do if ← sees test then p else q) := by
  intro s e s' h
  rw [bind_sees] at h
  split at h
  · exact hp s e s' h
  · exact hq s e s' h

theorem locates_pure : Locates (pure ()) := by
  intro s e s' h
  cases h

theorem locates_shift : Locates shift := by
  intro s e s' h
  cases h

theorem locates_fail (nt : NonTerminal) (wanted : String) : Locates (fail nt wanted) := by
  intro s e s' h
  obtain ⟨rest, position, moves⟩ := s
  cases rest with
  | nil =>
    cases h
    rfl
  | cons found rest =>
    cases h
    exact ⟨rfl, rfl⟩

theorem locates_expect (nt : NonTerminal) (wanted : String) (test : Symbol → Bool) :
    Locates (expect nt wanted test) :=
  locates_shift.of_sees (locates_fail nt wanted)

theorem locates_literal (nt : NonTerminal) (t : Symbol) : Locates (literal nt t) :=
  locates_expect nt _ _

theorem locates_connective : Locates (connective a) := (locates_expect _ _ _).within _

theorem locates_quantifier : Locates (quantifier a) := (locates_expect _ _ _).within _

theorem locates_var : Locates (var a) := (locates_expect _ _ _).within _

theorem locates_constant : Locates (constant a) := (locates_expect _ _ _).within _

theorem locates_predicateSymbol : Locates (predicateSymbol a) := (locates_expect _ _ _).within _

theorem locates_term : Locates (term a) := by
  apply Locates.within
  apply locates_var.of_sees
  exact locates_constant.of_sees (locates_fail _ _)

theorem locates_varList (commas : Nat) : Locates (varList a commas) := by
  induction commas with
  | zero => exact locates_var.within .varList
  | succ commas ih =>
    apply Locates.within
    apply locates_var.bind
    intro _
    exact (locates_shift.bind fun _ => ih).of_sees locates_pure

theorem locates_predicate : Locates (predicate a) := by
  have hargs : Locates (do
      varList a (← get).rest.length
      literal .predicate .closeParen) := by
    intro s e s' h
    have hread := (locates_varList (a := a) s.rest.length).bind fun _ =>
      locates_literal .predicate .closeParen
    exact hread s e s' h
  apply Locates.within
  apply locates_predicateSymbol.bind
  intro _
  exact (locates_literal _ _).bind fun _ => hargs

theorem locates_byRule {inner : Parser Unit} (h : Locates inner) (r : FormulaRule) :
    Locates (byRule a inner r) := by
  have hinner := h.within .formula
  have hclose := locates_literal .formula .closeParen
  cases r with
  | binary =>
    apply locates_shift.bind
    intro _
    apply hinner.bind
    intro _
    apply locates_connective.bind
    intro _
    exact hinner.bind fun _ => hclose
  | equation =>
    apply locates_shift.bind
    intro _
    apply locates_term.bind
    intro _
    apply (locates_literal _ _).bind
    intro _
    exact locates_term.bind fun _ => hclose
  | quantified =>
    apply locates_quantifier.bind
    intro _
    exact locates_var.bind fun _ => hinner
  | negation => exact locates_shift.bind fun _ => hinner
  | atom => exact locates_predicate

/-- What goes wrong while a formula is read is placed where reading stopped. -/
theorem locates_formula (budget depth : Nat) : Locates (formula a budget depth) := by
  induction budget generalizing depth with
  | zero =>
    intro s e s' h
    rw [formula_zero] at h
    cases h
    rfl
  | succ budget ih =>
    intro s e s' h
    cases hr : FormulaRule.select? a.toSignature s.rest with
    | none =>
      rw [formula_of_none hr] at h
      exact locates_fail _ _ _ e s' h
    | some r =>
      rw [formula_of_some hr] at h
      exact locates_byRule (ih (depth + 1)) r _ e s' h

end Parser

end Formulary
