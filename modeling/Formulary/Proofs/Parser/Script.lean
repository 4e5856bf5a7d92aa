import Formulary.Proofs.Parser.Steps

/-!
Rules as scripts. What the parser does by a rule is written out as a tree of steps, one of which
stands for the formulas directly inside; so what holds of all its runs is proved by induction on
these trees, once for all rules.
-/

namespace Formulary

inductive Script
  | done
  | shift
  | fail (nt : NonTerminal) (wanted : String)
  | look (test : Symbol → Bool) (yes no : Script)
  | seq (first after : Script)
  | within (nt : NonTerminal) (body : Script)
  /-- Reads a formula inside the one that the script reads. -/
  | inner

namespace Script

/-- The parser that a script describes, with `p` for the formulas inside. -/
def run (p : Parser Unit) : Script → Parser Unit
  | done => pure ()
  | shift => Parser.shift
  | fail nt wanted => Parser.fail nt wanted
  | look test yes no => do if ← Parser.sees test then yes.run p else no.run p
  | seq first after => do
    first.run p
    after.run p
  | within nt body => Parser.within nt (body.run p)
  | inner => p

def expect (nt : NonTerminal) (wanted : String) (test : Symbol → Bool) : Script :=
  look test shift (fail nt wanted)

def literal (nt : NonTerminal) (t : Symbol) : Script := expect nt t.quoted (· = t)

variable (a : Alphabet)

def connective : Script :=
  within .connective (expect .connective "a connective" (· ∈ a.connectives.binary))

def quantifier : Script :=
  within .quantifier (expect .quantifier "a quantifier" (· ∈ a.quantifiers.toList))

def var : Script := within .var (expect .var "a variable" (· ∈ a.vars))

def constant : Script := within .constant (expect .constant "a constant" (· ∈ a.constants))

def predicateSymbol : Script :=
  within .predicateSymbol
    (expect .predicateSymbol "a predicate symbol" (· ∈ a.predicateSymbols))

def term : Script :=
  within .term <|
    look (· ∈ a.vars) (var a) <|
      look (· ∈ a.constants) (constant a) (fail .term "a variable or constant")

def varList : (commas : Nat) → Script
  | 0 => within .varList (var a)
  | commas + 1 =>
    within .varList (seq (var a) (look (· = .comma) (seq shift (varList commas)) done))

def predicate (commas : Nat) : Script :=
  within .predicate <|
    seq (predicateSymbol a) <| seq (literal .predicate .openParen) <|
      seq (varList a commas) (literal .predicate .closeParen)

/-- What a rule does, if an argument list has at most `commas` commas. -/
def ofRule (commas : Nat) : FormulaRule → Script
  | .binary =>
    seq shift <| seq (within .formula inner) <| seq (connective a) <|
      seq (within .formula inner) (literal .formula .closeParen)
  | .equation =>
    seq shift <| seq (term a) <| seq (literal .formula a.equality) <|
      seq (term a) (literal .formula .closeParen)
  | .quantified => seq (quantifier a) <| seq (var a) (within .formula inner)
  | .negation => seq shift (within .formula inner)
  | .atom => predicate a commas

end Script

/-- Whether one scan is further on in the same tokens than another. -/
def Scan.Reaches (s t : Scan) : Prop :=
  ∃ read, s.rest = read ++ t.rest ∧ t.position = s.position + read.length

theorem Scan.Reaches.refl (s : Scan) : s.Reaches s := ⟨[], rfl, rfl⟩

theorem Scan.Reaches.trans {s t u : Scan} (h : s.Reaches t) (h' : t.Reaches u) : s.Reaches u := by
  obtain ⟨read, hrest, hposition⟩ := h
  obtain ⟨read', hrest', hposition'⟩ := h'
  refine ⟨read ++ read', by rw [hrest, hrest', List.append_assoc], ?_⟩
  rw [hposition', hposition, List.length_append, Nat.add_assoc]

theorem Scan.Reaches.position_le {s t : Scan} (h : s.Reaches t) : s.position ≤ t.position := by
  obtain ⟨read, -, hposition⟩ := h
  omega

/-- Tokens read and tokens left are the same number together. -/
theorem Scan.Reaches.position_add {s t : Scan} (h : s.Reaches t) :
    t.position + t.rest.length = s.position + s.rest.length := by
  obtain ⟨read, hrest, hposition⟩ := h
  have hlength := congrArg List.length hrest
  rw [List.length_append] at hlength
  omega

theorem Scan.Reaches.length_le {s t : Scan} (h : s.Reaches t) : t.rest.length ≤ s.rest.length := by
  have hsum := h.position_add
  have hle := h.position_le
  omega

namespace Parser

variable {a : Alphabet} {p q : Parser Unit} {s t : Scan}

/-- The scan with which a run ends, whether it fails or not. -/
def scanOf : EStateM.Result ParseError Scan Unit → Scan
  | .ok _ t => t
  | .error _ t => t

/-- Whether a parser goes through its input from left to right and counts the tokens it reads. -/
def Advances (p : Parser Unit) : Prop := ∀ s : Scan, s.Reaches (scanOf (p s))

theorem Advances.of_ok (h : Advances p) (hs : p s = .ok () t) : s.Reaches t := by
  have hreaches := h s
  rwa [hs] at hreaches

theorem Advances.of_error {e : ParseError} (h : Advances p) (hs : p s = .error e t) :
    s.Reaches t := by
  have hreaches := h s
  rwa [hs] at hreaches

theorem Advances.within (h : Advances p) (nt : NonTerminal) : Advances (within nt p) := by
  intro s
  have hp := h { s with moves := .enter nt :: s.moves }
  rw [within_apply]
  cases hs : p { s with moves := .enter nt :: s.moves } with
  | ok _ t =>
    rw [hs] at hp
    exact hp
  | error e t =>
    rw [hs] at hp
    exact hp

theorem Advances.seq (hp : Advances p) (hq : Advances q) : Advances (do p; q) := by
  intro s
  rw [bind_apply]
  cases hs : p s with
  | ok _ t => exact (hp.of_ok hs).trans (hq t)
  | error e t => exact hp.of_error hs

theorem advances_shift : Advances shift := by
  intro s
  obtain ⟨rest, position, moves⟩ := s
  cases rest with
  | nil => exact Scan.Reaches.refl _
  | cons u rest => exact ⟨[u], rfl, rfl⟩

theorem advances_fail (nt : NonTerminal) (wanted : String) : Advances (fail nt wanted) := by
  intro s
  obtain ⟨rest, position, moves⟩ := s
  cases rest <;> exact Scan.Reaches.refl _

end Parser

open Formulary.Parser

theorem Script.look_apply (p : Parser Unit) (test : Symbol → Bool) (yes no : Script) (s : Scan) :
    (look test yes no).run p s = (if s.rest.head?.any test then yes else no).run p s := by
  rw [run, bind_sees]
  split <;> rfl

/-- A script reads on from left to right if formulas inside are read so. -/
theorem Script.advances {p : Parser Unit} (h : Advances p) (script : Script) :
    Advances (script.run p) := by
  induction script with
  | done => exact Scan.Reaches.refl
  | shift => exact advances_shift
  | fail nt wanted => exact advances_fail nt wanted
  | look test yes no ihyes ihno =>
    intro s
    rw [look_apply]
    split
    · exact ihyes s
    · exact ihno s
  | seq first after ihfirst ihafter => exact ihfirst.seq ihafter
  | within nt body ih => exact ih.within nt
  | inner => exact h

namespace Parser

variable {a : Alphabet} {p : Parser Unit} {s : Scan}

theorem bind_congr_of_ok {f g : Unit → Parser Unit}
    (h : ∀ t, p s = .ok () t → f () t = g () t) : (p >>= f) s = (p >>= g) s := by
  rw [bind_apply, bind_apply]
  cases hs : p s with
  | ok _ t => exact h t hs
  | error e t => rfl

theorem within_congr {q : Parser Unit} {nt : NonTerminal}
    (h : p { s with moves := .enter nt :: s.moves } = q { s with moves := .enter nt :: s.moves }) :
    within nt p s = within nt q s := by
  rw [within_apply, within_apply, h]

theorem run_varList (commas : Nat) : (Script.varList a commas).run p = varList a commas := by
  induction commas with
  | zero => rfl
  | succ commas ih =>
    simp only [Script.varList, Script.run, ih]
    rfl

theorem advances_var : Advances (var a) :=
  Script.advances (p := pure ()) Scan.Reaches.refl (Script.var a)

/-- Where no more tokens are left than commas are allowed, one more comma makes no difference. -/
theorem varList_succ {commas : Nat} (h : s.rest.length ≤ commas) :
    varList a (commas + 1) s = varList a commas s := by
  induction commas generalizing s with
  | zero =>
    obtain ⟨rest, position, moves⟩ := s
    obtain rfl : rest = [] := List.length_eq_zero_iff.1 (Nat.le_zero.1 h)
    rfl
  | succ commas ih =>
    apply within_congr
    apply bind_congr_of_ok
    intro t ht
    have hle : t.rest.length ≤ commas + 1 := Nat.le_trans (advances_var.of_ok ht).length_le h
    rw [bind_sees, bind_sees]
    split
    · apply bind_congr_of_ok
      intro u hu
      cases hrest : t.rest with
      | nil => simp_all
      | cons v rest =>
        rw [shift_apply hrest] at hu
        cases hu
        rw [hrest, List.length_cons] at hle
        exact ih (Nat.le_of_succ_le_succ hle)
    · rfl

theorem varList_eq {commas commas' : Nat} (h : s.rest.length ≤ commas) (hle : commas ≤ commas') :
    varList a commas' s = varList a commas s := by
  induction hle with
  | refl => rfl
  | step hle ih => rw [varList_succ (Nat.le_trans h hle), ih]

/-- An argument list is read in the same way whatever number of commas not below that of the
tokens left is allowed. -/
theorem predicate_apply {commas : Nat} (h : s.rest.length ≤ commas) :
    predicate a s = (Script.predicate a commas).run p s := by
  rw [Script.predicate, Script.run, Script.run, Script.run, Script.run, run_varList]
  apply within_congr
  apply bind_congr_of_ok
  intro t ht
  have hsymbol : Advances (predicateSymbol a) :=
    Script.advances (p := pure ()) Scan.Reaches.refl (Script.predicateSymbol a)
  have hle : t.rest.length ≤ commas := Nat.le_trans (hsymbol.of_ok ht).length_le h
  apply bind_congr_of_ok
  intro u hu
  have hliteral : Advances (literal .predicate .openParen) :=
    Script.advances (p := pure ()) Scan.Reaches.refl (Script.literal .predicate .openParen)
  have hle' : u.rest.length ≤ commas := Nat.le_trans (hliteral.of_ok hu).length_le hle
  change (varList a u.rest.length >>= fun _ => literal .predicate .closeParen) u =
    (varList a commas >>= fun _ => literal .predicate .closeParen) u
  rw [bind_apply, bind_apply, varList_eq (Nat.le_refl _) hle']

/-- What is done by a rule is what its script says. -/
theorem byRule_apply {commas : Nat} (h : s.rest.length ≤ commas) (r : FormulaRule) :
    byRule a p r s = (Script.ofRule a commas r).run p s := by
  cases r with
  | binary => rfl
  | equation => rfl
  | quantified => rfl
  | negation => rfl
  | atom => exact predicate_apply h

theorem advances_byRule (h : Advances p) (r : FormulaRule) : Advances (byRule a p r) := by
  intro s
  rw [byRule_apply (Nat.le_refl _)]
  exact (Script.ofRule a s.rest.length r).advances h s

/-- While a formula is read, tokens are read from left to right and counted. -/
theorem advances_formula (budget depth : Nat) : Advances (formula a budget depth) := by
  induction budget generalizing depth with
  | zero => exact Scan.Reaches.refl
  | succ budget ih =>
    intro s
    cases hr : FormulaRule.select? a.toSignature s.rest with
    | none =>
      rw [formula_of_none hr]
      exact advances_fail _ _ (s.noted _)
    | some r =>
      rw [formula_of_some hr]
      exact advances_byRule (ih (depth + 1)) r (s.noted _)

end Parser

end Formulary
