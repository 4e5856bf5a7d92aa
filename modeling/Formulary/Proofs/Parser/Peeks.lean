import Formulary.Proofs.Lookahead
import Formulary.Proofs.Parser.Script

/-!
What a run depends on. Of the tokens behind those it reads, the parser sees the next one and, right
after an opening parenthesis, whether the one after it is the equality symbol; so other tokens in
their place that look alike leave the run as it is.
-/

namespace Formulary

open Formulary.Parser

variable {a : Alphabet} {read read' rest rest' : List Symbol}

/-- Whether tokens look like others to the parser when it has read what comes before them. -/
structure LooksAlike (a : Alphabet) (read rest rest' : List Symbol) : Prop where
  next : rest'.head? = rest.head?
  second : read.getLast? = some .openParen →
    (rest'[1]? = some a.equality ↔ rest[1]? = some a.equality)

namespace LooksAlike

/-- What was read earlier does not matter. -/
theorem drop (h : LooksAlike a (read ++ read') rest rest') : LooksAlike a read' rest rest' where
  next := h.next
  second hlast := h.second (by rw [List.getLast?_append, hlast]; rfl)

/-- What is read later looks like itself. -/
theorem extend (h : LooksAlike a (read ++ read') rest rest') :
    LooksAlike a read (read' ++ rest) (read' ++ rest') := by
  have hnext := h.next
  cases read' with
  | nil => simpa using h
  | cons t more =>
    refine ⟨rfl, fun _ => ?_⟩
    cases more with
    | nil =>
      rw [List.head?_eq_getElem?, List.head?_eq_getElem?] at hnext
      simp only [List.cons_append, List.nil_append, List.getElem?_cons_succ, hnext]
    | cons u more => rfl

theorem eq_nil (h : LooksAlike a read [] rest') : rest' = [] := List.head?_eq_none_iff.1 h.next

theorem exists_cons {t : Symbol} (h : LooksAlike a read (t :: rest) rest') :
    ∃ more, rest' = t :: more := by
  obtain ⟨more, hmore⟩ := List.head?_eq_some_iff.1 h.next
  exact ⟨more, hmore⟩

theorem head?_append (h : LooksAlike a read rest rest') :
    (read ++ rest').head? = (read ++ rest).head? := by
  cases read with
  | nil => exact h.next
  | cons t read => rfl

/-- Tokens that look alike behind an opening parenthesis agree about the equality symbol two places
on from it. -/
theorem equality_iff (h : LooksAlike a read rest rest') (hread : read ≠ [])
    (hopen : read.head? = some .openParen) :
    (read ++ rest')[2]? = some a.equality ↔ (read ++ rest)[2]? = some a.equality := by
  have hnext := h.next
  match read with
  | [] => exact absurd rfl hread
  | [t] => exact h.second (by simpa using hopen)
  | [t, u] =>
    rw [List.head?_eq_getElem?, List.head?_eq_getElem?] at hnext
    simp only [List.cons_append, List.nil_append, List.getElem?_cons_succ, hnext]
  | t :: u :: v :: read => rfl

end LooksAlike

namespace Parser

variable {p q : Parser Unit}

/-- A run with other tokens left in the end. -/
def resume (rest' : List Symbol) :
    EStateM.Result ParseError Scan Unit → EStateM.Result ParseError Scan Unit
  | .ok x t => .ok x { t with rest := rest' }
  | .error e t => .error e { t with rest := rest' }

/-- Whether a parser does the same on other tokens that look alike behind those it reads. -/
def Peeks (a : Alphabet) (p : Parser Unit) : Prop :=
  ∀ s read rest', s.rest = read ++ (scanOf (p s)).rest →
    LooksAlike a read (scanOf (p s)).rest rest' →
      p { s with rest := read ++ rest' } = resume rest' (p s)

theorem Peeks.seq (hp : Peeks a p) (hq : Peeks a q) (hadvances : Advances p)
    (hadvances' : Advances q) : Peeks a (do p; q) := by
  intro s read rest' hrest halike
  rw [bind_apply] at hrest halike ⊢
  rw [bind_apply]
  cases hs : p s with
  | error e t =>
    rw [hs] at hrest halike
    have hsame := hp s read rest' (by rwa [hs]) (by rwa [hs])
    rw [hsame, hs]
    rfl
  | ok _ t =>
    rw [hs] at hrest halike
    simp only at hrest halike ⊢
    obtain ⟨first, hfirst, -⟩ := hadvances.of_ok hs
    obtain ⟨second, hsecond, -⟩ := hadvances' t
    obtain rfl : read = first ++ second := by
      rw [hfirst, hsecond, ← List.append_assoc] at hrest
      exact (List.append_cancel_right hrest).symm
    have hsame := hp s first (second ++ rest') (by rwa [hs])
      (by rw [hs]; exact hsecond ▸ halike.extend)
    rw [List.append_assoc, hsame, hs]
    exact hq t second rest' hsecond halike.drop

theorem Peeks.within (h : Peeks a p) (nt : NonTerminal) : Peeks a (within nt p) := by
  intro s read rest' hrest halike
  have hinner := h { s with moves := .enter nt :: s.moves } read rest'
  rw [within_apply] at hrest halike ⊢
  rw [within_apply]
  cases hs : p { s with moves := .enter nt :: s.moves } with
  | ok _ t =>
    rw [hs] at hrest halike hinner
    rw [hinner hrest halike]
    rfl
  | error e t =>
    rw [hs] at hrest halike hinner
    rw [hinner hrest halike]
    rfl

theorem peeks_shift : Peeks a shift := by
  intro s read rest' hrest halike
  obtain ⟨rest, position, moves⟩ := s
  cases rest with
  | nil =>
    obtain rfl : read = [] := List.self_eq_append_left.1 hrest
    obtain rfl := halike.eq_nil
    rfl
  | cons t rest =>
    obtain rfl : [t] = read := List.append_cancel_right hrest
    rfl

theorem peeks_fail (nt : NonTerminal) (wanted : String) : Peeks a (fail nt wanted) := by
  intro s read rest' hrest halike
  obtain ⟨rest, position, moves⟩ := s
  cases rest with
  | nil =>
    obtain rfl : read = [] := List.self_eq_append_left.1 hrest
    obtain rfl := halike.eq_nil
    rfl
  | cons t rest =>
    obtain rfl : read = [] := List.self_eq_append_left.1 hrest
    obtain ⟨more, rfl⟩ := halike.exists_cons
    rfl

end Parser

/-- A script sees no more than the parser for the formulas inside does. -/
theorem Script.peeks {p : Parser Unit} (h : Peeks a p) (hp : Advances p) (script : Script) :
    Peeks a (script.run p) := by
  induction script with
  | done =>
    intro s read rest' hrest _
    obtain rfl : read = [] := List.self_eq_append_left.1 hrest
    rfl
  | shift => exact peeks_shift
  | fail nt wanted => exact peeks_fail nt wanted
  | look test yes no ihyes ihno =>
    intro s read rest' hrest halike
    rw [look_apply] at hrest halike ⊢
    have hhead : (read ++ rest').head? = s.rest.head? := by rw [hrest, halike.head?_append]
    rw [look_apply, hhead]
    split
    · next htest =>
      rw [if_pos htest] at hrest halike
      exact ihyes s read rest' hrest halike
    · next htest =>
      rw [if_neg htest] at hrest halike
      exact ihno s read rest' hrest halike
  | seq first after ihfirst ihafter =>
    exact ihfirst.seq ihafter (first.advances hp) (after.advances hp)
  | within nt body ih => exact ih.within nt
  | inner => exact h

/-- Tokens that look alike call for the same rule. -/
theorem LooksAlike.select?_eq (h : LooksAlike a read rest rest')
    (hopen : (read ++ rest).head? = some .openParen → read ≠ []) :
    FormulaRule.select? a.toSignature (read ++ rest') =
      FormulaRule.select? a.toSignature (read ++ rest) := by
  have hhead : (read ++ rest')[0]? = (read ++ rest)[0]? := by
    rw [← List.head?_eq_getElem?, ← List.head?_eq_getElem?, h.head?_append]
  have hequality : (read ++ rest)[0]? = some .openParen →
      ((read ++ rest')[2]? = some a.equality ↔ (read ++ rest)[2]? = some a.equality) := by
    intro h0
    rw [← List.head?_eq_getElem?] at h0
    have hne := hopen h0
    exact h.equality_iff hne (by rwa [List.head?_append_of_ne_nil read hne] at h0)
  have happlies : FormulaRule.applies a.toSignature (read ++ rest') =
      FormulaRule.applies a.toSignature (read ++ rest) := by
    funext r
    cases r with
    | binary =>
      rw [Bool.eq_iff_iff, FormulaRule.applies_binary_iff, FormulaRule.applies_binary_iff, hhead]
      exact and_congr_right fun h0 => not_congr (hequality h0)
    | equation =>
      rw [Bool.eq_iff_iff, FormulaRule.applies_equation_iff, FormulaRule.applies_equation_iff,
        hhead]
      exact and_congr_right hequality
    | quantified => simp [FormulaRule.applies, FormulaRule.lookahead, Peek.test, hhead]
    | negation => simp [FormulaRule.applies, FormulaRule.lookahead, Peek.test, hhead]
    | atom => simp [FormulaRule.applies, FormulaRule.lookahead, Peek.test, hhead]
  rw [FormulaRule.select?, FormulaRule.select?, happlies]

namespace Parser

/-- By a rule for parentheses, one is read. -/
theorem position_lt_of_openParen {p : Parser Unit} (hp : Advances p) {s : Scan}
    (h : s.rest.head? = some .openParen) {r : FormulaRule}
    (hr : FormulaRule.select? a.toSignature s.rest = some r) :
    s.position < (scanOf (byRule a p r s)).position := by
  obtain ⟨rest, hrest⟩ := List.head?_eq_some_iff.1 h
  have happlies := (FormulaRule.select?_eq_some_iff a s.rest r).1 hr
  obtain ⟨t, ht, more, heq⟩ := FormulaRule.exists_of_applies happlies
  obtain ⟨rfl, rfl⟩ := List.cons.inj (hrest.symm.trans heq)
  have hshift (after : Script) :
      s.position < (scanOf ((Script.seq .shift after).run p s)).position := by
    rw [Script.run, bind_apply, Script.run, shift_apply hrest]
    have hle := (after.advances hp ⟨rest, s.position + 1, .shift .openParen :: s.moves⟩).position_le
    exact Nat.lt_of_succ_le hle
  have hopener : r.opener = .openParen :=
    a.tokenClass_unique ht (l := .openParen) (by simp [TokenClass.members])
  rw [byRule_apply (Nat.le_refl _)]
  cases r with
  | binary => exact hshift _
  | equation => exact hshift _
  | quantified => cases hopener
  | negation => cases hopener
  | atom => cases hopener

/-- An opening parenthesis at which a formula may start is read. -/
theorem reads_openParen {budget depth : Nat} {s : Scan} (h : s.rest.head? = some .openParen) :
    s.rest ≠ (scanOf (formula a (budget + 1) depth s)).rest := by
  intro hrest
  have hopener : FormulaRule.binary.opener.admits a.toSignature s.rest[0]? = true := by
    rw [← List.head?_eq_getElem?, h]
    simp [FormulaRule.opener, TokenClass.admits, TokenClass.members]
  obtain ⟨r, hr⟩ := FormulaRule.exists_select_of_opener hopener
  have hsum := (advances_formula (a := a) (budget + 1) depth s).position_add
  have hlt := position_lt_of_openParen (advances_formula (a := a) budget (depth + 1))
    (s := s.noted (.select (some r) s.position (depth + 1))) h hr
  rw [← formula_of_some hr] at hlt
  rw [← hrest] at hsum
  have hposition : (s.noted (.select (some r) s.position (depth + 1))).position = s.position := rfl
  omega

/-- How a formula is read depends on no other tokens than those read and what they look like that
come next. -/
theorem peeks_formula (budget depth : Nat) : Peeks a (formula a budget depth) := by
  induction budget generalizing depth with
  | zero =>
    intro s read rest' hrest _
    obtain rfl : read = [] := List.self_eq_append_left.1 hrest
    rfl
  | succ budget ih =>
    intro s read rest' hrest halike
    have hinner := advances_formula (a := a) budget (depth + 1)
    have hopen : (read ++ (scanOf (formula a (budget + 1) depth s)).rest).head? =
        some .openParen → read ≠ [] := by
      rintro h rfl
      rw [← hrest] at h
      exact reads_openParen h hrest
    have hselect := halike.select?_eq hopen
    rw [← hrest] at hselect
    cases hr : FormulaRule.select? a.toSignature s.rest with
    | none =>
      rw [hr] at hselect
      rw [formula_of_none hr] at hrest halike ⊢
      rw [formula_of_none hselect]
      exact peeks_fail _ _ (s.noted _) read rest' hrest halike
    | some r =>
      rw [hr] at hselect
      rw [formula_of_some hr] at hrest halike ⊢
      rw [formula_of_some hselect]
      have hle := Nat.le_max_left s.rest.length (read ++ rest').length
      have hle' := Nat.le_max_right s.rest.length (read ++ rest').length
      rw [byRule_apply (s := s.noted _) hle] at hrest halike ⊢
      rw [byRule_apply (s := Scan.noted { s with rest := read ++ rest' } _) hle']
      exact Script.peeks (ih (depth + 1)) hinner _ (s.noted _) read rest' hrest halike

end Parser

end Formulary
