import Formulary.Proofs.Parser.Accepts
import Formulary.Proofs.Parser.Peeks

/-!
How far a parse looks before it fails. An error that is placed at a token depends on no tokens but
those up to the one right behind that place, so other tokens that agree with these up to there are
refused with the same error.
-/

namespace Formulary

/-- The token at which an error is placed. Where the input is empty or ends too early, there is
none. -/
def ParseError.position? : ParseError → Option Nat
  | .expected _ _ _ position => some position
  | .unexpectedEnd .. => none
  | .trailingInput _ position => some position
  | .tooDeep _ position => some position
  | .empty => none

theorem ParseError.At.position?_eq {e : ParseError} {s : Scan} {position : Nat} (h : e.At s)
    (he : e.position? = some position) : position = s.position := by
  cases e with
  | expected nt wanted found p => exact (Option.some.inj he).symm.trans h.2
  | tooDeep limit p => exact (Option.some.inj he).symm.trans h
  | unexpectedEnd | empty => cases he
  | trailingInput => exact h.elim

/-- Whether two inputs have the same token, or both of them none, at every place up to a position.
-/
def AgreeUpTo (position : Nat) (tokens tokens' : List Symbol) : Prop :=
  ∀ i ≤ position, tokens'[i]? = tokens[i]?

instance (position : Nat) (tokens tokens' : List Symbol) :
    Decidable (AgreeUpTo position tokens tokens') :=
  inferInstanceAs (Decidable (∀ i ≤ position, tokens'[i]? = tokens[i]?))

variable {a : Alphabet} {limit position : Nat} {tokens tokens' : List Symbol}

/-- Tokens that agree up to one place behind those that were read go on alike. -/
theorem AgreeUpTo.exists_looksAlike {read rest : List Symbol}
    (h : AgreeUpTo (read.length + 1) (read ++ rest) tokens') (a : Alphabet) :
    ∃ rest', tokens' = read ++ rest' ∧ LooksAlike a read rest rest' := by
  have hread : tokens'.take read.length = read := by
    refine List.ext_getElem? fun i => ?_
    by_cases hi : i < read.length
    · rw [List.getElem?_take_of_lt hi, h i (by omega), List.getElem?_append_left hi]
    · rw [List.getElem?_eq_none (by simp; omega), List.getElem?_eq_none (by omega)]
  have hrest (i : Nat) (hi : i ≤ 1) : (tokens'.drop read.length)[i]? = rest[i]? := by
    rw [List.getElem?_drop, h _ (by omega), List.getElem?_append_right (by omega)]
    congr 1
    omega
  refine ⟨tokens'.drop read.length, ?_, ?_, fun _ => by rw [hrest 1 (by omega)]⟩
  · conv_lhs => rw [← List.take_append_drop read.length tokens', hread]
  · rw [List.head?_eq_getElem?, List.head?_eq_getElem?, hrest 0 (by omega)]

/-- Reading a formula does the same on tokens that agree up to one place behind where it stops. -/
theorem Parser.exists_resume_formula (a : Alphabet) (limit : Nat) (tokens tokens' : List Symbol)
    (h : AgreeUpTo ((scanOf (formula a limit 0 { rest := tokens })).position + 1) tokens tokens') :
    ∃ rest', rest'.head? = (scanOf (formula a limit 0 { rest := tokens })).rest.head? ∧
      formula a limit 0 { rest := tokens' } =
        resume rest' (formula a limit 0 { rest := tokens }) := by
  obtain ⟨read, hrest, hposition⟩ := advances_formula (a := a) limit 0 { rest := tokens }
  simp only [Nat.zero_add] at hrest hposition
  rw [hposition, hrest] at h
  obtain ⟨rest', rfl, halike⟩ := h.exists_looksAlike a
  exact ⟨rest', halike.next, peeks_formula limit 0 { rest := tokens } read rest' hrest halike⟩

/-- An error that is placed at a token is settled by the tokens up to the one behind it: whatever
follows these or does not, the same error is raised. -/
theorem parse_error_of_agreeUpTo {e : ParseError} (h : parse a limit tokens = .error e)
    (hposition : e.position? = some position) (hagree : AgreeUpTo (position + 1) tokens tokens') :
    parse a limit tokens' = .error e := by
  have hne : tokens ≠ [] := by
    rintro rfl
    cases h
    cases hposition
  have hne' : tokens' ≠ [] := by
    rintro rfl
    have hfirst := hagree 0 (Nat.zero_le _)
    exact hne (List.head?_eq_none_iff.1 (List.head?_eq_getElem? ▸ hfirst.symm))
  have hresume := Parser.exists_resume_formula a limit tokens tokens'
  rw [parse, attempt_eq hne] at h
  rw [parse, attempt_eq hne']
  cases hrun : Parser.formula a limit 0 { rest := tokens } with
  | error e' t =>
    rw [hrun] at h hresume
    cases h
    obtain rfl := (Parser.locates_formula limit 0 _ _ t hrun).position?_eq hposition
    obtain ⟨rest', -, hrun'⟩ := hresume hagree
    rw [hrun']
    rfl
  | ok _ t =>
    rw [hrun] at h hresume
    cases hrest : t.rest with
    | nil =>
      simp only [hrest] at h
      split at h
      · cases h
        cases hposition
      · cases h
    | cons found rest =>
      simp only [hrest] at h
      cases h
      obtain rfl : t.position = position := Option.some.inj hposition
      obtain ⟨rest', hhead, hrun'⟩ := hresume hagree
      obtain ⟨more, rfl⟩ :=
        List.head?_eq_some_iff.1 (hhead.trans (by rw [Parser.scanOf, hrest]; rfl))
      rw [hrun']
      rfl

/-- In `( P = x )` the predicate symbol is blamed for the equality symbol behind it. What follows
the equality symbol has no part in this. -/
theorem parse_error_of_agreeUpTo_sample :
    parse .sample 6 [⟨"("⟩, ⟨"P"⟩, ⟨"="⟩, ⟨"x"⟩, ⟨")"⟩] =
        .error (.expected .term "a variable or constant" ⟨"P"⟩ 1) ∧
      AgreeUpTo 2 [⟨"("⟩, ⟨"P"⟩, ⟨"="⟩, ⟨"x"⟩, ⟨")"⟩] [⟨"("⟩, ⟨"P"⟩, ⟨"="⟩] ∧
      parse .sample 6 [⟨"("⟩, ⟨"P"⟩, ⟨"="⟩] =
        .error (.expected .term "a variable or constant" ⟨"P"⟩ 1) := by
  have hparse : parse .sample 6 [⟨"("⟩, ⟨"P"⟩, ⟨"="⟩, ⟨"x"⟩, ⟨")"⟩] =
      .error (.expected .term "a variable or constant" ⟨"P"⟩ 1) := rfl
  have hagree : AgreeUpTo 2 [⟨"("⟩, ⟨"P"⟩, ⟨"="⟩, ⟨"x"⟩, ⟨")"⟩] [⟨"("⟩, ⟨"P"⟩, ⟨"="⟩] := by decide
  exact ⟨hparse, hagree, parse_error_of_agreeUpTo hparse rfl hagree⟩

end Formulary
