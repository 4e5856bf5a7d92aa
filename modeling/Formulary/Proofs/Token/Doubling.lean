import Formulary.Proofs.Text.Plain
import Formulary.Proofs.Token.Munch
import Formulary.Symbol
import Mathlib.Algebra.Ring.Parity

/-!
Doubled backslashes. What is written with every backslash doubled is what has an even number of
them in each run, and such a text alone is found again after it was shown. Doubling splits a text
into the same tokens, each doubled.
-/

namespace Formulary

namespace Text

/-- Whether backslashes stand in pairs: every run of them that goes on in neither direction has an
even length. -/
def Paired (cs : List Char) : Prop :=
  ∀ before n after, cs = before ++ (List.replicate n '\\' ++ after) →
    before.getLast? ≠ some '\\' → after.head? ≠ some '\\' → Even n

variable {c : Char} {cs : List Char}

theorem paired_nil : Paired [] := by
  intro before n after h _ _
  obtain ⟨-, h⟩ := List.append_eq_nil_iff.1 h.symm
  obtain ⟨hn, -⟩ := List.append_eq_nil_iff.1 h
  obtain rfl : n = 0 := by simpa using hn
  exact Even.zero

theorem paired_cons_iff (hc : c ≠ '\\') : Paired (c :: cs) ↔ Paired cs := by
  constructor
  · intro h before n after hcs hbefore hafter
    refine h (c :: before) n after (by rw [hcs, List.cons_append]) ?_ hafter
    cases before with
    | nil => simpa using hc
    | cons d before => rwa [List.getLast?_cons_cons]
  · intro h before n after hcs hbefore hafter
    cases before with
    | nil =>
      cases n with
      | zero => exact Even.zero
      | succ n => exact absurd (List.cons.inj hcs).1 hc
    | cons d before =>
      refine h before n after (List.cons.inj hcs).2 ?_ hafter
      intro hlast
      exact hbefore (by rw [List.getLast?_cons, hlast, Option.getD_some])

/-- A run of backslashes either begins with both of the first two or stands behind them. -/
theorem paired_slashes_iff : Paired ('\\' :: '\\' :: cs) ↔ Paired cs := by
  constructor
  · intro h before n after hcs hbefore hafter
    cases before with
    | nil =>
      have heven : Even (n + 2) := h [] (n + 2) after (by simp [hcs, List.replicate_succ])
        hbefore hafter
      simpa [Nat.even_add_one] using heven
    | cons d before =>
      refine h ('\\' :: '\\' :: d :: before) n after (by simp [hcs]) ?_ hafter
      rwa [List.getLast?_cons_cons, List.getLast?_cons_cons]
  · intro h before n after hcs hbefore hafter
    match before, n with
    | [], 0 => exact Even.zero
    | [], 1 => exact absurd (by simpa using congrArg List.head? (List.cons.inj hcs).2.symm) hafter
    | [], n + 2 =>
      have hrest : cs = [] ++ (List.replicate n '\\' ++ after) := by
        simpa [List.replicate_succ] using hcs
      exact (h [] n after hrest hbefore hafter).add_one.add_one
    | [d], n =>
      obtain rfl : '\\' = d := (List.cons.inj hcs).1
      exact absurd rfl hbefore
    | d :: e :: before, n =>
      refine h before n after (by simpa using (List.cons.inj (List.cons.inj hcs).2).2) ?_ hafter
      intro hlast
      exact hbefore (by rw [List.getLast?_cons_cons, List.getLast?_cons, hlast, Option.getD_some])

theorem not_paired_slash (h : cs.head? ≠ some '\\') : ¬ Paired ('\\' :: cs) := by
  intro hpaired
  have hodd : Even 1 := hpaired [] 1 cs rfl (by simp) h
  exact absurd hodd (by decide)

/-- A text is found again after it was shown if its backslashes stand in pairs, and only then.
Reading takes a pair of backslashes, another character, or a backslash without a partner, and of
these only the last is not undone by writing. -/
theorem escape_unescape_iff (cs : List Char) : escape (unescape cs) = cs ↔ Paired cs := by
  fun_induction unescape cs with
  | case1 => exact iff_of_true rfl paired_nil
  | case2 cs ih => simp [escape, paired_slashes_iff, ih]
  | case3 c cs hpair ih =>
    by_cases hc : c = '\\'
    · subst hc
      have hhead : cs.head? ≠ some '\\' := by
        intro hhead
        obtain ⟨more, rfl⟩ := List.head?_eq_some_iff.1 hhead
        exact hpair more rfl rfl
      refine iff_of_false ?_ (not_paired_slash hhead)
      intro heq
      rw [escape, if_pos rfl] at heq
      exact hhead (by rw [← (List.cons.inj heq).2, List.head?_cons])
    · rw [paired_cons_iff hc, ← ih, escape, if_neg hc, List.cons.injEq]
      exact and_iff_right rfl

/-! Doubling in parts of a text. -/

theorem escape_append (cs ds : List Char) : escape (cs ++ ds) = escape cs ++ escape ds := by
  induction cs with
  | nil => rfl
  | cons c cs ih => by_cases h : c = '\\' <;> simp [escape, h, ih]

theorem head?_escape (cs : List Char) : (escape cs).head? = cs.head? := by
  cases cs with
  | nil => rfl
  | cons c cs => by_cases h : c = '\\' <;> simp [escape, h]

theorem escape_ne_nil (h : cs ≠ []) : escape cs ≠ [] := by
  intro hnil
  exact h (by rw [← unescape_escape cs, hnil, unescape])

end Text

open Text Token

variable {p : Pattern} {lexeme rest : List Char}

theorem Pattern.Matches.escape (h : p.Matches lexeme) : p.Matches (Text.escape lexeme) := by
  cases p with
  | blanks => exact ⟨escape_ne_nil h.1, fun c hc => h.2 c (mem_of_mem_escape hc)⟩
  | word => exact ⟨escape_ne_nil h.1, fun c hc => h.2 c (mem_of_mem_escape hc)⟩
  | openParen =>
    obtain rfl : lexeme = ['('] := h
    rfl
  | closeParen =>
    obtain rfl : lexeme = [')'] := h
    rfl
  | comma =>
    obtain rfl : lexeme = [','] := h
    rfl

/-- Doubling changes neither what a pattern matches nor where the match ends. -/
theorem Pattern.Longest.escape (h : p.Longest lexeme rest) :
    p.Longest (Text.escape lexeme) (Text.escape rest) := by
  obtain ⟨hmatches, hnext⟩ := longest_iff.1 h
  refine longest_iff.2 ⟨hmatches.escape, ?_⟩
  rwa [head?_escape]

theorem Token.map_spelling_scan_escape (offset offset' : Nat) (cs : List Char) :
    (scan offset' (escape cs)).map spelling = ((scan offset cs).map spelling).map escape := by
  generalize htokens : scan offset cs = tokens
  have h : Munches offset cs tokens := htokens ▸ munches_scan offset cs
  clear htokens
  induction h generalizing offset' with
  | finish => rfl
  | skip cut hkind _ ih =>
    rw [escape_append, scan_longest cut.escape, hkind, ← ih]
    rfl
  | take cut hkind _ ih =>
    rw [escape_append, scan_longest cut.escape, hkind, List.map_cons, List.map_cons, ← ih]
    rfl

namespace Symbol

/-- The tokens of a doubled text are those of the text, doubled. -/
theorem tokenize_stored_ofText (text : String) :
    tokenize (ofText text).stored = (tokenize text).map fun w => (ofText w).stored := by
  have hscan := map_spelling_scan_escape 0 0 text.toList
  calc tokenize (ofText text).stored
      = ((scan 0 (escape text.toList)).map spelling).map String.ofList := tokenize_ofList _ 0
    _ = (tokenize text).map fun w => (ofText w).stored := by
        rw [hscan, tokenize, tokensOf, List.map_map, List.map_map, List.map_map]
        refine List.map_congr_left fun t _ => ?_
        simp [ofText, Token.text]

/-- A text is shown as it was before it was doubled. The symbols that are doubled texts are those
whose backslashes stand in pairs, and they alone are read where they are shown. Doubling and
cutting into tokens can be done in either order. -/
theorem doubling_exact :
    (∀ text : String, (ofText text).shown = text) ∧
      (∀ s : Symbol, ofText s.shown = s ↔ Paired s.stored.toList) ∧
      (∀ s : Symbol, (∃ text, ofText text = s) ↔ Paired s.stored.toList) ∧
      ∀ text : String,
        tokenize (ofText text).stored = (tokenize text).map fun w => (ofText w).stored := by
  have hread (s : Symbol) : ofText s.shown = s ↔ Paired s.stored.toList := by
    obtain ⟨stored⟩ := s
    rw [← escape_unescape_iff]
    simp only [ofText, shown, Symbol.mk.injEq, ← String.toList_inj, String.toList_ofList]
  refine ⟨shown_ofText, hread, fun s => ?_, tokenize_stored_ofText⟩
  rw [← hread]
  constructor
  · rintro ⟨text, rfl⟩
    rw [shown_ofText]
  · intro h
    exact ⟨s.shown, h⟩

end Symbol

end Formulary
