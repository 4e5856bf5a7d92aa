import Formulary.Proofs.Lookahead
import Formulary.Proofs.Parser.Openings

/-!
Nodes are paid for by tokens. A node costs two and a token pays five when it is read, so that the
leaf for a token leaves three. Nodes are opened before the tokens below them are read, and so a run
needs something in advance; what it needs for a formula it has at the start, and a formula leaves
enough for the nodes around it, however deep formulas nest.
-/

namespace Formulary

def Move.token? : Move → Option Symbol
  | .shift token => some token
  | _ => none

/-- The tokens that some moves read. -/
def consumed (moves : List Move) : List Symbol := moves.filterMap Move.token?

theorem consumed_concat (moves : List Move) (m : Move) :
    consumed (moves ++ [m]) = consumed moves ++ m.token?.toList := by
  rw [consumed, consumed, List.filterMap_append]
  cases m <;> rfl

/-- What a move leaves of what its token pays, if it reads one, when its node is paid for. -/
def Move.gain : Move → Int
  | .select .. => 0
  | .enter _ => -2
  | .shift _ => 3
  | .leave => 0

/-- What is to spare after some moves. -/
def spare : List Move → Int
  | [] => 6
  | m :: moves => spare moves + m.gain

theorem spare_append (moves moves' : List Move) :
    spare (moves ++ moves') = spare moves + spare moves' - 6 := by
  induction moves with
  | nil => simp only [List.nil_append, spare]; omega
  | cons m moves ih => simp only [List.cons_append, spare, ih]; omega

theorem spare_reverse (moves : List Move) : spare moves.reverse = spare moves := by
  induction moves with
  | nil => rfl
  | cons m moves ih =>
    rw [List.reverse_cons, spare_append, ih]
    simp only [spare]
    omega

/-- Whether a scan has read what is missing of some tokens, and never had less than two to spare. -/
structure Scan.Solvent (tokens : List Symbol) (s : Scan) : Prop where
  read : consumed s.moves.reverse ++ s.rest = tokens
  enough : ∀ earlier, earlier <:+ s.moves → 2 ≤ spare earlier

namespace Scan.Solvent

variable {tokens : List Symbol} {s : Scan}

theorem two_le (h : s.Solvent tokens) : 2 ≤ spare s.moves :=
  h.enough _ (List.suffix_refl _)

theorem start (tokens : List Symbol) : Scan.Solvent tokens { rest := tokens } where
  read := rfl
  enough earlier h := by
    rw [List.suffix_nil.1 h]
    decide

theorem cons {m : Move} {rest : List Symbol} {position : Nat} (h : s.Solvent tokens)
    (hread : m.token?.toList ++ rest = s.rest) (hspare : 2 ≤ spare (m :: s.moves)) :
    Scan.Solvent tokens ⟨rest, position, m :: s.moves⟩ where
  read := by
    rw [← h.read, ← hread, List.reverse_cons, consumed_concat, List.append_assoc]
  enough earlier hearlier := by
    rcases List.suffix_cons_iff.1 hearlier with rfl | hearlier
    · exact hspare
    · exact h.enough earlier hearlier

theorem noted {m : Move} (h : s.Solvent tokens) (hm : m.token? = none)
    (hspare : 2 ≤ spare (m :: s.moves)) : (s.noted m).Solvent tokens :=
  h.cons (by rw [hm]; rfl) hspare

theorem shift {t : Symbol} {rest : List Symbol} (h : s.Solvent tokens)
    (hrest : s.rest = t :: rest) :
    Scan.Solvent tokens ⟨rest, s.position + 1, .shift t :: s.moves⟩ := by
  refine h.cons hrest.symm ?_
  have htwo := h.two_le
  rw [spare, Move.gain]
  omega

end Scan.Solvent

namespace Parser

variable {a : Alphabet} {tokens : List Symbol} {p q : Parser Unit} {needs needs' gain gain' : Int}

/-- Whether a parser that has enough to spare never runs short, and gains so much if it succeeds. -/
def Grows (tokens : List Symbol) (needs gain : Int) (p : Parser Unit) : Prop :=
  ∀ s : Scan, s.Solvent tokens → needs ≤ spare s.moves →
    Ends p s (fun t => t.Solvent tokens ∧ spare s.moves + gain ≤ spare t.moves)
      fun _ t => t.Solvent tokens

theorem Grows.imp (h : Grows tokens needs gain p) (hneeds : needs ≤ needs') (hgain : gain' ≤ gain) :
    Grows tokens needs' gain' p := by
  intro s hs henough
  refine (h s hs (by omega)).imp ?_ fun _ _ ht => ht
  rintro t ⟨ht, hspare⟩
  exact ⟨ht, by omega⟩

theorem Grows.seq (h : Grows tokens needs gain p) (h' : Grows tokens needs' gain' q)
    (hneeds : needs' ≤ needs + gain) : Grows tokens needs (gain + gain') (do p; q) := by
  intro s hs henough
  refine (h s hs henough).seq ?_
  rintro t ⟨ht, hspare⟩
  refine (h' t ht (by omega)).imp ?_ fun _ _ hu => hu
  rintro u ⟨hu, hspare'⟩
  exact ⟨hu, by omega⟩

/-- A node is paid for when it is opened. -/
theorem Grows.within (h : Grows tokens needs gain p) (hneeds : 2 ≤ needs) (nt : NonTerminal) :
    Grows tokens (needs + 2) (gain - 2) (within nt p) := by
  intro s hs henough
  have henter : spare (s.noted (.enter nt)).moves = spare s.moves - 2 := rfl
  refine Ends.within ((h _ (hs.noted rfl ?_) (by omega)).imp ?_ fun _ _ ht => ht)
  · change 2 ≤ spare (s.noted (.enter nt)).moves
    omega
  · rintro t ⟨ht, hspare⟩
    have hleave : spare (t.noted .leave).moves = spare t.moves := by
      rw [Scan.noted, spare, Move.gain, Int.add_zero]
    refine ⟨ht.noted rfl ?_, by omega⟩
    change 2 ≤ spare (t.noted .leave).moves
    exact hleave ▸ ht.two_le

theorem grows_pure : Grows tokens 2 0 (pure ()) :=
  fun _ hs _ => ⟨hs, by omega⟩

theorem grows_fail (nt : NonTerminal) (wanted : String) (needs gain : Int) :
    Grows tokens needs gain (fail nt wanted) := by
  intro s hs _
  refine (ends_fail nt wanted s).imp (fun _ h => h) ?_
  rintro e t ⟨rfl, -⟩
  exact hs

/-- The token that is read next pays for its leaf, and leaves three. -/
theorem ends_shift_solvent {s : Scan} {fault : ParseError → Scan → Prop}
    (h : s.Solvent tokens) (hrest : s.rest ≠ []) :
    Ends shift s (fun t => t.Solvent tokens ∧ spare s.moves + 3 ≤ spare t.moves) fault := by
  obtain ⟨t, rest, hrest⟩ := List.exists_cons_of_ne_nil hrest
  unfold Ends
  rw [shift_apply hrest]
  refine ⟨h.shift hrest, ?_⟩
  change spare s.moves + 3 ≤ spare (.shift t :: s.moves)
  exact Int.le_refl _

theorem rest_ne_nil_of_any {s : Scan} {test : Symbol → Bool}
    (h : s.rest.head?.any test = true) : s.rest ≠ [] := by
  intro hrest
  rw [hrest] at h
  cases h

theorem Grows.of_sees {test : Symbol → Bool} (hp : Grows tokens needs gain p)
    (hq : Grows tokens needs gain q) :
    Grows tokens needs gain (do if ← sees test then p else q) :=
  fun s hs henough => ends_sees (fun _ => hp s hs henough) fun _ => hq s hs henough

theorem grows_expect (nt : NonTerminal) (wanted : String) (test : Symbol → Bool) :
    Grows tokens 2 3 (expect nt wanted test) :=
  fun s hs henough => ends_sees (fun h => ends_shift_solvent hs (rest_ne_nil_of_any h))
    fun _ => grows_fail nt wanted 2 3 s hs henough

theorem grows_literal (nt : NonTerminal) (t : Symbol) : Grows tokens 2 3 (literal nt t) :=
  grows_expect nt _ _

/-- A category with one token below it. -/
theorem grows_one (nt : NonTerminal) (wanted : String) (test : Symbol → Bool) :
    Grows tokens 4 1 (Parser.within nt (expect nt wanted test)) :=
  (grows_expect nt wanted test).within (by decide) nt

theorem grows_term : Grows tokens 6 (-1) (term a) :=
  ((grows_one _ _ _).of_sees ((grows_one _ _ _).of_sees (grows_fail _ _ _ _))).within (by decide) _

theorem grows_varList (commas : Nat) : Grows tokens 6 (-1) (varList a commas) := by
  induction commas with
  | zero => exact (grows_one _ _ _).within (by decide) _
  | succ commas ih =>
    have hrest : Grows tokens 5 0 (do if ← sees (· = .comma) then do shift; varList a commas) := by
      intro s hs henough
      refine ends_sees (fun h => ?_) fun _ => (grows_pure.imp (by omega) (by omega)) s hs henough
      refine (ends_shift_solvent hs (rest_ne_nil_of_any h)).seq ?_
      rintro t ⟨ht, hspare⟩
      refine (ih t ht (by omega)).imp ?_ fun _ _ hu => hu
      rintro u ⟨hu, hspare'⟩
      exact ⟨hu, by omega⟩
    exact ((grows_one _ _ _).seq hrest (by decide)).within (by decide) _

theorem grows_predicate : Grows tokens 6 4 (predicate a) := by
  have hargs : Grows tokens 6 2 (do
      varList a (← get).rest.length
      literal .predicate .closeParen) := by
    intro s hs henough
    have hlist : Grows tokens 6 (-1) (varList a s.rest.length) := grows_varList _
    exact (hlist.seq (grows_literal .predicate .closeParen) (by decide)) s hs henough
  have hopened : Grows tokens 3 3 (literal .predicate .openParen) :=
    (grows_literal _ _).imp (by decide) (by decide)
  exact ((grows_one _ _ _).seq (hopened.seq hargs (by decide)) (by decide)).within (by decide) _

/-- The token with which a formula begins pays for nodes that come behind it. -/
theorem ends_opened {s : Scan} (h : Grows tokens 9 (-1) p) (hs : s.Solvent tokens)
    (hrest : s.rest ≠ []) (henough : 6 ≤ spare s.moves) :
    Ends (do shift; p) s (fun t => t.Solvent tokens ∧ spare s.moves + 2 ≤ spare t.moves)
      fun _ t => t.Solvent tokens := by
  refine (ends_shift_solvent hs hrest).seq ?_
  rintro t ⟨ht, hspare⟩
  refine (h t ht (by omega)).imp ?_ fun _ _ hu => hu
  rintro u ⟨hu, hspare'⟩
  exact ⟨hu, by omega⟩

/-- By a rule that applies, a formula leaves two if the formulas inside do. -/
theorem ends_byRule_solvent {inner : Parser Unit} {r : FormulaRule} {s : Scan}
    (hinner : Grows tokens 6 2 inner) (hs : s.Solvent tokens)
    (hr : r.applies a.toSignature s.rest = true) (henough : 6 ≤ spare s.moves) :
    Ends (byRule a inner r) s
      (fun t => t.Solvent tokens ∧ spare s.moves + 2 ≤ spare t.moves)
      fun _ t => t.Solvent tokens := by
  have hbelow : Grows tokens 8 0 (Parser.within .formula inner) :=
    hinner.within (by decide) .formula
  have hclose : Grows tokens 2 3 (literal .formula .closeParen) := grows_literal _ _
  have hrest : s.rest ≠ [] := by
    obtain ⟨z, _, more, hrest⟩ := FormulaRule.exists_of_applies hr
    rw [hrest]
    exact List.cons_ne_nil z more
  cases r with
  | binary =>
    have hconnective : Grows tokens 7 1 (connective a) :=
      (grows_one _ _ _).imp (by decide) (by decide)
    have hright := hconnective.seq (hbelow.seq hclose (by decide)) (by decide)
    have hleft := hbelow.seq hright (by decide)
    exact ends_opened (hleft.imp (by decide) (by decide)) hs hrest henough
  | equation =>
    have hequality : Grows tokens 3 3 (literal .formula a.equality) :=
      (grows_literal _ _).imp (by decide) (by decide)
    have hterm : Grows tokens 6 (-1) (term a) := grows_term
    have hright := hequality.seq (hterm.seq hclose (by decide)) (by decide)
    have hleft := hterm.seq hright (by decide)
    exact ends_opened (hleft.imp (by decide) (by decide)) hs hrest henough
  | quantified =>
    have hvar : Grows tokens 7 1 (var a) := (grows_one _ _ _).imp (by decide) (by decide)
    have hquantifier : Grows tokens 6 1 (quantifier a) :=
      (grows_one _ _ _).imp (by decide) (by decide)
    exact (hquantifier.seq (hvar.seq hbelow (by decide)) (by decide)) s hs henough
  | negation => exact ends_opened (hbelow.imp (by decide) (by decide)) hs hrest henough
  | atom => exact (grows_predicate.imp (by decide) (by decide)) s hs henough

/-- A formula needs six in advance and leaves two, however deep it nests. -/
theorem grows_formula (budget depth : Nat) : Grows tokens 6 2 (formula a budget depth) := by
  induction budget generalizing depth with
  | zero => exact fun s hs _ => hs
  | succ budget ih =>
    intro s hs henough
    have hselect (rule : Option FormulaRule) :
        spare (s.noted (.select rule s.position (depth + 1))).moves = spare s.moves := by
      rw [Scan.noted, spare, Move.gain, Int.add_zero]
    have hnoted (rule : Option FormulaRule) :
        (s.noted (.select rule s.position (depth + 1))).Solvent tokens :=
      hs.noted rfl ((hselect rule).symm ▸ hs.two_le)
    unfold Ends
    cases hr : FormulaRule.select? a.toSignature s.rest with
    | none =>
      rw [formula_of_none hr]
      rw [← hselect none] at henough ⊢
      exact grows_fail _ _ 6 2 _ (hnoted none) henough
    | some r =>
      rw [formula_of_some hr]
      have happlies := (FormulaRule.select?_eq_some_iff a s.rest r).1 hr
      rw [← hselect (some r)] at henough ⊢
      exact ends_byRule_solvent (ih (depth + 1)) (hnoted (some r)) happlies henough

end Parser

end Formulary
