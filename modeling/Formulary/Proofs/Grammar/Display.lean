import Formulary.Proofs.Grammar.Terminals

/-!
Grammars as they are displayed. A non-terminal has a star behind its letter, and no text is
displayed for two symbols of a grammar unless a symbol is declared that is spelled so.
-/

namespace Formulary

open Text

/-- An alternative as it is displayed in a rule. -/
def GrammarSymbol.spaced (alt : List GrammarSymbol) : String :=
  " ".intercalate (alt.map GrammarSymbol.shown)

theorem Rule.shown_eq (r : Rule) :
    r.shown =
      let rhs := " | ".intercalate (r.alternatives.map GrammarSymbol.spaced)
      if rhs = "" then r.lhs.starred ++ " ->" else r.lhs.starred ++ " -> " ++ rhs := rfl

namespace NonTerminal

theorem starred_injective {nt nt' : NonTerminal} (h : nt.starred = nt'.starred) : nt = nt' :=
  letter_injective ((String.append_left_inj "*").1 h)

theorem unbroken_starred (nt : NonTerminal) : ∀ c ∈ nt.starred.toList, isBlank c = false :=
  not_blank_of_any (by cases nt <;> decide)

end NonTerminal

namespace Alphabet

variable {a : Alphabet}

/-- A terminal is displayed as a non-terminal is just if a symbol is declared that is spelled so. -/
theorem starred_mem_terminals_iff (h : ∀ t ∈ a.symbols, t.Canonical) (nt : NonTerminal) :
    nt.starred ∈ a.grammar.terminals ↔ Symbol.ofText nt.starred ∈ a.symbols := by
  rw [Signature.mem_terminals_iff]
  constructor
  · rintro ⟨t, ht | ht, heq⟩
    · rw [← heq, h t ht]
      exact ht
    · have hapart : ∀ t ∈ Symbol.punctuation, t.shown ≠ nt.starred := by cases nt <;> decide
      exact absurd heq (hapart t ht)
  · intro ht
    exact ⟨_, .inl ht, Symbol.shown_ofText nt.starred⟩

/-- What a rule uses can be told from what is displayed of it if no terminal is displayed as a
non-terminal is. -/
theorem eq_of_shown_of_uses (h : ∀ nt, NonTerminal.starred nt ∉ a.grammar.terminals)
    {c c' : GrammarSymbol} (hc : a.grammar.Uses c) (hc' : a.grammar.Uses c')
    (hshown : c.shown = c'.shown) : c = c' := by
  cases c with
  | terminal w =>
    cases c' with
    | terminal w' => exact congrArg GrammarSymbol.terminal hshown
    | nonTerminal nt =>
      obtain rfl : w = nt.starred := hshown
      exact absurd ((a.mem_terminals_iff_uses _).2 hc) (h nt)
  | nonTerminal nt =>
    cases c' with
    | terminal w =>
      obtain rfl : nt.starred = w := hshown
      exact absurd ((a.mem_terminals_iff_uses _).2 hc') (h nt)
    | nonTerminal nt' => rw [NonTerminal.starred_injective hshown]

theorem unbroken_of_uses (h : ∀ t ∈ a.symbols, t.Legible) {c : GrammarSymbol}
    (hc : a.grammar.Uses c) : ∀ d ∈ c.shown.toList, isBlank d = false := by
  cases c with
  | nonTerminal nt => exact nt.unbroken_starred
  | terminal w =>
    obtain ⟨t, ht, rfl⟩ := (Signature.mem_terminals_iff w).1 ((a.mem_terminals_iff_uses w).2 hc)
    exact (ht.elim (h t) Symbol.legible_of_mem_punctuation).unbroken

/-- The items of a displayed alternative are what stands between its spaces. -/
theorem pieces_spaced (h : ∀ t ∈ a.symbols, t.Legible) {r : Rule} (hr : r ∈ a.grammar.rules)
    {alt : List GrammarSymbol} (halt : alt ∈ r.alternatives) :
    pieces (GrammarSymbol.spaced alt).toList = alt.map (·.shown.toList) := by
  obtain ⟨labels, hlabels, hpublished⟩ :=
    (Signature.mem_alternatives_iff r.lhs alt).1 ⟨r, hr, rfl, halt⟩
  have hne : alt.map (·.shown.toList) ≠ [] := by simpa [← hpublished] using hlabels.ne_nil
  have hchars :
      (GrammarSymbol.spaced alt).toList = [' '].intercalate (alt.map (·.shown.toList)) := by
    rw [GrammarSymbol.spaced, String.toList_intercalate, List.map_map]
    rfl
  rw [hchars, pieces_intercalate hne]
  intro w hw
  obtain ⟨c, hc, rfl⟩ := List.mem_map.1 hw
  exact unbroken_of_uses h ⟨r, hr, alt, halt, hc⟩

/-- An alternative can be told from how it is displayed if no terminal is displayed as a
non-terminal is. -/
theorem eq_of_spaced_eq (hsymbols : ∀ t ∈ a.symbols, t.Legible)
    (h : ∀ nt, NonTerminal.starred nt ∉ a.grammar.terminals) {r r' : Rule}
    (hr : r ∈ a.grammar.rules) (hr' : r' ∈ a.grammar.rules) {alt alt' : List GrammarSymbol}
    (halt : alt ∈ r.alternatives) (halt' : alt' ∈ r'.alternatives)
    (hspaced : GrammarSymbol.spaced alt = GrammarSymbol.spaced alt') : alt = alt' := by
  refine map_cancel (f := (·.shown.toList)) (fun c hc c' hc' heq => ?_) ?_
  · exact eq_of_shown_of_uses h ⟨r, hr, alt, halt, hc⟩ ⟨r', hr', alt', halt', hc'⟩
      (String.toList_inj.1 heq)
  · rw [← pieces_spaced hsymbols hr halt, hspaced, pieces_spaced hsymbols hr' halt']

end Alphabet

/-- In the grammar of an alphabet that a text declares, a terminal is displayed as a non-terminal
is exactly if a symbol is declared with the non-terminal's spelling; if there is none, the
displayed alternatives of the rules tell what they consist of. -/
theorem Grammar.starred_apart (text : String) {a : Alphabet}
    (h : (Definition.ofText text).declaration.validate = .ok a) :
    (∀ nt, NonTerminal.starred nt ∈ a.grammar.terminals ↔
      Symbol.ofText nt.starred ∈ a.symbols) ∧
    ((∀ nt, Symbol.ofText (NonTerminal.starred nt) ∉ a.symbols) →
      ∀ r ∈ a.grammar.rules, ∀ alt ∈ r.alternatives, ∀ r' ∈ a.grammar.rules,
        ∀ alt' ∈ r'.alternatives,
          GrammarSymbol.spaced alt = GrammarSymbol.spaced alt' → alt = alt') := by
  have hlegible : ∀ t ∈ a.symbols, t.Legible := fun t => Definition.legible_of_mem_symbols h
  have hstarred := a.starred_mem_terminals_iff fun t ht => (hlegible t ht).canonical
  refine ⟨hstarred, fun hnone r hr alt halt r' hr' alt' halt' => ?_⟩
  have hapart := fun nt => mt (hstarred nt).1 (hnone nt)
  exact Alphabet.eq_of_spaced_eq hlegible hapart hr hr' halt halt'

/-- No symbol of the sample alphabet is spelled with a star, so that the alternatives of a rule are
displayed differently. -/
theorem Grammar.starred_apart_sample :
    (Definition.ofText Definition.sampleText).declaration.validate = .ok .sample ∧
      (∀ nt, Symbol.ofText (NonTerminal.starred nt) ∉ Alphabet.sample.symbols) ∧
      (∀ nt, NonTerminal.starred nt ∉ Alphabet.sample.grammar.terminals) ∧
      ∀ r ∈ Alphabet.sample.grammar.rules, (r.alternatives.map GrammarSymbol.spaced).Nodup := by
  have hvalid := Definition.validate_sampleText
  have hnone : ∀ nt, Symbol.ofText (NonTerminal.starred nt) ∉ Alphabet.sample.symbols := by
    intro nt
    cases nt <;> decide
  have hdifferent : ∀ r ∈ Alphabet.sample.grammar.rules, r.alternatives.Nodup := by decide
  obtain ⟨hstarred, hdisplayed⟩ := Grammar.starred_apart _ hvalid
  refine ⟨hvalid, hnone, fun nt => mt (hstarred nt).1 (hnone nt), fun r hr => ?_⟩
  refine (hdifferent r hr).map_on fun alt halt alt' halt' => ?_
  exact hdisplayed hnone r hr alt halt r hr alt' halt'

/-- An alphabet with a variable that is spelled as the non-terminal for formulas is displayed. -/
def Alphabet.starred : Alphabet where
  vars := [⟨"F*"⟩]
  constants := []
  predicates := []
  equality := ⟨"="⟩
  connectives := ⟨⟨"and"⟩, ⟨"or"⟩, ⟨"implies"⟩, ⟨"iff"⟩, ⟨"not"⟩⟩
  quantifiers := ⟨⟨"forall"⟩, ⟨"exists"⟩⟩
  distinct := by decide
  unreserved := by decide

def Definition.starredText : String :=
  "variables: F*\nequality: =\nconnectives: and or implies iff not\nquantifiers: forall exists"

/-- A star does not keep non-terminals apart from all the terminals that can be declared. -/
theorem Grammar.starred_not_apart :
    ¬ ∀ (text : String) (a : Alphabet), (Definition.ofText text).declaration.validate = .ok a →
      ∀ nt, NonTerminal.starred nt ∉ a.grammar.terminals := by
  intro h
  have hsignature : (Definition.ofText Definition.starredText).declaration.signature =
      .ok Alphabet.starred.toSignature := by decide +kernel
  have hvalid := Declaration.validate_eq_ok_iff.2 ⟨hsignature, by decide⟩
  exact h Definition.starredText .starred hvalid .formula (by decide)

end Formulary
