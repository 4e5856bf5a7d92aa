import Formulary.Proofs.Grammar.Language

/-!
Terminals of published grammars. The terminals that a grammar lists are those that its rules use,
each of them once, and the rules of the classes have an alternative for each declared symbol.
-/

namespace Formulary

/-- Whether a symbol occurs in an alternative of a grammar. -/
def Grammar.Uses (g : Grammar) (c : GrammarSymbol) : Prop :=
  ∃ r ∈ g.rules, ∃ alt ∈ r.alternatives, c ∈ alt

/-- The declared symbols that a category derives, if it derives single symbols only; the last
connective is the negation, which is no alternative of its own. -/
def NonTerminal.declared? (d : Declaration) : NonTerminal → Option (List Symbol)
  | .var => some d.vars
  | .constant => some d.constants
  | .predicateSymbol => some (d.predicates.map PredicateDecl.symbol)
  | .connective => some d.connectives.dropLast
  | .quantifier => some d.quantifiers
  | .formula | .predicate | .term | .varList => none

namespace Signature

variable {s : Signature}

theorem uses_iff (c : GrammarSymbol) :
    s.grammar.Uses c ↔ ∃ nt labels, s.Produces nt labels ∧ ∃ l ∈ labels, l.published = c := by
  constructor
  · rintro ⟨r, hr, alt, halt, hc⟩
    obtain ⟨labels, hlabels, rfl⟩ := (mem_alternatives_iff r.lhs alt).1 ⟨r, hr, rfl, halt⟩
    obtain ⟨l, hl, rfl⟩ := List.mem_map.1 hc
    exact ⟨r.lhs, labels, hlabels, l, hl, rfl⟩
  · rintro ⟨nt, labels, hlabels, l, hl, rfl⟩
    obtain ⟨r, hr, -, halt⟩ := (mem_alternatives_iff nt _).2 ⟨labels, hlabels, rfl⟩
    exact ⟨r, hr, _, halt, List.mem_map_of_mem hl⟩

/-- Every token of every class has its place in a production. -/
theorem exists_produces_of_mem_members {k : TokenClass} {t : Symbol} (h : t ∈ k.members s) :
    ∃ nt labels, s.Produces nt labels ∧ .terminal t ∈ labels := by
  have hmember (nt : NonTerminal) (hk : nt.tokenClass? = some k) :
      ∃ nt labels, s.Produces nt labels ∧ .terminal t ∈ labels :=
    ⟨nt, [.terminal t], (produces_member_iff hk _).2 ⟨⟨t, h⟩, rfl⟩, List.mem_singleton_self _⟩
  cases k with
  | openParen =>
    obtain rfl := List.mem_singleton.1 h
    exact ⟨.formula, _, (produces_formula_iff _).2 (.inl rfl), by simp⟩
  | closeParen =>
    obtain rfl := List.mem_singleton.1 h
    exact ⟨.formula, _, (produces_formula_iff _).2 (.inl rfl), by simp⟩
  | comma =>
    obtain rfl := List.mem_singleton.1 h
    exact ⟨.varList, _, (produces_varList_iff _).2 (.inr rfl), by simp⟩
  | equality =>
    obtain rfl := List.mem_singleton.1 h
    exact ⟨.formula, _, (produces_formula_iff _).2 (.inr (.inr (.inr (.inl rfl)))), by simp⟩
  | negation =>
    obtain rfl := List.mem_singleton.1 h
    exact ⟨.formula, _, (produces_formula_iff _).2 (.inr (.inr (.inl rfl))), by simp⟩
  | binaryConnective => exact hmember .connective rfl
  | quantifier => exact hmember .quantifier rfl
  | var => exact hmember .var rfl
  | constant => exact hmember .constant rfl
  | predicateSymbol => exact hmember .predicateSymbol rfl
  | finish => cases h

theorem mem_terminals_iff (w : String) :
    w ∈ s.grammar.terminals ↔ ∃ t, (t ∈ s.symbols ∨ t ∈ Symbol.punctuation) ∧ t.shown = w := by
  simp only [grammar, List.mem_map, List.mem_append]

/-- A rule for the symbols of a set has an alternative for each of them, in order. -/
theorem flatMap_expand_each (set : TerminalSet) :
    [[Element.each set]].flatMap s.expand =
      (s.terminalSet set).map fun t => [.terminal t.shown] := by
  simp only [List.flatMap_singleton, expand, choices, List.map_singleton, List.flatMap_map,
    ← List.map_eq_flatMap]

end Signature

namespace Alphabet

/-- A text is listed as a terminal exactly if some rule uses it. -/
theorem mem_terminals_iff_uses (a : Alphabet) (w : String) :
    w ∈ a.grammar.terminals ↔ a.grammar.Uses (.terminal w) := by
  rw [Signature.mem_terminals_iff, Signature.uses_iff]
  constructor
  · rintro ⟨t, ht, rfl⟩
    have hmem : t ∈ TokenClass.all.flatMap (·.members a.toSignature) := by
      rw [a.tokenClasses_perm.mem_iff, List.mem_append]
      exact ht.symm
    obtain ⟨k, -, hk⟩ := List.mem_flatMap.1 hmem
    obtain ⟨nt, labels, hlabels, hl⟩ := Signature.exists_produces_of_mem_members hk
    exact ⟨nt, labels, hlabels, .terminal t, hl, rfl⟩
  · rintro ⟨nt, labels, hlabels, l, hl, hpublished⟩
    cases l with
    | nonTerminal nt => cases hpublished
    | terminal t => exact ⟨t, hlabels.mem_of_terminal hl, GrammarSymbol.terminal.inj hpublished⟩

/-- No two terminals are listed alike if the symbols of an alphabet are told apart. -/
theorem nodup_terminals (a : Alphabet) (h : ∀ t ∈ a.symbols, t.Canonical) :
    a.grammar.terminals.Nodup := by
  have hcanonical : ∀ t ∈ a.symbols ++ Symbol.punctuation, t.Canonical := fun t ht =>
    (List.mem_append.1 ht).elim (h t) Symbol.canonical_of_mem_punctuation
  have hnodup : (a.symbols ++ Symbol.punctuation).Nodup :=
    List.nodup_append.2 ⟨a.distinct, by decide, fun t ht u hu heq => a.unreserved t ht (heq ▸ hu)⟩
  exact hnodup.map_on fun t ht u hu => (hcanonical t ht).eq_of_shown (hcanonical u hu)

end Alphabet

namespace Declaration

variable {d : Declaration} {a : Alphabet}

theorem connectives_of_validate (h : d.validate = .ok a) :
    d.connectives = a.connectives.binary ++ [a.connectives.neg] := by
  obtain ⟨hs, -⟩ := validate_eq_ok_iff.1 h
  exact (members_eq hs .connective).symm

/-- The symbols that a category derives are those of the rule for it, if there are no others. -/
theorem terminalSet_of_declared? (h : d.validate = .ok a) {nt : NonTerminal} {ts : List Symbol}
    (hts : nt.declared? d = some ts) :
    ∃ set, a.grammar.rule? nt = some ⟨nt, [[Element.each set]].flatMap a.expand⟩ ∧
      a.terminalSet set = ts := by
  obtain ⟨hs, -⟩ := validate_eq_ok_iff.1 h
  cases nt <;> simp only [NonTerminal.declared?, Option.some.injEq, reduceCtorEq] at hts <;>
    subst hts
  case var => exact ⟨.vars, rfl, members_eq hs .var⟩
  case constant => exact ⟨.constants, rfl, members_eq hs .constant⟩
  case predicateSymbol => exact ⟨.predicateSymbols, rfl, members_eq hs .predicate⟩
  case quantifier => exact ⟨.quantifiers, rfl, members_eq hs .quantifier⟩
  case connective =>
    refine ⟨.binaryConnectives, rfl, ?_⟩
    rw [connectives_of_validate h, List.dropLast_concat]
    rfl

end Declaration

/-- For every alphabet that a text declares, the published grammar lists each of its terminals once,
and just those that occur in its rules; and the rules of the classes have one alternative for each
declared symbol, in the order of declaration, without the negation among the connectives. -/
theorem Grammar.terminals_exact (text : String) {a : Alphabet}
    (h : (Definition.ofText text).declaration.validate = .ok a) :
    a.grammar.terminals.Nodup ∧
      (∀ w, w ∈ a.grammar.terminals ↔ a.grammar.Uses (.terminal w)) ∧
      (∀ nt ts, nt.declared? (Definition.ofText text).declaration = some ts →
        a.grammar.rule? nt = some ⟨nt, ts.map fun t => [.terminal t.shown]⟩) ∧
      (Definition.ofText text).declaration.connectives.getLast? = some a.connectives.neg := by
  refine ⟨a.nodup_terminals fun t => Definition.canonical_of_mem_symbols h,
    a.mem_terminals_iff_uses, fun nt ts hts => ?_, ?_⟩
  · obtain ⟨set, hrule, rfl⟩ := Declaration.terminalSet_of_declared? h hts
    rw [hrule, Signature.flatMap_expand_each]
  · rw [Declaration.connectives_of_validate h, List.getLast?_concat]

theorem Grammar.terminals_exact_sample :
    (Definition.ofText Definition.sampleText).declaration.validate = .ok .sample ∧
      Alphabet.sample.grammar.terminals.Nodup ∧
      (∀ w ∈ Alphabet.sample.grammar.terminals, Alphabet.sample.grammar.Uses (.terminal w)) ∧
      Alphabet.sample.grammar.rule? .connective = some ⟨.connective,
        [[.terminal "and"], [.terminal "or"], [.terminal "implies"], [.terminal "iff"]]⟩ := by
  have hvalid := Definition.validate_sampleText
  have hbinary : NonTerminal.declared? (Definition.ofText Definition.sampleText).declaration
      .connective = some Alphabet.sample.connectives.binary := by
    rw [NonTerminal.declared?, Declaration.connectives_of_validate hvalid, List.dropLast_concat]
  obtain ⟨hnodup, hmem, hrules, -⟩ := Grammar.terminals_exact _ hvalid
  exact ⟨hvalid, hnodup, fun w => (hmem w).1, (hrules .connective _ hbinary).trans (by decide)⟩

end Formulary
