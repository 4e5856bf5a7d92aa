import Formulary.Proofs.Definition.Spelling
import Formulary.Proofs.Parser.Accepts
import Mathlib.Computability.ContextFreeGrammar

/-!
The language of a grammar. The grammar that is published for an alphabet, read as a context-free
grammar over the texts that it shows, generates what is parsed and nothing else.
-/

/-- What context-free grammars rewrite, by a name that symbols of formulas do not have. -/
abbrev ContextFreeSymbol (T N : Type) : Type := Symbol T N

namespace Formulary

def GrammarSymbol.item : GrammarSymbol → ContextFreeSymbol String NonTerminal
  | .terminal text => .terminal text
  | .nonTerminal nt => .nonterminal nt

/-- A rule for each alternative. -/
def Rule.contextFree (r : Rule) : List (ContextFreeRule String NonTerminal) :=
  r.alternatives.map fun alt => ⟨r.lhs, alt.map GrammarSymbol.item⟩

/-- The context-free grammar that a published grammar lists; an abbreviation, so that its
non-terminals are seen to be those of the list. -/
abbrev Grammar.contextFree (g : Grammar) : ContextFreeGrammar String where
  NT := NonTerminal
  initial := g.start
  rules := (g.rules.flatMap Rule.contextFree).toFinset

/-- The grammar symbol as which a label is published. -/
def NodeLabel.published : NodeLabel → GrammarSymbol
  | .nonTerminal nt => .nonTerminal nt
  | .terminal t => .terminal t.shown

def NodeLabel.item (l : NodeLabel) : ContextFreeSymbol String NonTerminal := l.published.item

/-- Whether a label is told apart from others by how it is published. -/
def NodeLabel.Canonical : NodeLabel → Prop
  | .nonTerminal _ => True
  | .terminal t => t.Canonical

theorem NodeLabel.Canonical.eq_of_item {l m : NodeLabel} (hl : l.Canonical) (hm : m.Canonical)
    (h : l.item = m.item) : l = m := by
  cases l <;> cases m <;> simp only [item, published, GrammarSymbol.item, reduceCtorEq,
    Symbol.terminal.injEq, Symbol.nonterminal.injEq] at h
  case nonTerminal.nonTerminal => rw [h]
  case terminal.terminal => rw [Symbol.Canonical.eq_of_shown hl hm h]

/-- Lists are the same as what becomes of them if their members can be told from what becomes of
each. -/
theorem map_cancel {α β : Type} {f : α → β} {xs ys : List α}
    (hf : ∀ x ∈ xs, ∀ y ∈ ys, f x = f y → x = y) (h : xs.map f = ys.map f) : xs = ys := by
  induction xs generalizing ys with
  | nil => exact (List.map_eq_nil_iff.1 h.symm).symm
  | cons x xs ih =>
    obtain ⟨y, ys, rfl, hhead, htail⟩ := List.map_eq_cons_iff.1 h.symm
    have hx : x = y := hf x List.mem_cons_self y List.mem_cons_self hhead.symm
    have hxs : xs = ys := ih (fun z hz w hw => hf z (List.mem_cons_of_mem x hz) w
      (List.mem_cons_of_mem y hw)) htail.symm
    rw [hx, hxs]

/-- Labels that are told apart are found again in what is published of them. -/
theorem eq_of_map_item {ls ms : List NodeLabel} (hl : ∀ l ∈ ls, l.Canonical)
    (hm : ∀ m ∈ ms, m.Canonical) (h : ls.map NodeLabel.item = ms.map NodeLabel.item) :
    ls = ms :=
  map_cancel (fun l hmem m hmem' => (hl l hmem).eq_of_item (hm m hmem')) h

/-- The symbol that an element of a template is, if it is one. -/
def Element.punct? : Element → Option Symbol
  | .punct t => some t
  | _ => none

theorem SyntaxTree.canonical_label (t : SyntaxTree) (h : ∀ u ∈ t.yield, u.Canonical) :
    t.label.Canonical := by
  cases t with
  | leaf token => exact h token (by simp)
  | node nt children => trivial

namespace Signature

variable {s : Signature}

/-! Rules. -/

theorem mem_choices_iff (e : Element) (c : GrammarSymbol) :
    c ∈ s.choices e ↔ ∃ l, s.Fills e l ∧ l.published = c := by
  cases e with
  | each set =>
    simp only [choices, Fills, List.mem_map]
    constructor
    · rintro ⟨t, ht, rfl⟩
      exact ⟨.terminal t, ⟨t, ht, rfl⟩, rfl⟩
    · rintro ⟨_, ⟨t, ht, rfl⟩, rfl⟩
      exact ⟨t, ht, rfl⟩
  | _ => simp [choices, Fills, NodeLabel.published, eq_comm]

/-- The ways to fill in a template are the labels that may stand in its places. -/
theorem mem_expand_iff (alt : List Element) (out : List GrammarSymbol) :
    out ∈ s.expand alt ↔
      ∃ labels, List.Forall₂ s.Fills alt labels ∧ labels.map NodeLabel.published = out := by
  induction alt generalizing out with
  | nil => simp [expand, eq_comm]
  | cons e alt ih =>
    simp only [expand, List.mem_flatMap, List.mem_map, ih, mem_choices_iff,
      List.forall₂_cons_left_iff]
    constructor
    · rintro ⟨_, ⟨l, hl, rfl⟩, _, ⟨labels, hlabels, rfl⟩, rfl⟩
      exact ⟨l :: labels, ⟨l, labels, hl, hlabels, rfl⟩, rfl⟩
    · rintro ⟨_, ⟨l, labels, hl, hlabels, rfl⟩, rfl⟩
      exact ⟨_, ⟨l, hl, rfl⟩, _, ⟨labels, hlabels, rfl⟩, rfl⟩

/-- The alternatives of the published rules are the instances of the productions. -/
theorem mem_alternatives_iff (nt : NonTerminal) (out : List GrammarSymbol) :
    (∃ r ∈ s.grammar.rules, r.lhs = nt ∧ out ∈ r.alternatives) ↔
      ∃ labels, s.Produces nt labels ∧ labels.map NodeLabel.published = out := by
  constructor
  · rintro ⟨r, hr, rfl, hout⟩
    obtain ⟨p, hp, rfl⟩ := List.mem_map.1 hr
    obtain ⟨alt, halt, hexpand⟩ := List.mem_flatMap.1 hout
    obtain ⟨labels, hlabels, rfl⟩ := (mem_expand_iff alt out).1 hexpand
    exact ⟨labels, ⟨p, hp, rfl, alt, halt, hlabels⟩, rfl⟩
  · rintro ⟨labels, ⟨p, hp, rfl, alt, halt, hlabels⟩, rfl⟩
    refine ⟨_, List.mem_map_of_mem hp, rfl, List.mem_flatMap.2 ⟨alt, halt, ?_⟩⟩
    exact (mem_expand_iff alt _).2 ⟨labels, hlabels, rfl⟩

/-- The rules of the published grammar are the instances of the productions. -/
theorem mem_rules_iff (r : ContextFreeRule String NonTerminal) :
    r ∈ s.grammar.contextFree.rules ↔
      ∃ labels, s.Produces r.input labels ∧ labels.map NodeLabel.item = r.output := by
  have hitem : NodeLabel.item = GrammarSymbol.item ∘ NodeLabel.published := rfl
  constructor
  · intro h
    obtain ⟨rule, hrule, hr⟩ := List.mem_flatMap.1 (List.mem_toFinset.1 h)
    obtain ⟨out, hout, rfl⟩ := List.mem_map.1 hr
    obtain ⟨labels, hlabels, rfl⟩ := (mem_alternatives_iff _ _).1 ⟨rule, hrule, rfl, hout⟩
    exact ⟨labels, hlabels, by rw [hitem, List.map_map]⟩
  · rintro ⟨labels, hlabels, hout⟩
    obtain ⟨rule, hrule, hlhs, hmem⟩ := (mem_alternatives_iff _ _).2 ⟨labels, hlabels, rfl⟩
    refine List.mem_toFinset.2 (List.mem_flatMap.2 ⟨rule, hrule, List.mem_map.2 ⟨_, hmem, ?_⟩⟩)
    exact ContextFreeRule.ext hlhs (by rw [← hout, hitem, List.map_map])

theorem mem_symbols_of_mem_terminalSet {set : TerminalSet} {t : Symbol}
    (h : t ∈ s.terminalSet set) : t ∈ s.symbols := by
  rw [mem_symbols_iff]
  cases set with
  | binaryConnectives =>
    obtain ⟨role, -, rfl⟩ := List.mem_map.1 h
    exact ⟨.connective, List.mem_map_of_mem (by cases role <;> decide)⟩
  | quantifiers => exact ⟨.quantifier, h⟩
  | predicateSymbols => exact ⟨.predicate, h⟩
  | constants => exact ⟨.constant, h⟩
  | vars => exact ⟨.var, h⟩

/-- Templates contain no symbols but punctuation. -/
theorem mem_punctuation_of_punct {p : Production} (hp : p ∈ Production.all) {alt : List Element}
    (halt : alt ∈ p.alternatives) {t : Symbol} (h : .punct t ∈ alt) : t ∈ Symbol.punctuation := by
  have hall : ∀ p ∈ Production.all, ∀ alt ∈ p.alternatives, ∀ e ∈ alt,
      e.punct?.all (· ∈ Symbol.punctuation) := by decide
  simpa [Element.punct?] using hall p hp alt halt _ h

/-- The terminals of a production are declared symbols and punctuation. -/
theorem Produces.mem_of_terminal {nt : NonTerminal} {labels : List NodeLabel} {t : Symbol}
    (h : s.Produces nt labels) (ht : .terminal t ∈ labels) :
    t ∈ s.symbols ∨ t ∈ Symbol.punctuation := by
  obtain ⟨p, hp, -, alt, halt, hlabels⟩ := h
  obtain ⟨e, he, hfills⟩ := exists_of_forall₂_of_mem hlabels.flip ht
  cases e with
  | nt nt => cases hfills
  | punct u =>
    obtain rfl : t = u := NodeLabel.terminal.inj hfills
    exact .inr (mem_punctuation_of_punct hp halt he)
  | equality =>
    obtain rfl : t = s.equality := NodeLabel.terminal.inj hfills
    exact .inl ((s.mem_symbols_iff _).2 ⟨.equality, List.mem_singleton_self _⟩)
  | negation =>
    obtain rfl : t = s.connectives.neg := NodeLabel.terminal.inj hfills
    have hneg : s.connectives.neg ∈ s.members .connective :=
      List.mem_map_of_mem (a := ConnectiveRole.neg) (by decide)
    exact .inl ((s.mem_symbols_iff _).2 ⟨.connective, hneg⟩)
  | each set =>
    obtain ⟨u, hu, heq⟩ := hfills
    obtain rfl : t = u := NodeLabel.terminal.inj heq
    exact .inl (mem_symbols_of_mem_terminalSet hu)

/-- If the symbols of a signature are told apart, so are the labels in its productions. -/
theorem Produces.canonical {nt : NonTerminal} {labels : List NodeLabel}
    (h : s.Produces nt labels) (hs : ∀ t ∈ s.symbols, t.Canonical) :
    ∀ l ∈ labels, l.Canonical := by
  intro l hl
  cases l with
  | nonTerminal nt => trivial
  | terminal t => exact (h.mem_of_terminal hl).elim (hs t) Symbol.canonical_of_mem_punctuation

/-! Derivations. -/

theorem derives_flatMap_yield {ts : List SyntaxTree}
    (h : ∀ t ∈ ts, s.grammar.contextFree.Derives [t.label.item]
      (t.yield.map fun token => .terminal token.shown)) :
    s.grammar.contextFree.Derives (ts.map fun t => t.label.item)
      ((ts.flatMap SyntaxTree.yield).map fun token => .terminal token.shown) := by
  induction ts with
  | nil => exact Relation.ReflTransGen.refl
  | cons t ts ih =>
    simp only [List.forall_mem_cons] at h
    rw [List.map_cons, List.flatMap_cons, List.map_append, ← List.singleton_append]
    exact (h.1.append_right _).trans ((ih h.2).append_left _)

/-- A derivation tree derives its yield in the published grammar. -/
theorem Derives.contextFree {t : SyntaxTree} (h : s.Derives t) :
    s.grammar.contextFree.Derives [t.label.item]
      (t.yield.map fun token => .terminal token.shown) := by
  induction h with
  | leaf token => exact Relation.ReflTransGen.refl
  | @node nt children produces below ih =>
    have hrule : ⟨nt, (children.map SyntaxTree.label).map NodeLabel.item⟩ ∈
        s.grammar.contextFree.rules := (mem_rules_iff _).2 ⟨_, produces, rfl⟩
    have hstep : s.grammar.contextFree.Produces [(SyntaxTree.node nt children).label.item]
        ((children.map SyntaxTree.label).map NodeLabel.item) :=
      ⟨_, hrule, ContextFreeRule.Rewrites.input_output⟩
    rw [List.map_map] at hstep
    rw [SyntaxTree.yield_node]
    exact hstep.trans_derives (derives_flatMap_yield ih)

/-- What a rule rewrites is the labels of trees if what comes of it is: those for what it puts in
the place of a non-terminal are hung below one for it. -/
theorem exists_trees_of_rewrites {r : ContextFreeRule String NonTerminal}
    {form form' : List (ContextFreeSymbol String NonTerminal)} {ts : List SyntaxTree}
    (hr : r ∈ s.grammar.contextFree.rules) (h : r.Rewrites form form')
    (hs : ∀ t ∈ s.symbols, t.Canonical) (hts : ∀ t ∈ ts, t.label.Canonical)
    (hroots : ts.map (fun t => t.label.item) = form') (hderives : ∀ t ∈ ts, s.Derives t) :
    ∃ us : List SyntaxTree, us.map (fun t => t.label.item) = form ∧ (∀ t ∈ us, s.Derives t) ∧
      us.flatMap SyntaxTree.yield = ts.flatMap SyntaxTree.yield := by
  obtain ⟨labels, hproduces, hlabels⟩ := (mem_rules_iff r).1 hr
  obtain ⟨before, after, rfl, rfl⟩ := h.exists_parts
  obtain ⟨upper, last, rfl, hupper, hlast⟩ := List.map_eq_append_iff.1 hroots
  obtain ⟨first, below, rfl, hfirst, hbelow⟩ := List.map_eq_append_iff.1 hupper
  have hcanonical : ∀ l ∈ below.map SyntaxTree.label, l.Canonical := by
    intro l hl
    obtain ⟨t, ht, rfl⟩ := List.mem_map.1 hl
    exact hts t (by simp [ht])
  have hitems : (below.map SyntaxTree.label).map NodeLabel.item = labels.map NodeLabel.item := by
    rw [hlabels, ← hbelow, List.map_map]
    rfl
  obtain rfl := eq_of_map_item hcanonical (hproduces.canonical hs) hitems
  refine ⟨first ++ .node r.input below :: last, ?_, ?_, by simp⟩
  · rw [List.map_append, List.map_cons, hfirst, hlast, List.append_assoc]
    rfl
  · intro t ht
    rcases List.mem_append.1 ht with ht | ht
    · exact hderives t (by simp [ht])
    · rcases List.mem_cons.1 ht with rfl | ht
      · exact .node hproduces fun c hc => hderives c (by simp [hc])
      · exact hderives t (by simp [ht])

/-- What derives some tokens is the labels of trees that derive them, if symbols are told apart: one
goes back from the tokens, rule by rule. -/
theorem exists_trees_of_derives {tokens : List Symbol}
    {form : List (ContextFreeSymbol String NonTerminal)}
    (hs : ∀ t ∈ s.symbols, t.Canonical) (htokens : ∀ t ∈ tokens, t.Canonical)
    (h : s.grammar.contextFree.Derives form (tokens.map fun token => .terminal token.shown)) :
    ∃ ts : List SyntaxTree, ts.map (fun t => t.label.item) = form ∧ (∀ t ∈ ts, s.Derives t) ∧
      ts.flatMap SyntaxTree.yield = tokens := by
  induction h using Relation.ReflTransGen.head_induction_on with
  | refl =>
    refine ⟨tokens.map .leaf, by rw [List.map_map]; rfl, ?_, by simp [List.flatMap_map]⟩
    intro t ht
    obtain ⟨token, -, rfl⟩ := List.mem_map.1 ht
    exact .leaf token
  | head hstep _ ih =>
    obtain ⟨ts, hroots, hderives, rfl⟩ := ih
    obtain ⟨r, hr, hrewrites⟩ := hstep
    have hts : ∀ t ∈ ts, t.label.Canonical := fun t ht =>
      t.canonical_label fun u hu => htokens u (List.mem_flatMap.2 ⟨t, ht, hu⟩)
    exact exists_trees_of_rewrites hr hrewrites hs hts hroots hderives

/-- The published grammar generates the tokens of formulas, as they are shown. -/
theorem mem_language_iff {tokens : List Symbol} (hs : ∀ t ∈ s.symbols, t.Canonical)
    (htokens : ∀ t ∈ tokens, t.Canonical) :
    tokens.map Symbol.shown ∈ s.grammar.contextFree.language ↔ s.Derivable tokens := by
  rw [ContextFreeGrammar.mem_language_iff, List.map_map]
  constructor
  · intro h
    obtain ⟨ts, hroots, hderives, hyield⟩ := exists_trees_of_derives hs htokens h
    obtain ⟨t, rfl, hroot⟩ := List.map_eq_singleton_iff.1 hroots
    have hlabel : t.label = .nonTerminal .formula := by
      refine NodeLabel.Canonical.eq_of_item ?_ trivial hroot
      refine t.canonical_label fun u hu => htokens u ?_
      rw [← hyield]
      simpa using hu
    exact ⟨t, ⟨hlabel, hderives t (by simp)⟩, by simpa using hyield⟩
  · rintro ⟨t, ⟨hroot, hderives⟩, rfl⟩
    have h := hderives.contextFree
    rwa [hroot] at h

end Signature

/-- With room enough, the tokens of formulas are parsed. -/
theorem exists_parse_eq_ok_iff (a : Alphabet) (tokens : List Symbol) :
    (∃ limit tree, parse a limit tokens = .ok tree) ↔ a.Derivable tokens := by
  rw [Signature.derivable_iff]
  constructor
  · rintro ⟨limit, tree, h⟩
    obtain ⟨φ, hφ, -⟩ := parse_eq_ok_iff.1 h
    exact ⟨φ, hφ⟩
  · rintro ⟨φ, rfl⟩
    exact ⟨φ.nesting, φ.tree.arena, φ.parse_yield (Nat.le_refl _)⟩

/-- The formula of a definition is parsed, with some limit, exactly if the grammar that is published
for its alphabet generates the formula as it is shown. -/
theorem parse_iff_mem_language (text : String) {a : Alphabet}
    (h : (Definition.ofText text).declaration.validate = .ok a) :
    (∃ limit tree, parse a limit (Definition.ofText text).formula = .ok tree) ↔
      (Definition.ofText text).formula.map Symbol.shown ∈ a.grammar.contextFree.language := by
  have hs : ∀ t ∈ a.symbols, t.Canonical := fun t => Definition.canonical_of_mem_symbols h
  have htokens : ∀ t ∈ (Definition.ofText text).formula, t.Canonical :=
    fun t => Definition.canonical_of_mem_formula text
  rw [exists_parse_eq_ok_iff, Signature.mem_language_iff hs htokens]

/-- A text that declares the sample alphabet and states the sample formula. -/
def Definition.sampleText : String :=
  "variables: x y\nconstants: a\npredicates: P[1] R[2]\nequality: =\n" ++
    "connectives: and or implies iff not\nquantifiers: forall exists\n" ++
    "formula: exists y (R(x,y) and not (y = a))"

theorem Definition.read_sampleText :
    (ofText sampleText).declaration.signature = .ok Alphabet.sample.toSignature ∧
      (ofText sampleText).formula = Formula.sample.yield := by
  decide +kernel

theorem Definition.validate_sampleText :
    (ofText sampleText).declaration.validate = .ok .sample :=
  Declaration.validate_eq_ok_iff.2 ⟨read_sampleText.1, by decide⟩

theorem parse_iff_mem_language_sample :
    (Definition.ofText Definition.sampleText).declaration.validate = .ok .sample ∧
      (Definition.ofText Definition.sampleText).formula.map Symbol.shown ∈
        Alphabet.sample.grammar.contextFree.language := by
  have hvalid := Definition.validate_sampleText
  have hparse : parse .sample 4 (Definition.ofText Definition.sampleText).formula =
      .ok Formula.sample.tree.arena := by
    rw [Definition.read_sampleText.2]
    rfl
  exact ⟨hvalid, (parse_iff_mem_language _ hvalid).1 ⟨4, _, hparse⟩⟩

end Formulary
