import Formulary.Proofs.Parser.Consumes
import Formulary.Proofs.Parser.Draws
import Formulary.Proofs.Parser.Locates

/-!
What parsing decides. It succeeds on the yields of the derivation trees that nest within the limit
and on nothing else, and then gives the table of the only tree with that yield.
-/

namespace Formulary

variable {a : Alphabet} {limit : Nat} {tokens : List Symbol} {tree : ParseTree}

/-- What an attempt comes to, by what reading a formula from the start does. -/
theorem attempt_eq (h : tokens ≠ []) (limit : Nat) :
    attempt a limit tokens =
      match Parser.formula a limit 0 { rest := tokens } with
      | .error e s => ⟨s.moves.reverse, .error e⟩
      | .ok _ s =>
        match s.rest with
        | [] =>
          ⟨s.moves.reverse,
            if (ParseTree.ofMoves s.moves.reverse).isBare then .error .empty
            else .ok (ParseTree.ofMoves s.moves.reverse)⟩
        | found :: _ => ⟨s.moves.reverse, .error (.trailingInput found s.position)⟩ := by
  obtain ⟨t, rest, rfl⟩ := List.exists_cons_of_ne_nil h
  have hrun : attempt a limit (t :: rest) =
      match (Parser.formula a limit 0 >>= fun _ => Parser.finish) { rest := t :: rest } with
      | .error e s => ⟨s.moves.reverse, .error e⟩
      | .ok _ s =>
        ⟨s.moves.reverse,
          if (ParseTree.ofMoves s.moves.reverse).isBare then .error .empty
          else .ok (ParseTree.ofMoves s.moves.reverse)⟩ := rfl
  rw [hrun, Parser.bind_apply]
  cases Parser.formula a limit 0 { rest := t :: rest } with
  | error e s => rfl
  | ok _ s =>
    obtain ⟨rest, position, moves⟩ := s
    cases rest <;> rfl

theorem Formula.yield_ne_nil {s : Signature} (φ : Formula s) : φ.yield ≠ [] := by
  obtain ⟨t, _, rest, h⟩ := φ.exists_yield_eq_cons
  simp [h]

theorem Formula.not_isBare_arena {s : Signature} (φ : Formula s) : ¬ φ.tree.arena.isBare := by
  have hsize : φ.tree.arena.size ≠ 1 := by
    rw [SyntaxTree.size_arena]
    cases φ <;> simp [tree]
  simpa [ParseTree.isBare] using hsize

theorem Formula.read (φ : Formula a.toSignature) (h : φ.nesting ≤ limit) (rest : List Symbol) :
    Parser.formula a limit 0 { rest := φ.yield ++ rest } =
      .ok () ⟨rest, φ.yield.length, (φ.moves 0 0).reverse⟩ := by
  have hread : Parser.Reads rest (Parser.formula a limit 0) φ.yield fun i => φ.moves 0 i :=
    Parser.reads_formula φ h
  simpa using hread 0 []

/-- Where the scan stands after a formula was read from the start of some tokens. -/
theorem exists_of_formula_eq_ok {s : Scan}
    (h : Parser.formula a limit 0 { rest := tokens } = .ok () s) :
    ∃ φ : Formula a.toSignature, φ.nesting ≤ limit ∧ tokens = φ.yield ++ s.rest ∧
      s.position = φ.yield.length ∧ s.moves = (φ.moves 0 0).reverse := by
  obtain ⟨_, ⟨φ, hφ, rfl⟩, hrest⟩ := Parser.consumes_formula limit 0 _ s h
  have hread := φ.read hφ s.rest
  rw [← hrest] at hread
  have hscan := (EStateM.Result.ok.inj (hread.symm.trans h)).2
  exact ⟨φ, hφ, hrest, (congrArg Scan.position hscan).symm, (congrArg Scan.moves hscan).symm⟩

/-- Parsing fails while it reads a formula, or it reads one and then looks at what follows it. -/
theorem parse_cases (a : Alphabet) (limit : Nat) {tokens : List Symbol} (h : tokens ≠ []) :
    (∃ e s, e.At s ∧ parse a limit tokens = .error e) ∨
      ∃ (φ : Formula a.toSignature) (rest : List Symbol), φ.nesting ≤ limit ∧
        tokens = φ.yield ++ rest ∧
        parse a limit tokens =
          match rest with
          | [] => .ok φ.tree.arena
          | found :: _ => .error (.trailingInput found φ.yield.length) := by
  rw [parse, attempt_eq h]
  cases hrun : Parser.formula a limit 0 { rest := tokens } with
  | error e s => exact .inl ⟨e, s, Parser.locates_formula limit 0 _ e s hrun, rfl⟩
  | ok _ s =>
    obtain ⟨φ, hφ, htokens, hposition, hmoves⟩ := exists_of_formula_eq_ok hrun
    refine .inr ⟨φ, s.rest, hφ, htokens, ?_⟩
    have hbare := φ.not_isBare_arena
    cases hrest : s.rest with
    | nil => simp [hrest, hmoves, φ.ofMoves_moves, hbare]
    | cons found rest => simp [hrest, hposition]

theorem Formula.attempt_yield (φ : Formula a.toSignature) (h : φ.nesting ≤ limit) :
    attempt a limit φ.yield = ⟨φ.moves 0 0, .ok φ.tree.arena⟩ := by
  have hread := φ.read h []
  rw [List.append_nil] at hread
  have hbare := φ.not_isBare_arena
  rw [attempt_eq φ.yield_ne_nil, hread]
  simp [φ.ofMoves_moves, hbare]

/-- A formula that nests within the limit is parsed into the table of its tree. -/
theorem Formula.parse_yield (φ : Formula a.toSignature) (h : φ.nesting ≤ limit) :
    parse a limit φ.yield = .ok φ.tree.arena := by
  rw [parse, φ.attempt_yield h]

/-- No input is left over after tokens that are a formula as a whole. -/
theorem Formula.parse_yield_ne_trailingInput (φ : Formula a.toSignature) (limit : Nat)
    (found : Symbol) (position : Nat) :
    parse a limit φ.yield ≠ .error (.trailingInput found position) := by
  intro h
  rcases parse_cases a limit φ.yield_ne_nil with ⟨e, s, hat, herror⟩ | ⟨ψ, rest, _, heq, hparse⟩
  · cases herror.symm.trans h
    exact hat
  · have hsame : φ.yield ++ [] = ψ.yield ++ rest := by rw [List.append_nil, heq]
    obtain ⟨rfl, rfl⟩ := Formula.yield_cancel hsame
    cases hparse.symm.trans h

/-- Parsing succeeds on formulas only, and with the tables of their trees. -/
theorem parse_eq_ok_iff :
    parse a limit tokens = .ok tree ↔
      ∃ φ : Formula a.toSignature, φ.yield = tokens ∧ φ.nesting ≤ limit ∧ φ.tree.arena = tree := by
  constructor
  · intro h
    have hne : tokens ≠ [] := by
      rintro rfl
      cases h
    rcases parse_cases a limit hne with ⟨e, s, _, herror⟩ | ⟨φ, rest, hφ, htokens, hparse⟩
    · cases herror.symm.trans h
    · cases rest with
      | nil =>
        have htree := Except.ok.inj (hparse.symm.trans h)
        exact ⟨φ, by rw [htokens, List.append_nil], hφ, htree⟩
      | cons found rest => cases hparse.symm.trans h
  · rintro ⟨φ, rfl, hφ, rfl⟩
    exact φ.parse_yield hφ

/-- Tokens are parsed exactly if they are the yield of a derivation tree within the limit. -/
theorem parse_succeeds_iff (a : Alphabet) (limit : Nat) (tokens : List Symbol) :
    (∃ tree, parse a limit tokens = .ok tree) ↔
      ∃ t, a.DerivesFormula t ∧ t.yield = tokens ∧ t.nesting ≤ limit := by
  constructor
  · rintro ⟨tree, h⟩
    obtain ⟨φ, hyield, hnesting, _⟩ := parse_eq_ok_iff.1 h
    refine (Signature.exists_derivesFormula_iff _).2 ⟨φ, ?_⟩
    exact ⟨by rw [φ.yield_tree, hyield], by rwa [φ.nesting_tree]⟩
  · intro h
    obtain ⟨φ, hyield, hnesting⟩ := (Signature.exists_derivesFormula_iff _).1 h
    rw [φ.yield_tree] at hyield
    rw [φ.nesting_tree] at hnesting
    exact ⟨φ.tree.arena, parse_eq_ok_iff.2 ⟨φ, hyield, hnesting, rfl⟩⟩

/-- Tables in which every node is labelled as the productions of a signature demand. -/
structure ParseTree.IsDerivation (s : Signature) (tree : ParseTree) : Prop where
  root : tree.label? 0 = some (.nonTerminal .formula)
  expanded : ∀ id nt, tree.label? id = some (.nonTerminal nt) →
    ∃ labels, (tree.children id).map tree.label? = labels.map some ∧ s.Produces nt labels
  leaves : ∀ id token, tree.label? id = some (.terminal token) → tree.children id = []

/-- Every number in the table of a tree belongs to a subtree, whose children it knows. -/
theorem SyntaxTree.exists_subtree_of_label? {t : SyntaxTree} {id : Nat} {l : NodeLabel}
    (h : t.arena.label? id = some l) :
    ∃ u ∈ t.subtrees, u.label = l ∧
      t.arena.children id = SyntaxTree.ids (id + 1) u.children ∧
      (t.arena.children id).map t.arena.label? = (u.children.map SyntaxTree.label).map some := by
  rw [t.label?_arena, List.getElem?_map, Option.map_eq_some_iff] at h
  obtain ⟨u, hu, hl⟩ := h
  obtain ⟨above, hhas⟩ := t.has_arena.subtree hu
  rw [Nat.zero_add] at hhas
  have hchildren := hhas.children_eq
  refine ⟨u, List.mem_of_getElem? hu, hl, hchildren, ?_⟩
  rw [hchildren, hhas.below.map_label?, List.map_map]
  rfl

theorem Signature.DerivesFormula.isDerivation_arena {s : Signature} {t : SyntaxTree}
    (h : s.DerivesFormula t) : t.arena.IsDerivation s where
  root := by
    rw [t.has_arena.label?, h.root]
  expanded id nt hl := by
    obtain ⟨u, hu, hlabel, _, hlabels⟩ := SyntaxTree.exists_subtree_of_label? hl
    exact ⟨_, hlabels, (h.derives.of_mem_subtrees hu).produces hlabel⟩
  leaves id token hl := by
    obtain ⟨u, _, hlabel, hchildren, _⟩ := SyntaxTree.exists_subtree_of_label? hl
    rw [hchildren, SyntaxTree.eq_leaf hlabel]
    rfl

/-- A parse tree is a derivation of the tokens that were parsed. -/
theorem parse_isDerivation (h : parse a limit tokens = .ok tree) :
    tree.IsDerivation a.toSignature ∧ tree.terminals = tokens := by
  obtain ⟨φ, hyield, _, rfl⟩ := parse_eq_ok_iff.1 h
  have hterminals : φ.tree.arena.terminals = tokens := by
    rw [SyntaxTree.terminals_arena, φ.yield_tree, hyield]
  exact ⟨φ.derivesFormula.isDerivation_arena, hterminals⟩

/-- The formula `exists y (R(x,y) and not (y = a))`. -/
def Formula.sample : Formula Alphabet.sample.toSignature :=
  let x : Alphabet.sample.Member .var := ⟨⟨"x"⟩, by decide⟩
  let y : Alphabet.sample.Member .var := ⟨⟨"y"⟩, by decide⟩
  .quantified ⟨⟨"exists"⟩, by decide⟩ y <|
    .binary (.atom ⟨⟨"R"⟩, by decide⟩ (.more x (.last y))) ⟨⟨"and"⟩, by decide⟩
      (.negation (.equation (.var y) (.constant ⟨⟨"a"⟩, by decide⟩)))

/-- The tokens of the sample formula are parsed, so its parse tree is a derivation of them. -/
theorem parse_isDerivation_sample :
    parse .sample 4 Formula.sample.yield = .ok Formula.sample.tree.arena ∧
      Formula.sample.tree.arena.IsDerivation Alphabet.sample.toSignature ∧
      Formula.sample.tree.arena.terminals = Formula.sample.yield := by
  have h : parse .sample 4 Formula.sample.yield = .ok Formula.sample.tree.arena := rfl
  exact ⟨h, parse_isDerivation h⟩

/-- Derivation trees whose yields agree up to what follows them are the same. -/
theorem Signature.DerivesFormula.eq_of_yield_append {t u : SyntaxTree} {rest rest' : List Symbol}
    (ht : a.DerivesFormula t) (hu : a.DerivesFormula u)
    (h : t.yield ++ rest = u.yield ++ rest') : t = u ∧ rest = rest' := by
  obtain ⟨φ, rfl⟩ := (derivesFormula_iff t).1 ht
  obtain ⟨ψ, rfl⟩ := (derivesFormula_iff u).1 hu
  rw [φ.yield_tree, ψ.yield_tree] at h
  obtain ⟨rfl, hrest⟩ := Formula.yield_cancel h
  exact ⟨rfl, hrest⟩

/-- A derivation tree is the only one with its yield, which extends no other yield properly, and
parsing gives the table of this tree and of no other unless it nests too deep. -/
theorem unique_readability {t : SyntaxTree} (ht : a.DerivesFormula t) :
    (∀ u, a.DerivesFormula u → u.yield = t.yield → u = t) ∧
    (∀ u, a.DerivesFormula u → u.yield <+: t.yield → u.yield = t.yield) ∧
    (∀ limit, t.nesting ≤ limit → parse a limit t.yield = .ok t.arena) ∧
    (∀ u : SyntaxTree, u.arena = t.arena → u = t) ∧
    ∀ limit found position, parse a limit t.yield ≠ .error (.trailingInput found position) := by
  obtain ⟨φ, rfl⟩ := (Signature.derivesFormula_iff t).1 ht
  refine ⟨?_, ?_, ?_, fun u => SyntaxTree.arena_injective, ?_⟩
  · intro u hu h
    have happend : u.yield ++ [] = φ.tree.yield ++ [] := by rw [h]
    exact (hu.eq_of_yield_append ht happend).1
  · rintro u hu ⟨rest, h⟩
    have happend : u.yield ++ rest = φ.tree.yield ++ [] := by rw [h, List.append_nil]
    obtain ⟨rfl, _⟩ := hu.eq_of_yield_append ht happend
    rfl
  · intro limit hnesting
    rw [φ.nesting_tree] at hnesting
    rw [φ.yield_tree]
    exact φ.parse_yield hnesting
  · intro limit found position
    rw [φ.yield_tree]
    exact φ.parse_yield_ne_trailingInput limit found position

theorem unique_readability_sample :
    Alphabet.sample.DerivesFormula Formula.sample.tree ∧
      (∀ u, Alphabet.sample.DerivesFormula u → u.yield = Formula.sample.tree.yield →
        u = Formula.sample.tree) ∧
      parse .sample 4 Formula.sample.tree.yield = .ok Formula.sample.tree.arena := by
  have hread := unique_readability (a := .sample) Formula.sample.derivesFormula
  exact ⟨Formula.sample.derivesFormula, hread.1, hread.2.2.1 4 (by decide)⟩

end Formulary
