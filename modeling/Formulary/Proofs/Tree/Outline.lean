import Formulary.Proofs.Dot.Faithful
import Formulary.Proofs.Pipeline.Accepts

/-!
Outlines. The rendering of a tree has a line for each node, indented by its distance from the root.
A terminal may be shown as a non-terminal is, but only below a non-terminal something follows that
is indented further, so the rendering of a parse tree tells the tree.
-/

namespace Formulary

open Text

namespace SyntaxTree

/-! Trees and their outlines. -/

mutual

/-- What is shown of the nodes of a tree from top to bottom and left to right, each with its
distance from a node that is `depth` above the root. -/
def outline (depth : Nat) : SyntaxTree → List (Nat × String)
  | leaf token => [(depth, token.shown)]
  | node nt cs => (depth, nt.letter) :: outlineOf (depth + 1) cs

def outlineOf (depth : Nat) : List SyntaxTree → List (Nat × String)
  | [] => []
  | c :: cs => outline depth c ++ outlineOf depth cs

end

theorem outline_eq (t : SyntaxTree) (depth : Nat) :
    t.outline depth = (depth, t.label.shown) :: outlineOf (depth + 1) t.children := by
  cases t <;> simp [outline, outlineOf, children, NodeLabel.shown]

theorem outlineOf_eq (depth : Nat) (cs : List SyntaxTree) :
    outlineOf depth cs = cs.flatMap (outline depth) := by
  induction cs with
  | nil => rfl
  | cons c cs ih => rw [outlineOf, ih, List.flatMap_cons]

/-- Whether a tree can be told from its outline: every non-terminal has something below it, and
every token is legible. -/
structure Legible (t : SyntaxTree) : Prop where
  grown : ∀ nt, node nt [] ∉ t.subtrees
  tokens : ∀ z ∈ t.yield, z.Legible

namespace Legible

variable {t u : SyntaxTree}

theorem of_mem_children (h : t.Legible) : ∀ c ∈ t.children, c.Legible := by
  cases t with
  | leaf token => simp [children]
  | node nt cs =>
    intro c hc
    refine ⟨fun nt' hmem => h.grown nt' ?_, fun z hz => h.tokens z ?_⟩
    · rw [subtrees_node]
      exact List.mem_cons_of_mem _ (List.mem_flatMap.2 ⟨c, hc, hmem⟩)
    · rw [yield_node]
      exact List.mem_flatMap.2 ⟨c, hc, hz⟩

/-- The terminals of a legible tree are the nodes with nothing below them. -/
theorem isTerminal_iff (h : t.Legible) : t.label.isTerminal ↔ t.children = [] := by
  cases t with
  | leaf token => simp [NodeLabel.isTerminal, children]
  | node nt cs =>
    have hne : cs ≠ [] := by
      rintro rfl
      exact h.grown nt (by simp)
    simpa [NodeLabel.isTerminal, children] using hne

theorem canonical_label (h : t.Legible) {z : Symbol} (hz : t.label = .terminal z) :
    z.Canonical := by
  obtain rfl := eq_leaf hz
  exact (h.tokens z (by simp)).canonical

/-- Legible trees that look alike at the root and have the same children are the same. -/
theorem eq_of_shown (ht : t.Legible) (hu : u.Legible) (hshown : t.label.shown = u.label.shown)
    (hchildren : t.children = u.children) : t = u := by
  have hterminal : t.label.isTerminal = u.label.isTerminal := by
    rw [Bool.eq_iff_iff, ht.isTerminal_iff, hu.isTerminal_iff, hchildren]
  have hlabel : t.label = u.label :=
    ParseTree.label_eq_of_shown (fun _ => ht.canonical_label) (fun _ => hu.canonical_label) hshown
      hterminal
  cases hl : u.label with
  | terminal z => rw [eq_leaf hl, eq_leaf (hlabel.trans hl)]
  | nonTerminal nt => rw [eq_node hl, eq_node (hlabel.trans hl), hchildren]

end Legible

/-- Whether an outline does not go on with a line that is indented by more than `depth` steps. -/
def Stops (depth : Nat) (lines : List (Nat × String)) : Prop := ∀ l ∈ lines.head?, l.1 ≤ depth

variable {depth : Nat} {rest rest' : List (Nat × String)}

theorem Stops.outlineOf_append (h : Stops depth rest) (cs : List SyntaxTree) :
    Stops (depth + 1) (outlineOf (depth + 1) cs ++ rest) := by
  intro l hl
  cases cs with
  | nil => exact Nat.le_succ_of_le (h l hl)
  | cons c cs =>
    rw [outlineOf, outline_eq] at hl
    obtain rfl : (depth + 1, c.label.shown) = l := by simpa using hl
    exact Nat.le_refl _

/-- What is below a node is indented further than what follows the node. -/
theorem Stops.ne_outlineOf_append (h : Stops depth rest) (c : SyntaxTree) (cs : List SyntaxTree) :
    rest ≠ outlineOf (depth + 1) (c :: cs) ++ rest' := by
  rintro rfl
  have hle := h (depth + 1, c.label.shown) (by rw [outlineOf, outline_eq]; simp)
  exact absurd hle (Nat.not_succ_le_self depth)

/-- Whether a tree is known by its outline, up to the next line that is not indented further. -/
def Outlined (t : SyntaxTree) : Prop :=
  ∀ (u : SyntaxTree) (depth : Nat) (rest rest' : List (Nat × String)), u.Legible →
    Stops depth rest → Stops depth rest' → t.outline depth ++ rest = u.outline depth ++ rest' →
      t = u ∧ rest = rest'

/-- Siblings are known by their outlines if each of them is. -/
theorem outlineOf_cancel {cs ds : List SyntaxTree} (hcs : ∀ c ∈ cs, c.Outlined)
    (hds : ∀ d ∈ ds, d.Legible) (hrest : Stops depth rest) (hrest' : Stops depth rest')
    (h : outlineOf (depth + 1) cs ++ rest = outlineOf (depth + 1) ds ++ rest') :
    cs = ds ∧ rest = rest' := by
  induction cs generalizing ds with
  | nil =>
    cases ds with
    | nil => exact ⟨rfl, h⟩
    | cons d ds => exact absurd h (hrest.ne_outlineOf_append d ds)
  | cons c cs ih =>
    cases ds with
    | nil => exact absurd h.symm (hrest'.ne_outlineOf_append c cs)
    | cons d ds =>
      obtain ⟨hc, hmore⟩ := List.forall_mem_cons.1 hcs
      obtain ⟨hd, hmore'⟩ := List.forall_mem_cons.1 hds
      rw [outlineOf, outlineOf, List.append_assoc, List.append_assoc] at h
      obtain ⟨rfl, hafter⟩ :=
        hc d _ _ _ hd (hrest.outlineOf_append cs) (hrest'.outlineOf_append ds) h
      obtain ⟨rfl, rfl⟩ := ih hmore hmore' hafter
      exact ⟨rfl, rfl⟩

theorem Legible.outlined_of_children {t : SyntaxTree} (ht : t.Legible)
    (h : ∀ c ∈ t.children, c.Outlined) : t.Outlined := by
  intro u depth rest rest' hu hrest hrest' heq
  rw [outline_eq, outline_eq] at heq
  obtain ⟨hline, hbelow⟩ := List.cons.inj heq
  obtain ⟨hchildren, rfl⟩ := outlineOf_cancel h hu.of_mem_children hrest hrest' hbelow
  exact ⟨ht.eq_of_shown hu (Prod.mk.inj hline).2 hchildren, rfl⟩

theorem Legible.outlined {t : SyntaxTree} (h : t.Legible) : t.Outlined := by
  induction t with
  | leaf token => exact h.outlined_of_children (by simp [children])
  | node nt cs ih => exact h.outlined_of_children fun c hc => ih c hc (h.of_mem_children c hc)

theorem Legible.eq_of_outline_eq {t u : SyntaxTree} (ht : t.Legible) (hu : u.Legible)
    (h : t.outline 0 = u.outline 0) : t = u := by
  have hstops : Stops 0 [] := nofun
  exact (ht.outlined u 0 [] [] hu hstops hstops (by rw [h])).1

end SyntaxTree

/-! Outlines as texts. -/

namespace Outline

/-- A text behind two blanks for each step from the root. -/
def line (l : Nat × String) : String := String.ofList (List.replicate (2 * l.1) ' ') ++ l.2

/-- The indentation of a line, in steps, and what is indented. -/
def read (s : String) : Nat × String :=
  ((s.toList.takeWhile (· = ' ')).length / 2, String.ofList (s.toList.dropWhile (· = ' ')))

theorem span_spaces {cs : List Char} (h : ' ' ∉ cs) (n : Nat) :
    (List.replicate n ' ' ++ cs).takeWhile (· = ' ') = List.replicate n ' ' ∧
      (List.replicate n ' ' ++ cs).dropWhile (· = ' ') = cs := by
  induction n with
  | zero =>
    cases cs with
    | nil => exact ⟨rfl, rfl⟩
    | cons c cs =>
      have hc : c ≠ ' ' := fun hc => h (hc ▸ List.mem_cons_self)
      simp [hc]
  | succ n ih => simpa [List.replicate_succ] using ih

/-- A line is read back if there are no blanks in its text. -/
theorem read_line {l : Nat × String} (h : ∀ c ∈ l.2.toList, isBlank c = false) :
    read (line l) = l := by
  have hspace : ' ' ∉ l.2.toList := fun hc => absurd (h ' ' hc) (by decide)
  obtain ⟨htake, hdrop⟩ := span_spaces hspace (2 * l.1)
  rw [read, line, String.toList_append, String.toList_ofList, htake, hdrop]
  simp

theorem oneLine_line {l : Nat × String} (h : ∀ c ∈ l.2.toList, isBlank c = false) :
    OneLine (line l) := by
  have hmem {c : Char} (hc : c ∈ (line l).toList) : c = ' ' ∨ isBlank c = false := by
    rw [line, String.toList_append, String.toList_ofList, List.mem_append] at hc
    exact hc.imp List.eq_of_mem_replicate (h c)
  have hfeed : ¬ ('\n' = ' ' ∨ isBlank '\n' = false) := by decide
  have hreturn : ¬ ('\r' = ' ' ∨ isBlank '\r' = false) := by decide
  exact ⟨fun hc => hfeed (hmem hc), fun hc => hreturn (hmem (List.mem_of_getLast? hc))⟩

end Outline

namespace ParseTree

open SyntaxTree

variable {tree : ParseTree}

theorem Has.shownAt {id : Nat} {parent : Option Nat} {t : SyntaxTree}
    (h : tree.Has id (t.table id parent)) : tree.shownAt id = t.label.shown := by
  rw [ParseTree.shownAt, h.label?]
  rfl

mutual

/-- A walk from a tree in a table meets what the outline of the tree says. -/
theorem Has.map_visits {id : Nat} {parent : Option Nat} (depth : Nat) : {t : SyntaxTree} →
    tree.Has id (t.table id parent) →
      (t.visits id depth).map (fun v => (v.2, tree.shownAt v.1)) = t.outline depth
  | .leaf token, h => by
    rw [visits, List.map_singleton, h.shownAt]
    rfl
  | .node nt cs, h => by
    have hbelow := Has.map_visitsOf (depth + 1) h.below
    rw [visits, List.map_cons, h.shownAt]
    exact congrArg _ hbelow

theorem Has.map_visitsOf {id : Nat} {parent : Option Nat} (depth : Nat) : {cs : List SyntaxTree} →
    tree.Has id (tableOf id parent cs) →
      (visitsOf id depth cs).map (fun v => (v.2, tree.shownAt v.1)) = outlineOf depth cs
  | [], _ => rfl
  | c :: cs, h => by
    obtain ⟨hc, hcs⟩ := h.cons
    rw [visitsOf, List.map_append, Has.map_visits depth hc, Has.map_visitsOf depth hcs]
    rfl

end

end ParseTree

namespace SyntaxTree

variable {t u : SyntaxTree}

theorem render_arena (t : SyntaxTree) :
    t.arena.render = String.join (((t.outline 0).map Outline.line).map (· ++ "\n")) := by
  rw [ParseTree.render, walk_arena, ← t.has_arena.map_visits 0, List.map_map, List.map_map]
  rfl

theorem unbroken_letter (nt : NonTerminal) : ∀ c ∈ nt.letter.toList, isBlank c = false :=
  not_blank_of_any (by cases nt <;> decide)

theorem Legible.unbroken (h : t.Legible) {depth : Nat} {l : Nat × String}
    (hl : l ∈ t.outline depth) : ∀ c ∈ l.2.toList, isBlank c = false := by
  induction t generalizing depth with
  | leaf token =>
    obtain rfl : l = (depth, token.shown) := List.mem_singleton.1 hl
    exact (h.tokens token (by simp)).unbroken
  | node nt cs ih =>
    rw [outline, outlineOf_eq, List.mem_cons, List.mem_flatMap] at hl
    rcases hl with rfl | ⟨c, hc, hl⟩
    · exact unbroken_letter nt
    · exact ih c hc (h.of_mem_children c hc) hl

/-- The lines of a rendering are those of the outline. -/
theorem Legible.linesOf_render (h : t.Legible) :
    linesOf t.arena.render = (t.outline 0).map Outline.line := by
  rw [render_arena]
  exact linesOf_join (List.forall_mem_map.2 fun l hl => Outline.oneLine_line (h.unbroken hl))

/-- The outline of a legible tree is read back from its rendering. -/
theorem Legible.map_read_linesOf_render (h : t.Legible) :
    (linesOf t.arena.render).map Outline.read = t.outline 0 := by
  rw [h.linesOf_render, List.map_map]
  exact (List.map_congr_left fun l hl => Outline.read_line (h.unbroken hl)).trans (List.map_id _)

/-- Legible trees that are rendered alike are the same. -/
theorem Legible.eq_of_render_eq (ht : t.Legible) (hu : u.Legible)
    (h : t.arena.render = u.arena.render) : t = u := by
  refine ht.eq_of_outline_eq hu ?_
  rw [← ht.map_read_linesOf_render, h, hu.map_read_linesOf_render]

end SyntaxTree

theorem Signature.Derives.grown {s : Signature} {t : SyntaxTree} (h : s.Derives t) :
    ∀ nt, SyntaxTree.node nt [] ∉ t.subtrees := fun _ hmem =>
  ((h.of_mem_subtrees hmem).produces rfl).ne_nil rfl

theorem Formula.legible_tree {s : Signature} (φ : Formula s) (h : ∀ z ∈ φ.yield, z.Legible) :
    φ.tree.Legible :=
  ⟨φ.derives.grown, by rwa [φ.yield_tree]⟩

namespace Pipeline

variable {σ τ : Type}

/-- The tree of a successful run on a text is that of a formula whose tokens are legible. -/
theorem exists_formula_of_runText {p : Pipeline (StateM σ)} {text : String} {w : σ} {x : Analysis}
    (h : ((p.runText text).run w).1.result = .ok x) :
    ∃ t : SyntaxTree, t.Legible ∧ x.tree = t.arena := by
  obtain ⟨a, tree, -, -, hparse, rfl⟩ :=
    Definition.analyze_eq_ok_iff.1 ((p.runText_eq_ok_iff text w).1 h)
  obtain ⟨φ, hyield, -, rfl⟩ := parse_eq_ok_iff.1 hparse
  refine ⟨φ.tree, φ.legible_tree fun z hz => ?_, rfl⟩
  exact Definition.legible_of_mem_formula text (hyield ▸ hz)

/-- The trees of successful runs on texts are the same if they are rendered alike. -/
theorem tree_eq_of_render_eq {p : Pipeline (StateM σ)} {q : Pipeline (StateM τ)}
    {text text' : String} {w : σ} {w' : τ} {x y : Analysis}
    (hx : ((p.runText text).run w).1.result = .ok x)
    (hy : ((q.runText text').run w').1.result = .ok y)
    (h : x.tree.render = y.tree.render) : x.tree = y.tree := by
  obtain ⟨t, ht, hxt⟩ := exists_formula_of_runText hx
  obtain ⟨u, hu, hyu⟩ := exists_formula_of_runText hy
  rw [hxt, hyu] at h ⊢
  rw [ht.eq_of_render_eq hu h]

end Pipeline

/-- An alphabet in which some symbols are shown as non-terminals are. -/
def Alphabet.letters : Alphabet where
  vars := [⟨"F"⟩]
  constants := []
  predicates := [⟨⟨"P"⟩, 1⟩]
  equality := ⟨"="⟩
  connectives := ⟨⟨"C"⟩, ⟨"K"⟩, ⟨"J"⟩, ⟨"T"⟩, ⟨"V"⟩⟩
  quantifiers := ⟨⟨"Q"⟩, ⟨"Z"⟩⟩
  distinct := by decide
  unreserved := by decide

/-- The formula `Q F P(F)`. -/
def Formula.letters : Formula Alphabet.letters.toSignature :=
  let v : Alphabet.letters.Member .var := ⟨⟨"F"⟩, by decide⟩
  .quantified ⟨⟨"Q"⟩, by decide⟩ v (.atom ⟨⟨"P"⟩, by decide⟩ (.last v))

/-- A text that states the formula `Q F P(F)` over these symbols. -/
def Definition.lettersText : String :=
  "variables: F\npredicates: P[1]\nequality: =\nconnectives: C K J T V\nquantifiers: Q Z\n" ++
    "formula: Q F P(F)"

/-- The same in another layout. -/
def Definition.lettersSpread : String :=
  "formula:\n  Q F\n  P ( F )\nequality: =\nconnectives: C K J\n  T V\nquantifiers: Q Z\n" ++
    "variables: F\npredicates: P[1]"

/-- Two layouts of a text give the same tree, as its rendering tells. -/
theorem Pipeline.tree_eq_of_render_eq_letters :
    let p : Pipeline (StateM Unit) := ⟨{}, pure ⟨2024, 3, 7, 9, 5, 1⟩, .discard⟩
    ∃ x y : Analysis,
      ((p.runText Definition.lettersText).run ()).1.result = .ok x ∧
        ((p.runText Definition.lettersSpread).run ()).1.result = .ok y ∧
        x.tree.render = y.tree.render ∧ x.tree = y.tree := by
  intro p
  have hread : ∀ text ∈ [Definition.lettersText, Definition.lettersSpread],
      (Definition.ofText text).declaration.signature = .ok Alphabet.letters.toSignature ∧
        (Definition.ofText text).formula = Formula.letters.yield := by
    decide +kernel
  have hrun : ∀ text ∈ [Definition.lettersText, Definition.lettersSpread], ∃ x,
      ((p.runText text).run ()).1.result = .ok x ∧ x.tree = Formula.letters.tree.arena := by
    intro text htext
    obtain ⟨hsignature, hformula⟩ := hread text htext
    have hvalid : (Definition.ofText text).declaration.validate = .ok .letters :=
      Declaration.validate_eq_ok_iff.2 ⟨hsignature, by decide⟩
    have hstructure : checkStructure Alphabet.letters.toSignature (Definition.ofText text).formula =
        .ok () := by
      rw [hformula]
      decide
    have hparse : parse .letters p.options.limit (Definition.ofText text).formula =
        .ok Formula.letters.tree.arena := by
      rw [hformula]
      exact Formula.letters.parse_yield (by decide)
    have hanalyze := Definition.analyze_eq_ok_iff.2 ⟨_, _, hvalid, hstructure, hparse, rfl⟩
    exact ⟨_, (p.runText_eq_ok_iff text ()).2 hanalyze, rfl⟩
  obtain ⟨x, hx, hxt⟩ := hrun Definition.lettersText (by simp)
  obtain ⟨y, hy, hyt⟩ := hrun Definition.lettersSpread (by simp)
  have hrender : x.tree.render = y.tree.render := by rw [hxt, hyt]
  exact ⟨x, y, hx, hy, hrender, tree_eq_of_render_eq hx hy hrender⟩

end Formulary
