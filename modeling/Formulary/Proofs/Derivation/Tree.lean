import Formulary.Grammar.Description
import Formulary.Tree
import Mathlib.Algebra.GroupWithZero.Nat
import Mathlib.Data.List.Forall2

/-!
Derivation trees. A tree derives its yield when the labels below each of its inner nodes are an
instance of an alternative of that node's production.
-/

namespace Formulary

/-- A token, or a non-terminal with the trees of what it was expanded to. -/
inductive SyntaxTree
  | leaf (token : Symbol)
  | node (nt : NonTerminal) (children : List SyntaxTree)

namespace SyntaxTree

/-- Induction over trees, with a hypothesis for every child. -/
@[elab_as_elim, induction_eliminator]
theorem induct {motive : SyntaxTree → Prop} (leaf : ∀ token, motive (.leaf token))
    (node : ∀ nt children, (∀ c ∈ children, motive c) → motive (.node nt children))
    (t : SyntaxTree) : motive t :=
  @SyntaxTree.rec motive (fun cs => ∀ c ∈ cs, motive c) leaf node (by simp) (by simp_all) t

def label : SyntaxTree → NodeLabel
  | leaf token => .terminal token
  | node nt _ => .nonTerminal nt

def children : SyntaxTree → List SyntaxTree
  | leaf _ => []
  | node _ cs => cs

mutual

/-- A tree and all trees below it, from top to bottom and left to right. -/
def subtrees : SyntaxTree → List SyntaxTree
  | leaf token => [leaf token]
  | node nt cs => node nt cs :: subtreesOf cs

def subtreesOf : List SyntaxTree → List SyntaxTree
  | [] => []
  | c :: cs => subtrees c ++ subtreesOf cs

end

def size (t : SyntaxTree) : Nat := t.subtrees.length

/-- The tokens at the leaves, from left to right. -/
def yield (t : SyntaxTree) : List Symbol := t.subtrees.filterMap (·.label.terminal?)

mutual

/-- The largest number of formulas on a path from the root to a leaf. -/
def nesting : SyntaxTree → Nat
  | leaf _ => 0
  | node nt cs => nestingOf cs + if nt = .formula then 1 else 0

def nestingOf : List SyntaxTree → Nat
  | [] => 0
  | c :: cs => max (nesting c) (nestingOf cs)

end

@[simp] theorem label_leaf (token : Symbol) : (leaf token).label = .terminal token := rfl

@[simp] theorem label_node (nt : NonTerminal) (cs : List SyntaxTree) :
    (node nt cs).label = .nonTerminal nt := rfl

theorem eq_leaf {t : SyntaxTree} {token : Symbol} (h : t.label = .terminal token) :
    t = leaf token := by
  cases t <;> simp_all

theorem eq_node {t : SyntaxTree} {nt : NonTerminal} (h : t.label = .nonTerminal nt) :
    t = node nt t.children := by
  cases t <;> simp_all [children]

theorem subtreesOf_eq (cs : List SyntaxTree) : subtreesOf cs = cs.flatMap subtrees := by
  induction cs with
  | nil => rfl
  | cons c cs ih => rw [subtreesOf, ih, List.flatMap_cons]

@[simp] theorem subtrees_leaf (token : Symbol) : (leaf token).subtrees = [leaf token] := by
  rw [subtrees]

@[simp] theorem subtrees_node (nt : NonTerminal) (cs : List SyntaxTree) :
    (node nt cs).subtrees = node nt cs :: cs.flatMap subtrees := by
  rw [subtrees, subtreesOf_eq]

@[simp] theorem yield_leaf (token : Symbol) : (leaf token).yield = [token] := rfl

@[simp] theorem yield_node (nt : NonTerminal) (cs : List SyntaxTree) :
    (node nt cs).yield = cs.flatMap yield := by
  rw [yield, subtrees_node, List.filterMap_cons, List.filterMap_flatMap]
  rfl

@[simp] theorem nesting_leaf (token : Symbol) : (leaf token).nesting = 0 := by
  rw [nesting]

theorem nestingOf_eq (cs : List SyntaxTree) : nestingOf cs = (cs.map nesting).foldr max 0 := by
  induction cs with
  | nil => rfl
  | cons c cs ih => rw [nestingOf, ih, List.map_cons, List.foldr_cons]

@[simp] theorem nesting_node (nt : NonTerminal) (cs : List SyntaxTree) :
    (node nt cs).nesting =
      (cs.map nesting).foldr max 0 + if nt = .formula then 1 else 0 := by
  rw [nesting, nestingOf_eq]

theorem nesting_le_nestingOf {c : SyntaxTree} {cs : List SyntaxTree} (h : c ∈ cs) :
    c.nesting ≤ nestingOf cs := by
  induction cs with
  | nil => simp at h
  | cons d ds ih =>
    rw [nestingOf]
    rcases List.mem_cons.1 h with rfl | h
    · exact Nat.le_max_left _ _
    · exact Nat.le_trans (ih h) (Nat.le_max_right _ _)

/-- A tree that has no formula on any path has none among its subtrees. -/
theorem label_ne_formula {t u : SyntaxTree} (h : t.nesting = 0) (hu : u ∈ t.subtrees) :
    u.label ≠ .nonTerminal .formula := by
  induction t with
  | leaf token =>
    obtain rfl : u = leaf token := by simpa using hu
    simp
  | node nt cs ih =>
    rw [nesting, Nat.add_eq_zero_iff] at h
    obtain ⟨hbelow, hroot⟩ := h
    rw [subtrees_node, List.mem_cons, List.mem_flatMap] at hu
    obtain rfl | ⟨c, hc, hcu⟩ := hu
    · simpa using hroot
    · have hle := nesting_le_nestingOf hc
      exact ih c hc (by omega) hcu

@[simp] theorem size_ne_zero (t : SyntaxTree) : t.size ≠ 0 := by
  cases t <;> simp [size]

@[simp] theorem size_leaf (token : Symbol) : (leaf token).size = 1 := rfl

@[simp] theorem size_node (nt : NonTerminal) (cs : List SyntaxTree) :
    (node nt cs).size = (cs.map size).sum + 1 := by
  rw [size, subtrees_node, List.length_cons, List.length_flatMap]
  rfl

end SyntaxTree

namespace Signature

/-- Whether a node with a label may stand where a template has an element. -/
def Fills (s : Signature) : Element → NodeLabel → Prop
  | .nt nt, l => l = .nonTerminal nt
  | .punct symbol, l => l = .terminal symbol
  | .equality, l => l = .terminal s.equality
  | .negation, l => l = .terminal s.connectives.neg
  | .each set, l => ∃ t ∈ s.terminalSet set, l = .terminal t

/-- Whether labels are an instance of an alternative of the production of a non-terminal. -/
def Produces (s : Signature) (nt : NonTerminal) (labels : List NodeLabel) : Prop :=
  ∃ p ∈ Production.all, p.lhs = nt ∧ ∃ alt ∈ p.alternatives, List.Forall₂ s.Fills alt labels

inductive Derives (s : Signature) : SyntaxTree → Prop
  | leaf (token : Symbol) : Derives s (.leaf token)
  | node {nt : NonTerminal} {children : List SyntaxTree}
      (produces : s.Produces nt (children.map SyntaxTree.label))
      (below : ∀ c ∈ children, Derives s c) : Derives s (.node nt children)

/-- The trees by which formulas are derived. -/
structure DerivesFormula (s : Signature) (t : SyntaxTree) : Prop where
  root : t.label = .nonTerminal .formula
  derives : s.Derives t

/-- Every non-terminal has one production. -/
theorem produces_iff_of_mem (s : Signature) {p : Production} (hp : p ∈ Production.all)
    (labels : List NodeLabel) :
    s.Produces p.lhs labels ↔ ∃ alt ∈ p.alternatives, List.Forall₂ s.Fills alt labels := by
  constructor
  · rintro ⟨q, hq, hlhs, halt⟩
    have hinj : ∀ q ∈ Production.all, ∀ p ∈ Production.all, q.lhs = p.lhs → q = p := by decide
    rwa [← hinj q hq p hp hlhs]
  · exact fun halt => ⟨p, hp, rfl, halt⟩

/-- No production derives nothing. -/
theorem Produces.ne_nil {s : Signature} {nt : NonTerminal} {labels : List NodeLabel}
    (h : s.Produces nt labels) : labels ≠ [] := by
  rintro rfl
  obtain ⟨p, hp, -, alt, halt, hlabels⟩ := h
  have hne : ∀ p ∈ Production.all, [] ∉ p.alternatives := by decide
  obtain rfl := List.forall₂_nil_right_iff.1 hlabels
  exact hne p hp halt

theorem Derives.of_mem_subtrees {s : Signature} {t u : SyntaxTree} (h : s.Derives t)
    (hu : u ∈ t.subtrees) : s.Derives u := by
  induction h with
  | leaf token =>
    obtain rfl : u = .leaf token := by simpa using hu
    exact .leaf token
  | node produces below ih =>
    rw [SyntaxTree.subtrees_node, List.mem_cons, List.mem_flatMap] at hu
    obtain rfl | ⟨c, hc, hcu⟩ := hu
    · exact .node produces below
    · exact ih c hc hcu

/-- The labels below an inner node of a derivation tree are an instance of its production. -/
theorem Derives.produces {s : Signature} {t : SyntaxTree} (h : s.Derives t) {nt : NonTerminal}
    (hl : t.label = .nonTerminal nt) : s.Produces nt (t.children.map SyntaxTree.label) := by
  cases h with
  | leaf token => simp at hl
  | node produces _ =>
    obtain rfl : _ = nt := by simpa using hl
    exact produces

theorem Derives.of_mem_children {s : Signature} {t : SyntaxTree} (h : s.Derives t) :
    ∀ c ∈ t.children, s.Derives c := by
  cases h with
  | leaf token => simp [SyntaxTree.children]
  | node _ below => exact below

end Signature

end Formulary
