import Formulary.Proofs.Derivation.Tree
import Mathlib.Data.List.Basic

/-!
Derivation trees as tables of nodes. The nodes are numbered in reading order, so that the nodes of
every subtree stand together in the table, and walking the table visits them in that order.
-/

namespace Formulary

namespace SyntaxTree

/-- The numbers of siblings, the first of which is numbered `id`. -/
def ids (id : Nat) : List SyntaxTree → List Nat
  | [] => []
  | c :: cs => id :: ids (id + c.size) cs

mutual

/-- The nodes of a tree whose root is numbered `id`. -/
def table (id : Nat) (parent : Option Nat) : SyntaxTree → List Node
  | leaf token => [⟨.terminal token, parent, []⟩]
  | node nt cs => ⟨.nonTerminal nt, parent, ids (id + 1) cs⟩ :: tableOf (id + 1) (some id) cs

def tableOf (id : Nat) (parent : Option Nat) : List SyntaxTree → List Node
  | [] => []
  | c :: cs => table id parent c ++ tableOf (id + c.size) parent cs

end

/-- The table of a tree. -/
def arena (t : SyntaxTree) : ParseTree := ⟨(t.table 0 none).toArray⟩

mutual

/-- The numbers of the nodes of a tree from top to bottom and left to right, each with its distance
from a node that is `depth` above the root. -/
def visits (id depth : Nat) : SyntaxTree → List (Nat × Nat)
  | leaf _ => [(id, depth)]
  | node _ cs => (id, depth) :: visitsOf (id + 1) (depth + 1) cs

def visitsOf (id depth : Nat) : List SyntaxTree → List (Nat × Nat)
  | [] => []
  | c :: cs => visits id depth c ++ visitsOf (id + c.size) depth cs

end

theorem table_eq (t : SyntaxTree) (id : Nat) (parent : Option Nat) :
    t.table id parent =
      ⟨t.label, parent, ids (id + 1) t.children⟩ :: tableOf (id + 1) (some id) t.children := by
  cases t <;> simp [table, tableOf, children, ids]

theorem visits_eq (t : SyntaxTree) (id depth : Nat) :
    t.visits id depth = (id, depth) :: visitsOf (id + 1) (depth + 1) t.children := by
  cases t <;> simp [visits, visitsOf, children]

theorem ids_append (id : Nat) (cs ds : List SyntaxTree) :
    ids id (cs ++ ds) = ids id cs ++ ids (id + (cs.map size).sum) ds := by
  induction cs generalizing id with
  | nil => simp [ids]
  | cons c cs ih => simp [ids, ih, Nat.add_assoc]

theorem tableOf_append (id : Nat) (parent : Option Nat) (cs ds : List SyntaxTree) :
    tableOf id parent (cs ++ ds) =
      tableOf id parent cs ++ tableOf (id + (cs.map size).sum) parent ds := by
  induction cs generalizing id with
  | nil => simp [tableOf]
  | cons c cs ih => simp [tableOf, ih, Nat.add_assoc]

mutual

/-- Labels stand in the table as they are met in the tree. -/
theorem map_label_table (id : Nat) (parent : Option Nat) : (t : SyntaxTree) →
    (t.table id parent).map Node.label = t.subtrees.map label
  | leaf token => by simp [table]
  | node nt cs => by simp [table, map_label_tableOf (id + 1) (some id) cs]

theorem map_label_tableOf (id : Nat) (parent : Option Nat) : (cs : List SyntaxTree) →
    (tableOf id parent cs).map Node.label = (cs.flatMap subtrees).map label
  | [] => by simp [tableOf]
  | c :: cs => by
    simp [tableOf, map_label_table id parent c, map_label_tableOf (id + c.size) parent cs]

end

@[simp] theorem length_table (t : SyntaxTree) (id : Nat) (parent : Option Nat) :
    (t.table id parent).length = t.size := by
  simpa [size] using congrArg List.length (map_label_table id parent t)

theorem length_tableOf (id : Nat) (parent : Option Nat) (cs : List SyntaxTree) :
    (tableOf id parent cs).length = (cs.map size).sum := by
  induction cs generalizing id with
  | nil => rfl
  | cons c cs ih => simp [tableOf, ih]

@[simp] theorem size_arena (t : SyntaxTree) : t.arena.size = t.size := by
  simp [arena, ParseTree.size]

mutual

/-- A tree is visited in the order of its numbers. -/
theorem map_fst_visits (id depth : Nat) : (t : SyntaxTree) →
    (t.visits id depth).map Prod.fst = List.range' id t.size
  | leaf token => by simp [visits]
  | node nt cs => by simp [visits, map_fst_visitsOf (id + 1) (depth + 1) cs, List.range'_succ]

theorem map_fst_visitsOf (id depth : Nat) : (cs : List SyntaxTree) →
    (visitsOf id depth cs).map Prod.fst = List.range' id (cs.map size).sum
  | [] => by simp [visitsOf]
  | c :: cs => by
    rw [visitsOf, List.map_append, map_fst_visits id depth c,
      map_fst_visitsOf (id + c.size) depth cs, List.map_cons, List.sum_cons, List.range'_append_1]

end

end SyntaxTree

namespace ParseTree

open SyntaxTree

variable {tree : ParseTree} {id : Nat} {parent : Option Nat}

/-- Whether nodes stand together in a table, the first of them at `id`. -/
def Has (tree : ParseTree) (id : Nat) (nodes : List Node) : Prop :=
  nodes <+: tree.nodes.toList.drop id

theorem Has.append {xs ys : List Node} (h : tree.Has id (xs ++ ys)) :
    tree.Has id xs ∧ tree.Has (id + xs.length) ys := by
  obtain ⟨zs, hzs⟩ := h
  refine ⟨⟨ys ++ zs, by rw [← hzs, List.append_assoc]⟩, zs, ?_⟩
  rw [← List.drop_drop, ← hzs, List.append_assoc, List.drop_left]

theorem Has.getElem? {n : Node} {ns : List Node} (h : tree.Has id (n :: ns)) :
    tree.nodes[id]? = some n := by
  obtain ⟨zs, hzs⟩ := h
  have hhead := congrArg List.head? hzs
  simpa using hhead.symm

theorem Has.root {t : SyntaxTree} (h : tree.Has id (t.table id parent)) :
    tree.nodes[id]? = some ⟨t.label, parent, ids (id + 1) t.children⟩ :=
  Has.getElem? (by rwa [table_eq] at h)

theorem Has.label? {t : SyntaxTree} (h : tree.Has id (t.table id parent)) :
    tree.label? id = some t.label := by
  rw [ParseTree.label?, h.root]
  rfl

theorem Has.children_eq {t : SyntaxTree} (h : tree.Has id (t.table id parent)) :
    tree.children id = ids (id + 1) t.children := by
  rw [children, h.root]

theorem Has.below {t : SyntaxTree} (h : tree.Has id (t.table id parent)) :
    tree.Has (id + 1) (tableOf (id + 1) (some id) t.children) := by
  rw [table_eq] at h
  exact (List.singleton_append ▸ h : tree.Has id ([_] ++ _)).append.2

theorem Has.cons {c : SyntaxTree} {cs : List SyntaxTree}
    (h : tree.Has id (tableOf id parent (c :: cs))) :
    tree.Has id (c.table id parent) ∧
      tree.Has (id + c.size) (tableOf (id + c.size) parent cs) := by
  rw [tableOf] at h
  simpa using h.append

theorem Has.map_label? {cs : List SyntaxTree} (h : tree.Has id (tableOf id parent cs)) :
    (ids id cs).map tree.label? = cs.map fun c => some c.label := by
  induction cs generalizing id with
  | nil => rfl
  | cons c cs ih =>
    obtain ⟨hc, hcs⟩ := h.cons
    simp [ids, hc.label?, ih hcs]

theorem Has.map_getElem? {nodes : List Node} (h : tree.Has id nodes) :
    (List.range' id nodes.length).map (tree.nodes[·]?) = nodes.map some := by
  induction nodes generalizing id with
  | nil => rfl
  | cons n ns ih =>
    have hns : tree.Has (id + 1) ns :=
      (List.singleton_append ▸ h : tree.Has id ([n] ++ ns)).append.2
    rw [List.length_cons, List.range'_succ, List.map_cons, List.map_cons, h.getElem?, ih hns]

/-- Where a table has a tree, it has the labels of its subtrees. -/
theorem Has.map_label?_range' {t : SyntaxTree} (h : tree.Has id (t.table id parent)) :
    (List.range' id t.size).map tree.label? = t.subtrees.map (some ·.label) := by
  have hlabels := congrArg (List.map (Option.map Node.label)) h.map_getElem?
  rw [List.map_map, List.map_map, length_table] at hlabels
  have hsome := congrArg (List.map some) (map_label_table id parent t)
  rw [List.map_map, List.map_map] at hsome
  exact hlabels.trans hsome

mutual

/-- A table that has a tree has its subtrees, in reading order. -/
theorem Has.subtree {u : SyntaxTree} {id i : Nat} {parent : Option Nat} : {t : SyntaxTree} →
    tree.Has id (t.table id parent) → t.subtrees[i]? = some u →
      ∃ above, tree.Has (id + i) (u.table (id + i) above)
  | .leaf token, h, hu => by
    obtain ⟨rfl, rfl⟩ : i = 0 ∧ SyntaxTree.leaf token = u := by
      simpa [List.getElem?_singleton] using hu
    exact ⟨parent, h⟩
  | .node nt cs, h, hu => by
    rw [subtrees_node] at hu
    cases i with
    | zero =>
      obtain rfl : SyntaxTree.node nt cs = u := by simpa using hu
      exact ⟨parent, h⟩
    | succ i =>
      rw [← Nat.add_assoc, Nat.add_right_comm]
      exact Has.subtree_of h.below hu

theorem Has.subtree_of {u : SyntaxTree} {id i : Nat} {parent : Option Nat} :
    {cs : List SyntaxTree} → tree.Has id (tableOf id parent cs) →
      (cs.flatMap subtrees)[i]? = some u → ∃ above, tree.Has (id + i) (u.table (id + i) above)
  | [], _, hu => by simp at hu
  | c :: cs, h, hu => by
    obtain ⟨hc, hcs⟩ := h.cons
    rw [List.flatMap_cons, List.getElem?_append] at hu
    split at hu
    · exact Has.subtree hc hu
    · next hi =>
      have hsum : id + c.size + (i - c.subtrees.length) = id + i := by
        rw [SyntaxTree.size]
        omega
      rw [← hsum]
      exact Has.subtree_of hcs hu

end

mutual

/-- A walk from a tree visits all of it before it goes on. -/
theorem Has.walkFrom {id : Nat} {parent : Option Nat} (fuel depth : Nat)
    (stack : List (Nat × Nat)) : {t : SyntaxTree} → tree.Has id (t.table id parent) →
      tree.walkFrom (t.size + fuel) ((id, depth) :: stack) =
        t.visits id depth ++ tree.walkFrom fuel stack
  | .leaf token, h => by
    rw [size_leaf, Nat.add_comm, ParseTree.walkFrom, h.children_eq]
    rfl
  | .node nt cs, h => by
    rw [size_node, Nat.add_right_comm, ParseTree.walkFrom, h.children_eq, visits_eq,
      List.cons_append]
    exact congrArg _ (Has.walkFrom_of fuel (depth + 1) stack h.below)

theorem Has.walkFrom_of {id : Nat} {parent : Option Nat} (fuel depth : Nat)
    (stack : List (Nat × Nat)) : {cs : List SyntaxTree} → tree.Has id (tableOf id parent cs) →
      tree.walkFrom ((cs.map SyntaxTree.size).sum + fuel) ((ids id cs).map (·, depth) ++ stack) =
        visitsOf id depth cs ++ tree.walkFrom fuel stack
  | [], _ => by simp [ids, visitsOf]
  | c :: cs, h => by
    obtain ⟨hc, hcs⟩ := h.cons
    rw [List.map_cons, List.sum_cons, Nat.add_assoc, ids, List.map_cons, List.cons_append,
      Has.walkFrom _ depth _ hc, Has.walkFrom_of fuel depth stack hcs, visitsOf, List.append_assoc]

end

mutual

/-- A table has one tree at most at a place. -/
theorem Has.unique {id : Nat} {parent parent' : Option Nat} : {t u : SyntaxTree} →
    tree.Has id (t.table id parent) → tree.Has id (u.table id parent') → t = u
  | .leaf token, u, h, h' => by
    have hlabel : some (NodeLabel.terminal token) = some u.label := h.label?.symm.trans h'.label?
    exact (eq_leaf (Option.some.inj hlabel).symm).symm
  | .node nt cs, u, h, h' => by
    have hlabel : some (NodeLabel.nonTerminal nt) = some u.label := h.label?.symm.trans h'.label?
    have hids : ids (id + 1) cs = ids (id + 1) u.children := h.children_eq.symm.trans h'.children_eq
    have hchildren : cs = u.children := Has.unique_of h.below h'.below hids
    rw [eq_node (Option.some.inj hlabel).symm, ← hchildren]

theorem Has.unique_of {id : Nat} {parent parent' : Option Nat} : {cs ds : List SyntaxTree} →
    tree.Has id (tableOf id parent cs) → tree.Has id (tableOf id parent' ds) →
      ids id cs = ids id ds → cs = ds
  | [], [], _, _, _ => rfl
  | [], d :: ds, _, _, hids => by simp [ids] at hids
  | c :: cs, [], _, _, hids => by simp [ids] at hids
  | c :: cs, d :: ds, h, h', hids => by
    obtain ⟨hc, hcs⟩ := h.cons
    obtain ⟨hd, hds⟩ := h'.cons
    obtain rfl := Has.unique hc hd
    have hrest : ids (id + c.size) cs = ids (id + c.size) ds := (List.cons.inj hids).2
    rw [Has.unique_of hcs hds hrest]

end

end ParseTree

namespace SyntaxTree

open ParseTree

variable (t : SyntaxTree)

theorem has_arena : t.arena.Has 0 (t.table 0 none) := by
  simp [Has, arena]

theorem walk_arena : t.arena.walk = t.visits 0 0 := by
  rw [walk, size_arena, ← Nat.add_zero t.size, t.has_arena.walkFrom 0 0 []]
  cases t <;> simp [ParseTree.walkFrom]

theorem preorder_arena : t.arena.preorder = List.range t.size := by
  rw [preorder, walk_arena, map_fst_visits, List.range_eq_range']

theorem label?_arena (id : Nat) : t.arena.label? id = (t.subtrees.map label)[id]? := by
  rw [← map_label_table 0 none t]
  simp [ParseTree.label?, arena]

/-- The terminals of the table of a tree are its yield. -/
theorem terminals_arena : t.arena.terminals = t.yield := by
  have hlabels : (List.range t.size).map t.arena.label? = t.subtrees.map (some ·.label) := by
    rw [List.range_eq_range', t.has_arena.map_label?_range']
  calc t.arena.terminals
      = ((List.range t.size).map t.arena.label?).filterMap (·.bind NodeLabel.terminal?) := by
        rw [terminals, preorder_arena, List.filterMap_map]
        rfl
    _ = t.yield := by
        rw [hlabels, List.filterMap_map, yield]
        rfl

/-- A tree is known by its table. -/
theorem arena_injective {t u : SyntaxTree} (h : t.arena = u.arena) : t = u := by
  have ht := t.has_arena
  rw [h] at ht
  exact ht.unique u.has_arena

end SyntaxTree

end Formulary
