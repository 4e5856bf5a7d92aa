import Formulary.Proofs.Parser.Reads
import Formulary.Proofs.Tree.Arena

/-!
What moves draw. The moves that read some trees attach just these trees, in order, below the node
that is open; so the moves that read a formula draw the table of its tree.
-/

namespace Formulary

theorem modify_append_of_lt {α : Type} {xs : List α} {i : Nat} (h : i < xs.length)
    (ys : List α) (f : α → α) : (xs ++ ys).modify i f = xs.modify i f ++ ys := by
  induction xs generalizing i with
  | nil => simp at h
  | cons x xs ih =>
    cases i with
    | zero => rfl
    | succ i => simp [ih (Nat.lt_of_succ_lt_succ h)]

theorem modify_append_of_length_eq {α : Type} {xs : List α} {i : Nat} (h : xs.length = i)
    (y : α) (f : α → α) : (xs ++ [y]).modify i f = xs ++ [f y] := by
  subst h
  induction xs with
  | nil => rfl
  | cons x xs ih => simp [ih]

/-- A node with more children after those it has. -/
def Node.adopt (ids : List Nat) (n : Node) : Node := { n with children := n.children ++ ids }

theorem Node.adopt_nil : Node.adopt [] = id := by
  funext n
  simp [adopt]

theorem Node.adopt_append (is js : List Nat) :
    Node.adopt (is ++ js) = Node.adopt js ∘ Node.adopt is := by
  funext n
  simp [adopt]

open SyntaxTree

namespace ParseTree

variable {tree : ParseTree} {p : Nat}

/-- Attaches trees, in order, as the last children of a node. -/
def graft (tree : ParseTree) (p : Nat) (cs : List SyntaxTree) : ParseTree :=
  ⟨tree.nodes.modify p (Node.adopt (ids tree.size cs)) ++
    (tableOf tree.size (some p) cs).toArray⟩

theorem eq_of_toList {t u : ParseTree} (h : t.nodes.toList = u.nodes.toList) : t = u := by
  cases t
  cases u
  simpa using h

theorem toList_graft (cs : List SyntaxTree) :
    (tree.graft p cs).nodes.toList =
      tree.nodes.toList.modify p (Node.adopt (ids tree.size cs)) ++
        tableOf tree.size (some p) cs := by
  simp [graft]

theorem toList_addChild (l : NodeLabel) :
    (tree.addChild p l).nodes.toList =
      tree.nodes.toList.modify p (Node.adopt [tree.size]) ++ [⟨l, some p, []⟩] := by
  simp [addChild, size]
  rfl

theorem size_graft (cs : List SyntaxTree) :
    (tree.graft p cs).size = tree.size + (cs.map SyntaxTree.size).sum := by
  simp [graft, size, length_tableOf]

theorem size_addChild (l : NodeLabel) : (tree.addChild p l).size = tree.size + 1 := by
  simp [addChild, size]

theorem graft_nil : tree.graft p [] = tree := by
  apply eq_of_toList
  rw [toList_graft, ids, Node.adopt_nil, List.modify_id, tableOf, List.append_nil]

theorem graft_append (hp : p < tree.size) (cs ds : List SyntaxTree) :
    tree.graft p (cs ++ ds) = (tree.graft p cs).graft p ds := by
  apply eq_of_toList
  have hlength : p < (tree.nodes.toList.modify p (Node.adopt (ids tree.size cs))).length := by
    simpa [size] using hp
  rw [toList_graft, toList_graft, toList_graft, size_graft, modify_append_of_lt hlength,
    List.modify_modify_eq, ← Node.adopt_append, ← ids_append, tableOf_append, List.append_assoc]

theorem addChild_terminal (token : Symbol) :
    tree.addChild p (.terminal token) = tree.graft p [leaf token] := by
  apply eq_of_toList
  rw [toList_graft, toList_addChild]
  rfl

theorem graft_addChild (nt : NonTerminal) (cs : List SyntaxTree) :
    (tree.addChild p (.nonTerminal nt)).graft tree.size cs = tree.graft p [node nt cs] := by
  apply eq_of_toList
  have hlength : (tree.nodes.toList.modify p (Node.adopt [tree.size])).length = tree.size := by
    simp [size]
  rw [toList_graft, toList_graft, toList_addChild, size_addChild,
    modify_append_of_length_eq hlength]
  simp [tableOf, table, ids, Node.adopt]

end ParseTree

/-- Whether moves, when a node is open, attach some trees to it and leave it open. -/
def Draws (moves : List Move) (cs : List SyntaxTree) : Prop :=
  ∀ (tree : ParseTree) (p : Nat) (opened : List Nat), p < tree.size →
    moves.foldl Sketch.draw ⟨tree, p :: opened⟩ = ⟨tree.graft p cs, p :: opened⟩

namespace Draws

variable {moves moves' : List Move} {cs ds : List SyntaxTree}

theorem nil : Draws [] [] := by
  intro tree p opened _
  rw [ParseTree.graft_nil]
  rfl

theorem append (h : Draws moves cs) (h' : Draws moves' ds) :
    Draws (moves ++ moves') (cs ++ ds) := by
  intro tree p opened hp
  rw [List.foldl_append, h tree p opened hp, h' _ p opened (by rw [ParseTree.size_graft]; omega),
    ParseTree.graft_append hp]

theorem select (h : Draws moves cs) (rule : Option FormulaRule) (position depth : Nat) :
    Draws (.select rule position depth :: moves) cs :=
  fun tree p opened hp => h tree p opened hp

theorem shift (token : Symbol) : Draws [.shift token] [leaf token] := by
  intro tree p opened _
  rw [← ParseTree.addChild_terminal]
  rfl

theorem within (h : Draws moves cs) (nt : NonTerminal) :
    Draws (.enter nt :: (moves ++ [.leave])) [node nt cs] := by
  intro tree p opened _
  have hp : tree.size < (tree.addChild p (.nonTerminal nt)).size := by
    rw [ParseTree.size_addChild]
    omega
  have hbelow := h (tree.addChild p (.nonTerminal nt)) tree.size (p :: opened) hp
  rw [List.foldl_cons, List.foldl_append]
  simp only [Sketch.draw, List.headD_cons]
  rw [hbelow, ParseTree.graft_addChild]
  rfl

end Draws

mutual

/-- The moves that read a tree attach it. -/
theorem SyntaxTree.draws_moves : (t : SyntaxTree) → Draws t.moves [t]
  | leaf token => by simpa using Draws.shift token
  | node nt cs => by simpa using (SyntaxTree.draws_flatMap_moves cs).within nt

theorem SyntaxTree.draws_flatMap_moves : (cs : List SyntaxTree) → Draws (cs.flatMap moves) cs
  | [] => Draws.nil
  | c :: cs => by
    simpa using (SyntaxTree.draws_moves c).append (SyntaxTree.draws_flatMap_moves cs)

end

variable {s : Signature}

theorem Formula.draws_within (φ : Formula s) {moves : List Move}
    (h : Draws moves φ.tree.children) :
    Draws (.enter .formula :: (moves ++ [.leave])) [φ.tree] := by
  rw [SyntaxTree.eq_node φ.label_tree]
  exact h.within .formula

/-- The moves that read a formula attach what its tree has below the root. -/
theorem Formula.draws_moves (φ : Formula s) (depth position : Nat) :
    Draws (φ.moves depth position) φ.tree.children := by
  induction φ generalizing depth position with
  | binary left c right ihl ihr =>
    have hleft := left.draws_within (ihl (depth + 1) (position + 1))
    have hright :=
      right.draws_within (ihr (depth + 1) (position + 1 + left.yield.length + 1))
    have hc := (NonTerminal.connective.over c).draws_moves
    have hafter := hc.append (hright.append (Draws.shift .closeParen))
    have hdraws := (Draws.shift .openParen).append (hleft.append hafter)
    simpa [moves, tree, SyntaxTree.children] using
      hdraws.select (some .binary) position (depth + 1)
  | equation left right =>
    have hright := right.tree.draws_moves.append (Draws.shift .closeParen)
    have hafter := left.tree.draws_moves.append ((Draws.shift s.equality).append hright)
    have hdraws := (Draws.shift .openParen).append hafter
    simpa [moves, tree, SyntaxTree.children] using
      hdraws.select (some .equation) position (depth + 1)
  | quantified q v body ih =>
    have hbody := body.draws_within (ih (depth + 1) (position + 2))
    have hq := (NonTerminal.quantifier.over q).draws_moves
    have hdraws := hq.append ((NonTerminal.var.over v).draws_moves.append hbody)
    simpa [moves, tree, SyntaxTree.children] using
      hdraws.select (some .quantified) position (depth + 1)
  | negation body ih =>
    have hbody := body.draws_within (ih (depth + 1) (position + 1))
    have hdraws := (Draws.shift s.connectives.neg).append hbody
    simpa [moves, tree, SyntaxTree.children] using
      hdraws.select (some .negation) position (depth + 1)
  | atom z args => exact (args.atomTree z).draws_moves.select (some .atom) position (depth + 1)

theorem ParseTree.graft_singleton (nt : NonTerminal) (cs : List SyntaxTree) :
    (ParseTree.singleton nt).graft 0 cs = (node nt cs).arena := by
  apply ParseTree.eq_of_toList
  simp [ParseTree.toList_graft, ParseTree.singleton, ParseTree.size, Node.adopt, arena, table]

/-- The moves that read a formula from the start draw the table of its tree. -/
theorem Formula.ofMoves_moves (φ : Formula s) :
    ParseTree.ofMoves (φ.moves 0 0) = φ.tree.arena := by
  have hroot : 0 < (ParseTree.singleton .start).size := by
    simp [ParseTree.singleton, ParseTree.size]
  have hdraws := φ.draws_moves 0 0 (.singleton .start) 0 [] hroot
  calc ParseTree.ofMoves (φ.moves 0 0)
      = (ParseTree.singleton .start).graft 0 φ.tree.children := congrArg Sketch.tree hdraws
    _ = φ.tree.arena := by
        rw [ParseTree.graft_singleton, NonTerminal.start, ← SyntaxTree.eq_node φ.label_tree]

end Formulary
