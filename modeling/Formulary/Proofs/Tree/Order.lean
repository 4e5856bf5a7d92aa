import Formulary.Proofs.Parser.Accepts

/-!
Reading order. A parse numbers the nodes of its tree from top to bottom and left to right, so that
a node comes after its parent and after all that is left of it.
-/

namespace Formulary

namespace SyntaxTree

theorem le_of_mem_ids {id i : Nat} {cs : List SyntaxTree} (h : i ∈ ids id cs) : id ≤ i := by
  induction cs generalizing id with
  | nil => simp [ids] at h
  | cons c cs ih =>
    rcases List.mem_cons.1 h with rfl | h
    · exact Nat.le_refl _
    · exact Nat.le_trans (Nat.le_add_right id c.size) (ih h)

/-- Siblings are numbered from left to right. -/
theorem pairwise_ids (id : Nat) (cs : List SyntaxTree) : (ids id cs).Pairwise (· < ·) := by
  induction cs generalizing id with
  | nil => exact .nil
  | cons c cs ih =>
    refine List.pairwise_cons.2 ⟨?_, ih (id + c.size)⟩
    intro i hi
    have hle := le_of_mem_ids hi
    have hpos := Nat.pos_of_ne_zero c.size_ne_zero
    omega

end SyntaxTree

namespace ParseTree

open SyntaxTree

variable {tree : ParseTree} {id i : Nat} {parent : Option Nat}

/-- Trees that are numbered in reading order and whose links up and down agree. A walk ends by
itself there, whatever its fuel. -/
structure InOrder (tree : ParseTree) : Prop where
  preorder : tree.preorder = List.range tree.size
  finished : ∀ more, tree.walkFrom (tree.size + more) [(0, 0)] = tree.walk
  root : tree.parent? 0 = none
  below : ∀ id, id ≠ 0 → id < tree.size → ∃ p, tree.parent? id = some p ∧ p < id
  ascending : ∀ p, (tree.children p).Pairwise (· < ·)
  linked : ∀ p id, id ∈ tree.children p ↔ tree.parent? id = some p

theorem Has.parent?_eq {t : SyntaxTree} (h : tree.Has id (t.table id parent)) :
    tree.parent? id = parent := by
  rw [parent?, h.root]
  rfl

theorem Has.parent?_of_mem_ids {cs : List SyntaxTree} (h : tree.Has id (tableOf id parent cs))
    (hi : i ∈ ids id cs) : tree.parent? i = parent := by
  induction cs generalizing id with
  | nil => simp [ids] at hi
  | cons c cs ih =>
    obtain ⟨hc, hcs⟩ := h.cons
    rcases List.mem_cons.1 hi with rfl | hi
    · exact hc.parent?_eq
    · exact ih hcs hi

mutual

/-- Every node of a tree but its root is a child of an earlier node. -/
theorem Has.exists_above {id i : Nat} {parent : Option Nat} : {t : SyntaxTree} →
    tree.Has id (t.table id parent) → i ≠ 0 → i < t.size →
      ∃ p, p < id + i ∧ id + i ∈ tree.children p
  | .leaf token, _, hne, hlt => by
    rw [size_leaf] at hlt
    exact absurd (Nat.lt_one_iff.1 hlt) hne
  | .node nt cs, h, hne, hlt => by
    obtain ⟨k, rfl⟩ := Nat.exists_eq_succ_of_ne_zero hne
    rw [size_node] at hlt
    have hsum : id + (k + 1) = id + 1 + k := by omega
    rw [hsum]
    rcases Has.exists_above_of h.below (Nat.lt_of_succ_lt_succ hlt) with hk | habove
    · exact ⟨id, by omega, h.children_eq ▸ hk⟩
    · exact habove

theorem Has.exists_above_of {id i : Nat} {parent : Option Nat} : {cs : List SyntaxTree} →
    tree.Has id (tableOf id parent cs) → i < (cs.map SyntaxTree.size).sum →
      id + i ∈ ids id cs ∨ ∃ p, p < id + i ∧ id + i ∈ tree.children p
  | [], _, hlt => by simp at hlt
  | c :: cs, h, hlt => by
    obtain ⟨hc, hcs⟩ := h.cons
    rw [List.map_cons, List.sum_cons] at hlt
    by_cases hi : i < c.size
    · by_cases hne : i = 0
      · subst hne
        exact .inl List.mem_cons_self
      · exact .inr (Has.exists_above hc hne hi)
    · have hsum : id + i = id + c.size + (i - c.size) := by omega
      rw [hsum]
      rcases Has.exists_above_of hcs (i := i - c.size) (by omega) with hi | habove
      · exact .inl (List.mem_cons_of_mem _ hi)
      · exact .inr habove

end

end ParseTree

namespace SyntaxTree

open ParseTree

variable (t : SyntaxTree)

theorem parent?_arena_of_le {id : Nat} (h : t.size ≤ id) : t.arena.parent? id = none := by
  have hsize : t.arena.nodes.size ≤ id := by
    change t.arena.size ≤ id
    rwa [size_arena]
  rw [parent?, Array.getElem?_eq_none hsize]
  rfl

/-- A node of the table of a tree has the subtree with its number below it. -/
theorem children_arena (p : Nat) :
    t.arena.children p = [] ∨ ∃ (cs : List SyntaxTree), t.arena.children p = ids (p + 1) cs ∧
      t.arena.Has (p + 1) (tableOf (p + 1) (some p) cs) := by
  cases hu : t.subtrees[p]? with
  | none =>
    have hlabel : t.arena.label? p = none := by rw [t.label?_arena, List.getElem?_map, hu]; rfl
    rw [label?, Option.map_eq_none_iff] at hlabel
    rw [ParseTree.children, hlabel]
    exact .inl rfl
  | some u =>
    obtain ⟨above, h⟩ := t.has_arena.subtree hu
    rw [Nat.zero_add] at h
    exact .inr ⟨u.children, h.children_eq, h.below⟩

theorem parent?_of_mem_children {p id : Nat} (h : id ∈ t.arena.children p) :
    t.arena.parent? id = some p := by
  rcases t.children_arena p with hnil | ⟨cs, hcs, hbelow⟩
  · simp [hnil] at h
  · rw [hcs] at h
    exact hbelow.parent?_of_mem_ids h

/-- The table of a tree is numbered in reading order. -/
theorem inOrder_arena : t.arena.InOrder := by
  have hroot : t.arena.parent? 0 = none := t.has_arena.parent?_eq
  have habove : ∀ id, id ≠ 0 → id < t.size → ∃ p, p < id ∧ id ∈ t.arena.children p := by
    intro id hne hlt
    simpa using t.has_arena.exists_above hne hlt
  refine ⟨?_, ?_, hroot, ?_, ?_, ?_⟩
  · rw [preorder_arena, size_arena]
  · intro more
    rw [size_arena, t.has_arena.walkFrom more 0 [], walk_arena]
    cases more <;> simp [ParseTree.walkFrom]
  · intro id hne hlt
    rw [size_arena] at hlt
    obtain ⟨p, hp, hmem⟩ := habove id hne hlt
    exact ⟨p, t.parent?_of_mem_children hmem, hp⟩
  · intro p
    rcases t.children_arena p with hnil | ⟨cs, hcs, -⟩
    · rw [hnil]
      exact .nil
    · rw [hcs]
      exact pairwise_ids (p + 1) cs
  · intro p id
    refine ⟨t.parent?_of_mem_children, fun hp => ?_⟩
    have hne : id ≠ 0 := by
      rintro rfl
      rw [hroot] at hp
      cases hp
    have hlt : id < t.size := by
      by_contra hge
      rw [t.parent?_arena_of_le (Nat.le_of_not_lt hge)] at hp
      cases hp
    obtain ⟨q, -, hmem⟩ := habove id hne hlt
    have hq := t.parent?_of_mem_children hmem
    rw [hp] at hq
    exact Option.some.inj hq ▸ hmem

end SyntaxTree

variable {a : Alphabet} {limit : Nat} {tokens : List Symbol} {tree : ParseTree}

/-- Parsing numbers nodes in the order in which they are read. -/
theorem parse_inOrder (h : parse a limit tokens = .ok tree) : tree.InOrder := by
  obtain ⟨φ, -, -, rfl⟩ := parse_eq_ok_iff.1 h
  exact φ.tree.inOrder_arena

theorem parse_inOrder_sample :
    parse .sample 4 Formula.sample.yield = .ok Formula.sample.tree.arena ∧
      Formula.sample.tree.arena.InOrder := by
  have h : parse .sample 4 Formula.sample.yield = .ok Formula.sample.tree.arena := rfl
  exact ⟨h, parse_inOrder h⟩

end Formulary
