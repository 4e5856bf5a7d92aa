import Formulary.Proofs.Tree.Edges

/-!
Trees that are built by attaching children, in whatever order the parents come. Links up and down
agree there: the children of a node are the nodes that have it as their parent, in the order in
which they were attached.
-/

namespace Formulary.ParseTree

inductive Built : ParseTree → Prop
  | root (nt : NonTerminal) : Built (singleton nt)
  | attach {t : ParseTree} {p : Nat} (l : NodeLabel) :
      Built t → p < t.size → Built (t.addChild p l)

variable {t : ParseTree} {p : Nat}

theorem getElem?_addChild (hp : p < t.size) (l : NodeLabel) (id : Nat) :
    (t.addChild p l).nodes[id]? =
      if id = t.size then some ⟨l, some p, []⟩
      else if id = p then (t.nodes[id]?).map (Node.adopt [t.size])
      else t.nodes[id]? := by
  have hlength : (t.nodes.toList.modify p (Node.adopt [t.size])).length = t.size := by simp [size]
  rw [← Array.getElem?_toList, toList_addChild, ← Array.getElem?_toList]
  rcases Nat.lt_trichotomy id t.size with hlt | rfl | hgt
  · rw [List.getElem?_append_left (by omega), List.getElem?_modify, if_neg hlt.ne]
    by_cases hid : p = id
    · simp [hid]
    · simp [hid, Ne.symm hid]
  · rw [List.getElem?_append_right (by omega), hlength, Nat.sub_self, if_pos rfl]
    rfl
  · have hnone : t.nodes.toList[id]? = none := by
      rw [Array.getElem?_toList, Array.getElem?_eq_none (Nat.le_of_lt hgt)]
    rw [List.getElem?_eq_none (by rw [List.length_append, hlength, List.length_singleton]; omega),
      if_neg hgt.ne', if_neg (by omega), hnone]

theorem children_addChild (hp : p < t.size) (l : NodeLabel) (id : Nat) :
    (t.addChild p l).children id =
      t.children id ++ if id = p then [t.size] else [] := by
  rw [children, getElem?_addChild hp]
  by_cases hnew : id = t.size
  · rw [if_pos hnew, children_of_size_le (Nat.le_of_eq hnew.symm), if_neg (by omega)]
    rfl
  · rw [if_neg hnew]
    by_cases hid : id = p
    · obtain ⟨n, hn⟩ : ∃ n, t.nodes[id]? = some n := ⟨_, Array.getElem?_eq_getElem (hid ▸ hp)⟩
      rw [if_pos hid, if_pos hid, children, hn]
      rfl
    · rw [if_neg hid, if_neg hid, List.append_nil, children]

/-- What a node has besides its children stays as it is when a child is attached. -/
theorem bind_addChild {β : Type} {f : Node → Option β}
    (hf : ∀ ids n, f (Node.adopt ids n) = f n) (hp : p < t.size) (l : NodeLabel) (id : Nat) :
    ((t.addChild p l).nodes[id]?).bind f =
      if id = t.size then f ⟨l, some p, []⟩ else (t.nodes[id]?).bind f := by
  rw [getElem?_addChild hp]
  by_cases hnew : id = t.size
  · rw [if_pos hnew, if_pos hnew, Option.bind_some]
  · rw [if_neg hnew, if_neg hnew]
    split
    · cases t.nodes[id]? with
      | none => rfl
      | some n => exact hf [t.size] n
    · rfl

theorem parent?_addChild (hp : p < t.size) (l : NodeLabel) (id : Nat) :
    (t.addChild p l).parent? id = if id = t.size then some p else t.parent? id :=
  bind_addChild (fun _ _ => rfl) hp l id

theorem label?_addChild (hp : p < t.size) (l : NodeLabel) (id : Nat) :
    (t.addChild p l).label? id = if id = t.size then some l else t.label? id := by
  rw [label?, label?, Option.map_eq_bind, Option.map_eq_bind]
  exact bind_addChild (fun _ _ => rfl) hp l id

namespace Built

theorem size_pos (h : t.Built) : 0 < t.size := by
  induction h with
  | root nt => exact Nat.one_pos
  | attach l _ _ _ =>
    rw [size_addChild]
    exact Nat.succ_pos _

theorem parent?_zero (h : t.Built) : t.parent? 0 = none := by
  induction h with
  | root nt => rfl
  | attach l ht hp ih => rw [parent?_addChild hp, if_neg ht.size_pos.ne, ih]

/-- The children of a node are in the order in which they were attached. -/
theorem children_eq (h : t.Built) (id : Nat) :
    t.children id = (List.range t.size).filter fun c => t.parent? c = some id := by
  induction h with
  | root nt =>
    cases id <;> rfl
  | @attach t p l ht hp ih =>
    have hold : (List.range t.size).filter (fun c => (t.addChild p l).parent? c = some id) =
        (List.range t.size).filter fun c => t.parent? c = some id := by
      refine List.filter_congr fun c hc => ?_
      rw [parent?_addChild hp, if_neg (List.mem_range.1 hc).ne]
    rw [children_addChild hp, size_addChild, List.range_succ, List.filter_append, hold, ← ih,
      List.filter_singleton, parent?_addChild hp, if_pos rfl]
    by_cases hid : id = p
    · simp [hid]
    · simp [hid, Ne.symm hid]

theorem mem_children (h : t.Built) {c : Nat} : c ∈ t.children p ↔ t.parent? c = some p := by
  rw [h.children_eq, List.mem_filter, List.mem_range, decide_eq_true_iff]
  exact ⟨And.right, fun hc => ⟨lt_size_of_parent? hc, hc⟩⟩

end Built

end Formulary.ParseTree
