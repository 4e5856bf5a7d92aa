import Formulary.Proofs.Tree.Order
import Mathlib.Data.List.Sort

/-!
Edges of trees in reading order. Every node but the root ends one edge, and with the labels of its
nodes the edges of a tree tell all of it.
-/

namespace Formulary

namespace ParseTree

/-- The edges of a tree from parents to children, in the order in which the parents are visited. -/
def edges (t : ParseTree) : List (Nat × Nat) :=
  t.preorder.flatMap fun id => (t.children id).map (id, ·)

variable {t u : ParseTree}

theorem children_of_size_le {id : Nat} (h : t.size ≤ id) : t.children id = [] := by
  rw [children, Array.getElem?_eq_none h]

theorem parent?_of_size_le {id : Nat} (h : t.size ≤ id) : t.parent? id = none := by
  rw [parent?, Array.getElem?_eq_none h]
  rfl

theorem lt_size_of_mem_children {p c : Nat} (h : c ∈ t.children p) : p < t.size := by
  by_contra hp
  rw [children_of_size_le (Nat.le_of_not_lt hp)] at h
  exact List.not_mem_nil h

theorem lt_size_of_parent? {p c : Nat} (h : t.parent? c = some p) : c < t.size := by
  by_contra hc
  rw [parent?_of_size_le (Nat.le_of_not_lt hc)] at h
  cases h

theorem map_snd_edges : t.edges.map Prod.snd = t.preorder.flatMap t.children := by
  rw [edges, List.map_flatMap]
  refine List.flatMap_congr fun id _ => ?_
  rw [List.map_map]
  exact List.map_id _

namespace InOrder

theorem size_ne_zero (h : t.InOrder) : t.size ≠ 0 := by
  intro hzero
  have hwalk := h.finished 1
  rw [walk, hzero] at hwalk
  simp [walkFrom] at hwalk

theorem mem_edges (h : t.InOrder) {p c : Nat} : (p, c) ∈ t.edges ↔ c ∈ t.children p := by
  constructor
  · intro he
    obtain ⟨id, -, hid⟩ := List.mem_flatMap.1 he
    obtain ⟨d, hd, heq⟩ := List.mem_map.1 hid
    obtain ⟨rfl, rfl⟩ := Prod.mk.inj heq
    exact hd
  · intro hc
    have hp : p ∈ t.preorder := by
      rw [h.preorder, List.mem_range]
      exact lt_size_of_mem_children hc
    exact List.mem_flatMap.2 ⟨p, hp, List.mem_map_of_mem hc⟩

/-- No node has two parents, or is twice among the children of one. -/
theorem nodup_map_snd_edges (h : t.InOrder) : (t.edges.map Prod.snd).Nodup := by
  rw [map_snd_edges, h.preorder, List.nodup_flatMap]
  refine ⟨fun p _ => (h.ascending p).imp Nat.ne_of_lt, List.nodup_range.imp ?_⟩
  intro p q hne c hp hq
  exact hne (Option.some.inj (((h.linked p c).1 hp).symm.trans ((h.linked q c).1 hq)))

theorem nodup_edges (h : t.InOrder) : t.edges.Nodup := h.nodup_map_snd_edges.of_map

/-- Every node but the root is the end of an edge. -/
theorem mem_map_snd_edges (h : t.InOrder) {c : Nat} :
    c ∈ t.edges.map Prod.snd ↔ 1 ≤ c ∧ c < t.size := by
  rw [map_snd_edges, List.mem_flatMap]
  constructor
  · rintro ⟨p, -, hc⟩
    have hparent := (h.linked p c).1 hc
    refine ⟨Nat.one_le_iff_ne_zero.2 ?_, lt_size_of_parent? hparent⟩
    rintro rfl
    rw [h.root] at hparent
    cases hparent
  · rintro ⟨hpos, hlt⟩
    obtain ⟨p, hparent, hp⟩ := h.below c (Nat.one_le_iff_ne_zero.1 hpos) hlt
    refine ⟨p, ?_, (h.linked p c).2 hparent⟩
    rw [h.preorder, List.mem_range]
    exact hp.trans hlt

theorem length_edges (h : t.InOrder) : t.edges.length + 1 = t.size := by
  have hperm : (t.edges.map Prod.snd).Perm (List.range' 1 (t.size - 1)) := by
    refine (List.perm_ext_iff_of_nodup h.nodup_map_snd_edges List.nodup_range').2 fun c => ?_
    rw [h.mem_map_snd_edges, List.mem_range'_1]
    omega
  have hlength := hperm.length_eq
  rw [List.length_map, List.length_range'] at hlength
  have hsize := h.size_ne_zero
  omega

/-- Trees with the same labels and the same edges are the same. -/
theorem eq_of_edges_eq (ht : t.InOrder) (hu : u.InOrder) (hlabels : t.label? = u.label?)
    (hedges : t.edges = u.edges) : t = u := by
  have hmem (p c : Nat) : c ∈ t.children p ↔ c ∈ u.children p := by
    rw [← ht.mem_edges, hedges, hu.mem_edges]
  have hchildren (p : Nat) : t.children p = u.children p :=
    (ht.ascending p).eq_of_mem_iff (hu.ascending p) (hmem p)
  have hparent (c : Nat) : t.parent? c = u.parent? c := by
    refine Option.ext fun p => ?_
    rw [← ht.linked, hmem, hu.linked]
  have hnodes : t.nodes = u.nodes := by
    refine Array.ext_getElem? fun id => ?_
    have hlabel := congrFun hlabels id
    have hchild := hchildren id
    have hpar := hparent id
    unfold label? at hlabel
    unfold children at hchild
    unfold parent? at hpar
    cases hn : t.nodes[id]? with
    | none =>
      rw [hn] at hlabel
      exact (Option.map_eq_none_iff.1 hlabel.symm).symm
    | some n =>
      obtain ⟨label, parent, children⟩ := n
      cases hm : u.nodes[id]? with
      | none => simp [hn, hm] at hlabel
      | some m =>
        obtain ⟨label', parent', children'⟩ := m
        simp_all
  cases t
  cases u
  exact congrArg ParseTree.mk hnodes

end InOrder

end ParseTree

end Formulary
