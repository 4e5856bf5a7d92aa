import Formulary.Proofs.Tree.Built
import Mathlib.Data.List.Induction
import Mathlib.Logic.Relation
import Mathlib.Order.Bounds.Basic
import Mathlib.Tactic.Choose

/-!
Walks over trees that were built in any order. A walk visits a node, then all that is below its
first child, and so on, with the distances from the root; so it comes to an end, visits every node
once and every parent before its children, and the greatest distance is the height.
-/

namespace Formulary.ParseTree

variable {t : ParseTree} {p c id depth : Nat} {stack stack' vs vs' : List (Nat × Nat)}

theorem map_fst_map_pair (ids : List Nat) (depth : Nat) :
    (ids.map (·, depth)).map Prod.fst = ids := by
  rw [List.map_map]
  exact List.map_id _

/-- What is visited from a stack: a node, all below it, child by child, and then what is visited
from the rest of the stack. -/
inductive Visits (t : ParseTree) : List (Nat × Nat) → List (Nat × Nat) → Prop
  | done : Visits t [] []
  | visit {id depth : Nat} {stack below rest : List (Nat × Nat)} :
      Visits t ((t.children id).map (·, depth + 1)) below → Visits t stack rest →
      Visits t ((id, depth) :: stack) ((id, depth) :: (below ++ rest))

namespace Visits

theorem append (h : t.Visits stack vs) (h' : t.Visits stack' vs') :
    t.Visits (stack ++ stack') (vs ++ vs') := by
  induction h with
  | done => exact h'
  | visit hbelow _ _ ih =>
    rw [List.cons_append, List.cons_append, List.append_assoc]
    exact .visit hbelow ih

theorem one {below : List (Nat × Nat)} (h : t.Visits ((t.children id).map (·, depth + 1)) below) :
    t.Visits [(id, depth)] ((id, depth) :: below) := by
  simpa using h.visit .done

theorem walkFrom (h : t.Visits stack vs) (fuel : Nat) (more : List (Nat × Nat)) :
    t.walkFrom (vs.length + fuel) (stack ++ more) = vs ++ t.walkFrom fuel more := by
  induction h generalizing fuel more with
  | done => rw [List.length_nil, Nat.zero_add, List.nil_append, List.nil_append]
  | @visit id depth stack below rest _ _ ihbelow ih =>
    have hfuel : ((id, depth) :: (below ++ rest)).length + fuel =
        below.length + (rest.length + fuel) + 1 := by
      rw [List.length_cons, List.length_append]
      omega
    rw [hfuel, List.cons_append, ParseTree.walkFrom, ihbelow, ih, List.cons_append,
      List.append_assoc]

theorem mem_of_mem_stack (h : t.Visits stack vs) : ∀ x ∈ stack, x ∈ vs := by
  induction h with
  | done => exact fun x hx => hx
  | visit _ _ _ ih =>
    intro x hx
    rcases List.mem_cons.1 hx with rfl | hx
    · exact List.mem_cons_self
    · exact List.mem_cons_of_mem _ (List.mem_append_right _ (ih x hx))

theorem mem_of_mem_children (h : t.Visits stack vs) (hp : (p, depth) ∈ vs)
    (hc : c ∈ t.children p) : (c, depth + 1) ∈ vs := by
  induction h with
  | done => cases hp
  | visit hbelow _ ihbelow ih =>
    refine List.mem_cons_of_mem _ (List.mem_append.2 ?_)
    rcases List.mem_cons.1 hp with heq | hp
    · obtain ⟨rfl, rfl⟩ := Prod.mk.inj heq
      exact .inl (hbelow.mem_of_mem_stack _ (List.mem_map_of_mem hc))
    · exact (List.mem_append.1 hp).imp ihbelow ih

/-- What holds on a stack and is passed on to children holds of all that is visited. -/
theorem forall_mem {P : Nat × Nat → Prop} (h : t.Visits stack vs) (hstack : ∀ x ∈ stack, P x)
    (hchild : ∀ p depth, P (p, depth) → ∀ c ∈ t.children p, P (c, depth + 1)) :
    ∀ x ∈ vs, P x := by
  induction h with
  | done => exact hstack
  | @visit id depth stack below rest _ _ ihbelow ih =>
    obtain ⟨hid, hstack⟩ := List.forall_mem_cons.1 hstack
    have hchildren : ∀ x ∈ (t.children id).map (·, depth + 1), P x := by
      intro x hx
      obtain ⟨c, hc, rfl⟩ := List.mem_map.1 hx
      exact hchild id depth hid c hc
    exact List.forall_mem_cons.2
      ⟨hid, List.forall_mem_append.2 ⟨ihbelow hchildren, ih hstack⟩⟩

/-- What is visited was on the stack, or its parent was visited before. -/
theorem of_eq_append {x : Nat × Nat} {before after : List (Nat × Nat)} (h : t.Visits stack vs)
    (hvs : vs = before ++ x :: after) :
    x ∈ stack ∨ ∃ p depth, (p, depth) ∈ before ∧ x.1 ∈ t.children p ∧ x.2 = depth + 1 := by
  induction h generalizing before after with
  | done => simp at hvs
  | @visit id depth stack below rest _ _ ihbelow ih =>
    cases before with
    | nil => exact .inl ((List.cons.inj hvs).1 ▸ List.mem_cons_self)
    | cons y before =>
      obtain ⟨rfl, htail⟩ := List.cons.inj hvs
      have hinner (h : x ∈ (t.children id).map (·, depth + 1) ∨
          ∃ p e, (p, e) ∈ before ∧ x.1 ∈ t.children p ∧ x.2 = e + 1) :
          ∃ p e, (p, e) ∈ (id, depth) :: before ∧ x.1 ∈ t.children p ∧ x.2 = e + 1 := by
        rcases h with hx | ⟨p, e, hp, hx⟩
        · obtain ⟨c, hc, rfl⟩ := List.mem_map.1 hx
          exact ⟨id, depth, List.mem_cons_self, hc, rfl⟩
        · exact ⟨p, e, List.mem_cons_of_mem _ hp, hx⟩
      rcases List.append_eq_append_iff.1 htail with ⟨mid, rfl, hrest⟩ | ⟨mid, rfl, hafter⟩
      · rcases ih hrest with hx | ⟨p, e, hp, hx⟩
        · exact .inl (List.mem_cons_of_mem _ hx)
        · exact .inr ⟨p, e, List.mem_cons_of_mem _ (List.mem_append_right _ hp), hx⟩
      · cases mid with
        | nil =>
          have hfirst : rest = [] ++ x :: after := hafter.symm
          rcases ih hfirst with hx | ⟨p, e, hp, -⟩
          · exact .inl (List.mem_cons_of_mem _ hx)
          · cases hp
        | cons y mid =>
          obtain ⟨rfl, -⟩ := List.cons.inj hafter
          exact .inr (hinner (ihbelow rfl))

/-- What is visited from a node in the midst of a walk is a part of the walk. -/
theorem exists_block {x : Nat × Nat} (h : t.Visits stack vs) (hx : x ∈ vs) :
    ∃ block, t.Visits [x] block ∧ block <:+: vs := by
  induction h with
  | done => cases hx
  | @visit id depth stack below rest hbelow _ ihbelow ih =>
    rcases List.mem_cons.1 hx with rfl | hx
    · exact ⟨_, hbelow.one, (List.prefix_append ((id, depth) :: below) rest).isInfix⟩
    · rcases List.mem_append.1 hx with hx | hx
      · obtain ⟨block, hblock, hpart⟩ := ihbelow hx
        exact ⟨block, hblock, hpart.trans ((List.prefix_append _ _).isInfix.trans
          (List.suffix_cons _ _).isInfix)⟩
      · obtain ⟨block, hblock, hpart⟩ := ih hx
        exact ⟨block, hblock, hpart.trans ((List.suffix_append _ _).isInfix.trans
          (List.suffix_cons _ _).isInfix)⟩

/-- The distances have no bearing on which nodes are visited. -/
theorem exists_of_map_fst (h : t.Visits stack vs)
    (hsame : stack'.map Prod.fst = stack.map Prod.fst) :
    ∃ vs', t.Visits stack' vs' ∧ vs'.map Prod.fst = vs.map Prod.fst := by
  induction h generalizing stack' with
  | done => exact ⟨[], by rw [List.map_eq_nil_iff.1 hsame]; exact .done, rfl⟩
  | @visit id depth stack below rest _ _ ihbelow ih =>
    obtain ⟨x, stack', rfl, rfl, hstack⟩ := List.map_eq_cons_iff.1 hsame
    have hchildren : ((t.children x.1).map (·, x.2 + 1)).map Prod.fst =
        ((t.children x.1).map (·, depth + 1)).map Prod.fst := by
      rw [map_fst_map_pair, map_fst_map_pair]
    obtain ⟨below', hbelow', hbelow⟩ := ihbelow hchildren
    obtain ⟨rest', hrest', hrest⟩ := ih hstack
    exact ⟨_, .visit hbelow' hrest', by simp [hbelow, hrest]⟩

/-- A child that is attached is visited once for each visit of its parent. -/
theorem attach (hp : p < t.size) (l : NodeLabel) (h : t.Visits stack vs) :
    ∃ vs', (t.addChild p l).Visits stack vs' ∧ (vs'.map Prod.fst).Perm
      (List.replicate ((vs.map Prod.fst).count p) t.size ++ vs.map Prod.fst) := by
  induction h with
  | done => exact ⟨[], .done, .refl _⟩
  | @visit id depth stack below rest _ _ ihbelow ih =>
    obtain ⟨below', hbelow', hbelow⟩ := ihbelow
    obtain ⟨rest', hrest', hrest⟩ := ih
    have hbare : (t.addChild p l).children t.size = [] := by
      rw [children_addChild hp, children_of_size_le (Nat.le_refl _), if_neg hp.ne']
      rfl
    have hnew : (t.addChild p l).Visits ((if id = p then [t.size] else []).map (·, depth + 1))
        ((if id = p then [t.size] else []).map (·, depth + 1)) := by
      split
      · have hleaf : (t.addChild p l).Visits
            (((t.addChild p l).children t.size).map (·, depth + 1 + 1)) [] := by
          rw [hbare]
          exact .done
        exact hleaf.one
      · exact .done
    have hchildren := hbelow'.append hnew
    rw [← List.map_append, ← children_addChild hp l] at hchildren
    refine ⟨_, .visit hchildren hrest', List.perm_iff_count.2 fun a => ?_⟩
    have hcount := hbelow.count_eq a
    have hcount' := hrest.count_eq a
    simp only [List.count_append, List.count_replicate] at hcount hcount'
    simp only [List.map_cons, List.map_append, List.count_cons, List.count_append,
      List.count_replicate, hcount, hcount']
    by_cases hid : id = p <;> by_cases ha : t.size = a <;> simp [hid, ha] <;> omega

end Visits

theorem Built.exists_visits (h : t.Built) :
    ∃ vs, t.Visits [(0, 0)] vs ∧ (vs.map Prod.fst).Perm (List.range t.size) := by
  induction h with
  | root nt => exact ⟨(0, 0) :: ([] ++ []), .visit .done .done, .refl _⟩
  | @attach t p l _ hp ih =>
    obtain ⟨vs, hvs, hperm⟩ := ih
    obtain ⟨vs', hvs', hperm'⟩ := hvs.attach hp l
    refine ⟨vs', hvs', hperm'.trans ?_⟩
    have hcount : (vs.map Prod.fst).count p = 1 := by
      rw [hperm.count_eq, List.count_eq_one_of_mem List.nodup_range (List.mem_range.2 hp)]
    rw [hcount, size_addChild, List.range_succ]
    exact (hperm.append_left _).trans List.perm_append_comm

/-! Walks from the root. -/

theorem walkFrom_nil (t : ParseTree) (fuel : Nat) : t.walkFrom fuel [] = [] := by
  cases fuel <;> rfl

/-- What the iterator does, however long it takes: as long as there is a node on its stack, it gives
that node and puts the children there in its place. -/
inductive Emits (t : ParseTree) : List Nat → List Nat → Prop
  | done : Emits t [] []
  | next {id : Nat} {stack ids : List Nat} :
      Emits t (t.children id ++ stack) ids → Emits t (id :: stack) (id :: ids)

theorem Visits.emits {more ids : List Nat} (h : t.Visits stack vs) (hmore : t.Emits more ids) :
    t.Emits (stack.map Prod.fst ++ more) (vs.map Prod.fst ++ ids) := by
  induction h generalizing more ids with
  | done => exact hmore
  | visit _ _ ihbelow ih =>
    have hnext := ihbelow (ih hmore)
    rw [map_fst_map_pair, ← List.append_assoc, ← List.append_assoc] at hnext
    rw [List.map_cons, List.map_cons, List.map_append, List.cons_append, List.cons_append]
    exact .next (List.append_assoc _ _ _ ▸ hnext)

/-- What the iterator gives when it starts at a node. -/
def subtree (t : ParseTree) (id : Nat) : List Nat := (t.walkFrom t.size [(id, 0)]).map Prod.fst

theorem Visits.subtree_eq (h : t.Visits [(id, depth)] vs) (hlength : vs.length ≤ t.size) :
    t.subtree id = vs.map Prod.fst := by
  have hstart : [(id, 0)].map Prod.fst = [(id, depth)].map Prod.fst := rfl
  obtain ⟨vs', hvs', hsame⟩ := h.exists_of_map_fst hstart
  have hlength' : vs'.length = vs.length := by simpa using congrArg List.length hsame
  have hwalk := hvs'.walkFrom (t.size - vs'.length) []
  rw [Nat.add_sub_of_le (hlength' ▸ hlength), walkFrom_nil, List.append_nil, List.append_nil]
    at hwalk
  rw [subtree, hwalk, hsame]

/-- The subtrees of the nodes on a stack are visited one after another. -/
theorem Visits.map_fst_eq (h : t.Visits stack vs) (hlength : vs.length ≤ t.size) :
    vs.map Prod.fst = (stack.map Prod.fst).flatMap t.subtree := by
  induction h with
  | done => rfl
  | @visit id depth stack below rest hbelow _ _ ih =>
    rw [List.length_cons, List.length_append] at hlength
    have hsubtree := hbelow.one.subtree_eq (by rw [List.length_cons]; omega)
    rw [List.map_cons, List.map_cons, List.flatMap_cons, hsubtree, List.map_append,
      ih (by omega)]
    rfl

/-- How many steps lead from a node up to the root. -/
inductive Far (t : ParseTree) : Nat → Nat → Prop
  | root : Far t 0 0
  | child {p c d : Nat} : Far t p d → t.parent? c = some p → Far t c (d + 1)

/-- Whether the steps up from a node pass another node; a node is below itself. -/
def Below (t : ParseTree) : Nat → Nat → Prop :=
  Relation.ReflTransGen fun p c => t.parent? c = some p

namespace Built

theorem walk_of_visits (hvs : t.Visits [(0, 0)] vs)
    (hperm : (vs.map Prod.fst).Perm (List.range t.size)) :
    t.walk = vs := by
  have hlength : vs.length = t.size := by simpa using hperm.length_eq
  have hwalk := hvs.walkFrom 0 []
  rw [hlength, Nat.add_zero, List.append_nil] at hwalk
  rw [walk, hwalk]
  exact List.append_nil vs

theorem visits_walk (h : t.Built) : t.Visits [(0, 0)] t.walk := by
  obtain ⟨vs, hvs, hperm⟩ := h.exists_visits
  rwa [walk_of_visits hvs hperm]

theorem preorder_perm (h : t.Built) : t.preorder.Perm (List.range t.size) := by
  obtain ⟨vs, hvs, hperm⟩ := h.exists_visits
  rwa [preorder, walk_of_visits hvs hperm]

theorem nodup_preorder (h : t.Built) : t.preorder.Nodup :=
  h.preorder_perm.nodup_iff.2 List.nodup_range

theorem length_walk (h : t.Built) : t.walk.length = t.size := by
  simpa [preorder] using h.preorder_perm.length_eq

theorem walkFrom_of_le (h : t.Built) (more : Nat) :
    t.walkFrom (t.size + more) [(0, 0)] = t.walk := by
  have hwalk := h.visits_walk.walkFrom more []
  rwa [h.length_walk, walkFrom_nil, List.append_nil, List.append_nil] at hwalk

theorem emits_preorder (h : t.Built) : t.Emits [0] t.preorder := by
  simpa [preorder] using h.visits_walk.emits .done

theorem exists_mem_walk (h : t.Built) (hid : id < t.size) : ∃ depth, (id, depth) ∈ t.walk := by
  have hmem : id ∈ t.preorder := h.preorder_perm.mem_iff.2 (List.mem_range.2 hid)
  obtain ⟨x, hx, rfl⟩ := List.mem_map.1 hmem
  exact ⟨x.2, hx⟩

theorem mem_walk_iff (h : t.Built) : (id, depth) ∈ t.walk ↔ t.Far id depth := by
  constructor
  · intro hmem
    have hfar : ∀ x ∈ t.walk, t.Far x.1 x.2 := by
      refine h.visits_walk.forall_mem ?_ fun p depth hp c hc => ?_
      · intro x hx
        rw [List.mem_singleton.1 hx]
        exact .root
      · exact .child hp (h.mem_children.1 hc)
    exact hfar _ hmem
  · intro hfar
    induction hfar with
    | root => exact h.visits_walk.mem_of_mem_stack _ List.mem_cons_self
    | child _ hc ih => exact h.visits_walk.mem_of_mem_children ih (h.mem_children.2 hc)

theorem far_unique (h : t.Built) {d e : Nat} (hd : t.Far id d) (he : t.Far id e) : d = e := by
  have hsame := List.inj_on_of_nodup_map h.nodup_preorder (h.mem_walk_iff.2 hd)
    (h.mem_walk_iff.2 he) rfl
  exact congrArg Prod.snd hsame

/-- No node is visited again. -/
theorem fst_ne (h : t.Built) {x : Nat × Nat} {before after : List (Nat × Nat)}
    (hwalk : t.walk = before ++ x :: after) : ∀ y ∈ before, y.1 ≠ x.1 := by
  have hnodup : (before.map Prod.fst ++ x.1 :: after.map Prod.fst).Nodup := by
    rw [← List.map_cons, ← List.map_append, ← hwalk]
    exact h.nodup_preorder
  intro y hy heq
  refine List.disjoint_of_nodup_append hnodup (List.mem_map_of_mem hy) ?_
  rw [heq]
  exact List.mem_cons_self

/-- A node is visited after its parent. -/
theorem sublist_preorder (h : t.Built) (hc : t.parent? c = some p) : [p, c].Sublist t.preorder := by
  obtain ⟨depth, hmem⟩ := h.exists_mem_walk (lt_size_of_parent? hc)
  obtain ⟨before, after, hwalk⟩ := List.append_of_mem hmem
  rcases h.visits_walk.of_eq_append hwalk with hroot | ⟨q, e, hq, hchild, -⟩
  · obtain ⟨rfl, -⟩ := Prod.mk.inj (List.mem_singleton.1 hroot)
    rw [h.parent?_zero] at hc
    cases hc
  · obtain rfl : p = q := Option.some.inj (hc.symm.trans (h.mem_children.1 hchild))
    rw [preorder, hwalk, List.map_append, List.map_cons]
    have hp : [p].Sublist (before.map Prod.fst) :=
      List.singleton_sublist.2 (List.mem_map_of_mem hq)
    exact hp.append (List.singleton_sublist.2 List.mem_cons_self)

/-- A subtree is visited without a break: a node, and then the subtrees of its children. -/
theorem subtree_spec (h : t.Built) (hid : id < t.size) :
    t.subtree id <:+: t.preorder ∧
      t.subtree id = id :: (t.children id).flatMap t.subtree ∧
      ∀ d, d ∈ t.subtree id ↔ t.Below id d := by
  obtain ⟨depth, hmem⟩ := h.exists_mem_walk hid
  obtain ⟨block, hblock, hpart⟩ := h.visits_walk.exists_block hmem
  have hlength : block.length ≤ t.size := h.length_walk ▸ hpart.length_le
  rw [hblock.subtree_eq hlength]
  refine ⟨hpart.map Prod.fst, ?_, fun d => ⟨fun hd => ?_, fun hd => ?_⟩⟩
  · cases hblock with
    | @visit _ _ _ below rest hbelow hrest =>
      cases hrest
      rw [List.append_nil, List.length_cons] at hlength
      rw [List.append_nil, List.map_cons, hbelow.map_fst_eq (by omega), map_fst_map_pair]
  · have hbelow : ∀ x ∈ block, Below t id x.1 := by
      refine hblock.forall_mem ?_ fun p depth hp c hc => ?_
      · intro x hx
        rw [List.mem_singleton.1 hx]
        exact .refl
      · exact .tail hp (h.mem_children.1 hc)
    obtain ⟨x, hx, rfl⟩ := List.mem_map.1 hd
    exact hbelow x hx
  · have hdepth : ∃ e, (d, e) ∈ block := by
      induction hd with
      | refl => exact ⟨depth, hblock.mem_of_mem_stack _ List.mem_cons_self⟩
      | tail _ hc ih =>
        obtain ⟨e, he⟩ := ih
        exact ⟨e + 1, hblock.mem_of_mem_children he (h.mem_children.2 hc)⟩
    obtain ⟨e, he⟩ := hdepth
    exact List.mem_map_of_mem he

theorem exists_distance (h : t.Built) : ∃ distance : Nat → Nat,
    (∀ id < t.size, ∀ d, t.Far id d ↔ d = distance id) ∧
      t.walk = t.preorder.map fun id => (id, distance id) := by
  have hfar : ∀ id < t.size, ∃ d, t.Far id d := fun id hid => by
    obtain ⟨d, hd⟩ := h.exists_mem_walk hid
    exact ⟨d, h.mem_walk_iff.1 hd⟩
  choose! distance hdistance using hfar
  refine ⟨distance, fun id hid d => ⟨fun hd => h.far_unique hd (hdistance id hid), ?_⟩, ?_⟩
  · rintro rfl
    exact hdistance id hid
  · rw [preorder, List.map_map]
    have hself : ∀ x ∈ t.walk, ((fun id => (id, distance id)) ∘ Prod.fst) x = x := by
      intro x hx
      have hid : x.1 < t.size :=
        List.mem_range.1 (h.preorder_perm.mem_iff.1 (List.mem_map_of_mem hx))
      rw [Function.comp_apply, h.far_unique (hdistance x.1 hid) (h.mem_walk_iff.1 hx)]
    rw [List.map_congr_left hself, List.map_id']

end Built

/-! The table of distances. -/

/-- What the table tells after some visits: the distances of the nodes that were visited, and the
greatest one. -/
structure Measured (t : ParseTree) (visited : List (Nat × Nat)) (noted : Array Nat × Nat) :
    Prop where
  size : noted.1.size = t.size
  root : noted.1.getD 0 0 = 0
  table : ∀ x ∈ visited, noted.1.getD x.1 0 = x.2
  le : ∀ x ∈ visited, x.2 ≤ noted.2
  attained : noted.2 = 0 ∨ ∃ x ∈ visited, x.2 = noted.2

theorem Measured.step {x : Nat × Nat} {before after : List (Nat × Nat)} {noted : Array Nat × Nat}
    (h : t.Built) (hwalk : t.walk = before ++ x :: after) (hm : t.Measured before noted) :
    t.Measured (before ++ [x]) (t.measureAt noted x.1) := by
  rcases h.visits_walk.of_eq_append hwalk with hroot | ⟨p, d, hp, hchild, hd⟩
  · obtain rfl : x = (0, 0) := List.mem_singleton.1 hroot
    have hsame : t.measureAt noted 0 = noted := by simp [measureAt, h.parent?_zero]
    rw [hsame]
    refine ⟨hm.size, hm.root, ?_, ?_, ?_⟩
    · exact List.forall_mem_append.2 ⟨hm.table, by simpa using hm.root⟩
    · exact List.forall_mem_append.2 ⟨hm.le, by simp⟩
    · exact hm.attained.imp_right fun ⟨y, hy, heq⟩ => ⟨y, List.mem_append_left _ hy, heq⟩
  · have hparent := h.mem_children.1 hchild
    have hsize : x.1 < noted.1.size := hm.size ▸ lt_size_of_parent? hparent
    have hzero : x.1 ≠ 0 := by
      intro hx
      rw [hx, h.parent?_zero] at hparent
      cases hparent
    have hnoted : t.measureAt noted x.1 = (noted.1.setIfInBounds x.1 x.2, max noted.2 x.2) := by
      simp [measureAt, hparent, hm.table _ hp, hd]
    have hself : (noted.1.setIfInBounds x.1 x.2).getD x.1 0 = x.2 := by
      simp [hsize]
    have hother {id : Nat} (hid : id ≠ x.1) :
        (noted.1.setIfInBounds x.1 x.2).getD id 0 = noted.1.getD id 0 := by
      simp [Array.getD_eq_getD_getElem?, Ne.symm hid]
    rw [hnoted]
    refine ⟨?_, ?_, ?_, ?_, ?_⟩
    · rw [Array.size_setIfInBounds, hm.size]
    · rw [hother hzero.symm, hm.root]
    · refine List.forall_mem_append.2 ⟨fun y hy => ?_, by simpa using hself⟩
      rw [hother (h.fst_ne hwalk y hy), hm.table y hy]
    · refine List.forall_mem_append.2 ⟨fun y hy => ?_, by simp⟩
      exact (hm.le y hy).trans (Nat.le_max_left _ _)
    · rcases Nat.le_total noted.2 x.2 with hle | hle
      · exact .inr ⟨x, by simp, (Nat.max_eq_right hle).symm⟩
      · rw [Nat.max_eq_left hle]
        exact hm.attained.imp_right fun ⟨y, hy, heq⟩ => ⟨y, List.mem_append_left _ hy, heq⟩

theorem Built.measured (h : t.Built) {before after : List (Nat × Nat)}
    (hwalk : t.walk = before ++ after) :
    t.Measured before
      ((before.map Prod.fst).foldl t.measureAt (Array.replicate t.size 0, 0)) := by
  induction before using List.reverseRecOn generalizing after with
  | nil =>
    have hzero : (Array.replicate t.size 0).getD 0 0 = 0 := by
      rw [Array.getD_eq_getD_getElem?, Array.getElem?_replicate]
      split <;> rfl
    exact ⟨by simp, hzero, by simp, by simp, .inl rfl⟩
  | append_singleton before x ih =>
    rw [List.append_assoc] at hwalk
    rw [List.map_append, List.foldl_append]
    exact (ih hwalk).step h hwalk

theorem Built.isGreatest_height (h : t.Built) : IsGreatest {d | ∃ id, t.Far id d} t.height := by
  have hm := h.measured (List.append_nil t.walk).symm
  refine ⟨?_, fun d ⟨id, hd⟩ => hm.le (id, d) (h.mem_walk_iff.2 hd)⟩
  rcases hm.attained with hzero | ⟨x, hx, heq⟩
  · have hheight : t.height = 0 := hzero
    exact ⟨0, by rw [hheight]; exact .root⟩
  · have hheight : x.2 = t.height := heq
    exact ⟨x.1, by rw [← hheight]; exact h.mem_walk_iff.1 hx⟩

/-- What the traversals of a tree do: the iterator comes to an end by itself and gives every node
once, parents before children and subtrees of siblings one after another, in the order in which the
siblings were attached; the height is the greatest distance from the root; and the lines of the
rendering are in the order of the iterator, each indented by twice the distance of its node. -/
structure Traversed (t : ParseTree) (distance : Nat → Nat) : Prop where
  emits : t.Emits [0] t.preorder
  finished : ∀ more, t.walkFrom (t.size + more) [(0, 0)] = t.walk
  once : t.preorder.Perm (List.range t.size)
  parentFirst : ∀ p c, t.parent? c = some p → [p, c].Sublist t.preorder
  root : t.preorder = t.subtree 0
  unbroken : ∀ id < t.size, t.subtree id <:+: t.preorder
  subtree : ∀ id < t.size, t.subtree id = id :: (t.children id).flatMap t.subtree
  below : ∀ id < t.size, ∀ d, d ∈ t.subtree id ↔ t.Below id d
  attached : ∀ id, t.children id = (List.range t.size).filter fun c => t.parent? c = some id
  far : ∀ id < t.size, ∀ d, t.Far id d ↔ d = distance id
  height : IsGreatest {d | ∃ id, t.Far id d} t.height
  render : t.render = String.join (t.preorder.map fun id =>
    String.ofList (List.replicate (2 * distance id) ' ') ++ t.shownAt id ++ "\n")

theorem Built.traversed (h : t.Built) : ∃ distance, t.Traversed distance := by
  obtain ⟨distance, hdistance, hwalk⟩ := h.exists_distance
  exact ⟨distance, {
    emits := h.emits_preorder
    finished := h.walkFrom_of_le
    once := h.preorder_perm
    parentFirst := fun _ _ => h.sublist_preorder
    root := rfl
    unbroken := fun _ hid => (h.subtree_spec hid).1
    subtree := fun _ hid => (h.subtree_spec hid).2.1
    below := fun _ hid => (h.subtree_spec hid).2.2
    attached := h.children_eq
    far := hdistance
    height := h.isGreatest_height
    render := by
      rw [render, hwalk, List.map_map]
      rfl }⟩

/-- A tree whose last node is not the last one that is visited. -/
def grown : ParseTree :=
  (((singleton .formula).addChild 0 (.nonTerminal .formula)).addChild 0
    (.nonTerminal .connective)).addChild 1 (.nonTerminal .predicate)

theorem traversed_grown :
    grown.Built ∧ grown.preorder = [0, 1, 3, 2] ∧ grown.height = 2 ∧
      ∃ distance, grown.Traversed distance := by
  have hbuilt : grown.Built :=
    .attach _ (.attach _ (.attach _ (.root .formula) (by decide)) (by decide)) (by decide)
  exact ⟨hbuilt, by decide, by decide, hbuilt.traversed⟩

end Formulary.ParseTree
