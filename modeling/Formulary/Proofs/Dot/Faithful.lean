import Formulary.Proofs.Definition.Spelling
import Formulary.Proofs.Dot.Quoted
import Formulary.Proofs.Text.Code
import Formulary.Proofs.Text.Words
import Formulary.Proofs.Tree.Edges

/-!
Digraphs of parse trees. The digraph of a tree has a line for each node and for each edge of the
tree and no others, and the tree can be told from it.
-/

namespace Formulary

/-! Lines. -/

namespace Dot

open Text

def opening : List String :=
  ["digraph ParseTree \x7b", "  node [shape=plaintext];", "  edge [arrowhead=none];", ""]

/-- What stands in the line of a node in front of its label's opening quote. -/
def nodeFront (id : Nat) : String := "  " ++ nodeName id ++ " [label="

/-- What stands in the line of a node behind its label's closing quote. -/
def nodeBack (terminal : Bool) : String :=
  (if terminal then ", fontcolor=blue" else "") ++ "];"

def nodeText (id : Nat) (label : NodeLabel) : String :=
  nodeFront id ++ "\"" ++ escape label.shown ++ "\"" ++ nodeBack label.isTerminal

def edgeText (e : Nat × Nat) : String := "  " ++ nodeName e.1 ++ " -> " ++ nodeName e.2 ++ ";"

theorem nodeLine_eq (id : Nat) (label : NodeLabel) :
    nodeLine id label = nodeText id label ++ "\n" := by
  have hquote : " [label=\"" = " [label=" ++ "\"" := rfl
  have hend : "];\n" = "];" ++ "\n" := rfl
  rw [nodeLine, nodeText, nodeFront, nodeBack, hquote, hend]
  simp only [String.append_assoc]

theorem edgeLine_eq (e : Nat × Nat) : edgeLine e.1 e.2 = edgeText e ++ "\n" := by
  have hend : ";\n" = ";" ++ "\n" := rfl
  rw [edgeLine, edgeText, hend]
  simp only [String.append_assoc]

theorem toList_nodeText (id : Nat) (label : NodeLabel) :
    (nodeText id label).toList = (nodeFront id).toList ++
      '"' :: ((escape label.shown).toList ++ '"' :: (nodeBack label.isTerminal).toList) := by
  have hquote : "\"".toList = ['"'] := rfl
  simp [nodeText, hquote]

theorem lineFeed_not_mem_escapeChar (c : Char) : '\n' ∉ escapeChar c := by
  unfold escapeChar
  split_ifs with hslash hquote hfeed
  · decide
  · decide
  · decide
  · simpa using Ne.symm hfeed

theorem lineFeed_not_mem_nodeName (id : Nat) : '\n' ∉ (nodeName id).toList := by
  rw [nodeName, String.toList_append, List.mem_append]
  rintro (h | h)
  · exact absurd h (by decide)
  · exact absurd (isDigit_of_mem_decimal h) (by decide)

theorem oneLine_append {s t : String} (hs : '\n' ∉ s.toList) (ht : OneLine t) (hne : t ≠ "") :
    OneLine (s ++ t) where
  unbroken := by
    rw [String.toList_append, List.mem_append]
    exact not_or.2 ⟨hs, ht.unbroken⟩
  unreturned := by
    rw [String.toList_append, List.getLast?_append_of_ne_nil _ (by simpa using hne)]
    exact ht.unreturned

theorem oneLine_nodeBack : ∀ terminal, OneLine (nodeBack terminal)
  | true => ⟨by decide, by decide⟩
  | false => ⟨by decide, by decide⟩

theorem nodeBack_ne_empty : ∀ terminal, nodeBack terminal ≠ "" := by decide

theorem nodeBack_cancel : ∀ b b', nodeBack b = nodeBack b' → b = b' := by decide

theorem oneLine_nodeText (id : Nat) (label : NodeLabel) : OneLine (nodeText id label) := by
  refine oneLine_append ?_ (oneLine_nodeBack _) (nodeBack_ne_empty _)
  have hescape : '\n' ∉ (escape label.shown).toList := by
    rw [toList_escape, List.mem_flatMap]
    rintro ⟨c, -, hc⟩
    exact lineFeed_not_mem_escapeChar c hc
  simp [nodeFront, lineFeed_not_mem_nodeName, hescape]

theorem oneLine_edgeText (e : Nat × Nat) : OneLine (edgeText e) := by
  refine oneLine_append ?_ ⟨by decide, by decide⟩ (by decide)
  simp [lineFeed_not_mem_nodeName]

/-- Whether a line has a text as its label: behind the first quote of the line, up to the quote that
closes it, stands the text with its backslashes to be undone. -/
def Labelled (line text : String) : Prop :=
  ∃ before body after, line.toList = before ++ '"' :: (body ++ '"' :: after) ∧ '"' ∉ before ∧
    Closes (body ++ '"' :: after) body after ∧ unescape body = text.toList

theorem quote_not_mem_nodeFront (id : Nat) : '"' ∉ (nodeFront id).toList := by
  have hdecimal : '"' ∉ (decimal id).toList :=
    fun h => absurd (isDigit_of_mem_decimal h) (by decide)
  simp [nodeFront, nodeName, hdecimal]

/-- The line of a node has the text that the node's label is shown as. -/
theorem labelled_nodeText (id : Nat) (label : NodeLabel) :
    Labelled (nodeText id label) label.shown :=
  ⟨_, _, _, toList_nodeText id label, quote_not_mem_nodeFront id, closes_escape label.shown _,
    unescape_escape label.shown⟩

/-- The line of a node tells its label's text and whether it is a terminal. -/
theorem nodeText_cancel {id : Nat} {l l' : NodeLabel} (h : nodeText id l = nodeText id l') :
    l.shown = l'.shown ∧ l.isTerminal = l'.isTerminal := by
  have hchars := congrArg String.toList h
  rw [toList_nodeText, toList_nodeText] at hchars
  have hbehind := (List.cons.inj (List.append_cancel_left hchars)).2
  have hcloses := closes_escape l.shown (nodeBack l.isTerminal).toList
  rw [hbehind] at hcloses
  obtain ⟨hshown, hback⟩ := hcloses.unique (closes_escape l'.shown _)
  exact ⟨escape_injective (String.toList_inj.1 hshown),
    nodeBack_cancel _ _ (String.toList_inj.1 hback)⟩

theorem edgeText_injective {e e' : Nat × Nat} (h : edgeText e = edgeText e') : e = e' := by
  obtain ⟨p, c⟩ := e
  obtain ⟨q, d⟩ := e'
  have hchars := congrArg String.toList h
  simp only [edgeText, nodeName, String.toList_append, List.append_assoc] at hchars
  have hfront := List.append_cancel_left (List.append_cancel_left hchars)
  have harrow (more : List Char) : NoDigit (" -> ".toList ++ more) := NoDigit.cons (by decide) _
  have hend : NoDigit ";".toList := NoDigit.cons (by decide) _
  obtain ⟨rfl, hmore⟩ := told_decimal p q _ _ (harrow _) (harrow _) hfront
  have hback := List.append_cancel_left (List.append_cancel_left hmore)
  obtain ⟨rfl, -⟩ := told_decimal c d _ _ hend hend hback
  rfl

end Dot

namespace ParseTree

open Text

variable {t u : ParseTree}

/-- The lines of the digraph of a tree: first one for each node, then one for each edge. -/
def dotLines (t : ParseTree) : List String :=
  Dot.opening ++ t.nodes.toList.mapIdx (fun id n => Dot.nodeText id n.label) ++
    [""] ++ t.edges.map Dot.edgeText ++ ["\x7d"]

/-- Visiting indices from the first to the last visits all there is in a list. -/
theorem filterMap_range_length {α β : Type} (xs : List α) (f : Nat → α → β) :
    (List.range xs.length).filterMap (fun i => xs[i]?.map (f i)) = xs.mapIdx f := by
  have hmap : (List.range xs.length).map (fun i => xs[i]?.map (f i)) = (xs.mapIdx f).map some :=
    List.ext_getElem (by simp) fun i _ hi => by
      have hi : i < xs.length := by simpa using hi
      simp [hi]
  have hsome := congrArg (List.filterMap id) hmap
  rw [List.filterMap_map, List.filterMap_map] at hsome
  exact hsome.trans List.filterMap_some

theorem InOrder.nodeLines_eq (h : t.InOrder) :
    (t.preorder.filterMap fun id => (t.label? id).map (Dot.nodeLine id)) =
      (t.nodes.toList.mapIdx fun id n => Dot.nodeText id n.label).map (· ++ "\n") := by
  have hmap : (t.nodes.toList.mapIdx fun id n => Dot.nodeText id n.label).map (· ++ "\n") =
      t.nodes.toList.mapIdx fun id n => Dot.nodeLine id n.label :=
    List.ext_getElem (by simp) fun id _ _ => by simp [Dot.nodeLine_eq]
  rw [hmap, ← filterMap_range_length, h.preorder, size, ← Array.length_toList]
  refine List.filterMap_congr fun id _ => ?_
  rw [label?, Option.map_map, Array.getElem?_toList]
  rfl

theorem edgeLines_eq (t : ParseTree) :
    (t.preorder.flatMap fun id => (t.children id).map (Dot.edgeLine id)) =
      (t.edges.map Dot.edgeText).map (· ++ "\n") := by
  rw [edges, List.map_flatMap, List.map_flatMap]
  refine List.flatMap_congr fun id _ => ?_
  rw [List.map_map, List.map_map]
  exact List.map_congr_left fun c _ => Dot.edgeLine_eq (id, c)

theorem InOrder.toDot_eq (h : t.InOrder) :
    t.toDot = String.join (t.dotLines.map (· ++ "\n")) := by
  have hopening : String.join (Dot.opening.map (· ++ "\n")) =
      "digraph ParseTree \x7b\n  node [shape=plaintext];\n  edge [arrowhead=none];\n\n" := by
    decide
  have hblank : String.join ([""].map (· ++ "\n")) = "\n" := by decide
  have hclosing : String.join (["\x7d"].map (· ++ "\n")) = "\x7d\n" := by decide
  unfold toDot dotLines
  simp only [h.nodeLines_eq, edgeLines_eq, List.map_append, String.join_append, hopening, hblank,
    hclosing]

theorem oneLine_of_mem_dotLines {l : String} (h : l ∈ t.dotLines) : OneLine l := by
  have hempty : OneLine "" := ⟨by decide, by decide⟩
  have hbrace : OneLine "\x7d" := ⟨by decide, by decide⟩
  simp only [dotLines, List.mem_append, List.mem_singleton] at h
  obtain (((hl | hl) | rfl) | hl) | rfl := h
  · simp only [Dot.opening, List.mem_cons, List.not_mem_nil, or_false] at hl
    rcases hl with rfl | rfl | rfl | rfl <;> exact ⟨by decide, by decide⟩
  · obtain ⟨id, hid, rfl⟩ := List.mem_mapIdx.1 hl
    exact Dot.oneLine_nodeText id _
  · exact hempty
  · obtain ⟨e, -, rfl⟩ := List.mem_map.1 hl
    exact Dot.oneLine_edgeText e
  · exact hbrace

/-- Whatever the labels are, each node and each edge has one line. -/
theorem InOrder.linesOf_toDot (h : t.InOrder) : linesOf t.toDot = t.dotLines := by
  rw [h.toDot_eq, linesOf_join fun _ => oneLine_of_mem_dotLines]

/-- Whether no two terminals of a tree are shown alike. -/
def Canonical (t : ParseTree) : Prop :=
  ∀ id z, t.label? id = some (.terminal z) → z.Canonical

theorem label_eq_of_shown {l l' : NodeLabel} (hl : ∀ z, l = .terminal z → z.Canonical)
    (hl' : ∀ z, l' = .terminal z → z.Canonical) (hshown : l.shown = l'.shown)
    (hterminal : l.isTerminal = l'.isTerminal) : l = l' := by
  cases l with
  | nonTerminal nt =>
    cases l' with
    | nonTerminal nt' => rw [NonTerminal.letter_injective hshown]
    | terminal z => cases hterminal
  | terminal z =>
    cases l' with
    | nonTerminal nt => cases hterminal
    | terminal z' => rw [(hl z rfl).eq_of_shown (hl' z' rfl) hshown]

theorem getElem?_nodeTexts (t : ParseTree) (id : Nat) :
    (t.nodes.toList.mapIdx fun id n => Dot.nodeText id n.label)[id]? =
      (t.label? id).map (Dot.nodeText id) := by
  rw [List.getElem?_mapIdx, Array.getElem?_toList, label?, Option.map_map]
  rfl

/-- A tree in reading order can be told from its digraph. -/
theorem InOrder.eq_of_toDot_eq (ht : t.InOrder) (hu : u.InOrder) (htc : t.Canonical)
    (huc : u.Canonical) (h : t.toDot = u.toDot) : t = u := by
  have hlines : t.dotLines = u.dotLines := by rw [← ht.linesOf_toDot, h, hu.linesOf_toDot]
  have hsize : t.size = u.size := by
    have hlength := congrArg List.length hlines
    simp only [dotLines, List.length_append, List.length_mapIdx, List.length_map,
      Array.length_toList, List.length_singleton] at hlength
    have htedges := ht.length_edges
    have huedges := hu.length_edges
    unfold size at htedges huedges ⊢
    omega
  simp only [dotLines, List.append_assoc] at hlines
  have hbelow := List.append_cancel_left hlines
  obtain ⟨hnodes, hrest⟩ := List.append_inj hbelow (by simpa [size] using hsize)
  refine ht.eq_of_edges_eq hu ?_ ?_
  · funext id
    have hid := congrArg (·[id]?) hnodes
    simp only [getElem?_nodeTexts] at hid
    cases hl : t.label? id with
    | none =>
      rw [hl] at hid
      exact (Option.map_eq_none_iff.1 hid.symm).symm
    | some l =>
      cases hl' : u.label? id with
      | none => simp [hl, hl'] at hid
      | some l' =>
        rw [hl, hl'] at hid
        obtain ⟨hshown, hterminal⟩ := Dot.nodeText_cancel (Option.some.inj hid)
        rw [label_eq_of_shown (fun z hz => htc id z (hz ▸ hl)) (fun z hz => huc id z (hz ▸ hl'))
          hshown hterminal]
  · have hedges := List.append_cancel_right (List.append_cancel_left hrest)
    exact List.map_injective_iff.2 (fun _ _ => Dot.edgeText_injective) hedges

/-- What the digraph of a tree says: each node with its label, in the order of their indices, and
behind them each edge once. -/
structure Drawn (t : ParseTree) : Prop where
  lines : linesOf t.toDot = t.dotLines
  labels : ∀ id label, t.label? id = some label → Dot.Labelled (Dot.nodeText id label) label.shown
  edgeCount : t.edges.length + 1 = t.size
  once : t.edges.Nodup
  edges : ∀ p c, (p, c) ∈ t.edges ↔ c ∈ t.children p

theorem InOrder.drawn (h : t.InOrder) : t.Drawn where
  lines := h.linesOf_toDot
  labels id label _ := Dot.labelled_nodeText id label
  edgeCount := h.length_edges
  once := h.nodup_edges
  edges _ _ := h.mem_edges

end ParseTree

theorem SyntaxTree.mem_yield_of_label? {t : SyntaxTree} {id : Nat} {z : Symbol}
    (h : t.arena.label? id = some (.terminal z)) : z ∈ t.yield := by
  rw [t.label?_arena, List.getElem?_map, Option.map_eq_some_iff] at h
  obtain ⟨u, hu, hlabel⟩ := h
  refine List.mem_filterMap.2 ⟨u, List.mem_of_getElem? hu, ?_⟩
  rw [hlabel]
  rfl

theorem Formula.canonical_arena {s : Signature} (φ : Formula s)
    (h : ∀ z ∈ φ.yield, ∃ text, z = .ofText text) : φ.tree.arena.Canonical := by
  intro id z hz
  rw [← φ.yield_tree] at h
  obtain ⟨text, rfl⟩ := h z (SyntaxTree.mem_yield_of_label? hz)
  exact Symbol.canonical_ofText text

/-- The digraph of a parse tree shows all of it, whatever the labels are, so that no two parses of
tokens for texts have the same digraph but different trees. -/
theorem parse_toDot_faithful {a : Alphabet} {limit : Nat} {tokens : List Symbol}
    {tree : ParseTree} (h : parse a limit tokens = .ok tree) :
    tree.Drawn ∧
      ∀ (a' : Alphabet) (limit' : Nat) (tokens' : List Symbol) (tree' : ParseTree),
        parse a' limit' tokens' = .ok tree' →
        (∀ z ∈ tokens, ∃ text, z = .ofText text) → (∀ z ∈ tokens', ∃ text, z = .ofText text) →
        tree.toDot = tree'.toDot → tree = tree' := by
  obtain ⟨φ, rfl, -, rfl⟩ := parse_eq_ok_iff.1 h
  have hφ := φ.tree.inOrder_arena
  refine ⟨hφ.drawn, fun a' limit' tokens' tree' h' htokens htokens' hdot => ?_⟩
  obtain ⟨ψ, rfl, -, rfl⟩ := parse_eq_ok_iff.1 h'
  have hψ := ψ.tree.inOrder_arena
  exact hφ.eq_of_toDot_eq hψ (φ.canonical_arena htokens) (ψ.canonical_arena htokens') hdot

/-- The sample formula is drawn, and not as its negation is. -/
theorem parse_toDot_faithful_sample :
    parse .sample 4 Formula.sample.yield = .ok Formula.sample.tree.arena ∧
      Formula.sample.tree.arena.Drawn ∧
      (∀ z ∈ Formula.sample.yield, ∃ text, z = .ofText text) ∧
      parse .sample 5 (Formula.negation Formula.sample).yield =
        .ok (Formula.negation Formula.sample).tree.arena ∧
      Formula.sample.tree.arena.toDot ≠ (Formula.negation Formula.sample).tree.arena.toDot := by
  have h : parse .sample 4 Formula.sample.yield = .ok Formula.sample.tree.arena :=
    Formula.sample.parse_yield (by decide)
  have h' : parse .sample 5 (Formula.negation Formula.sample).yield =
      .ok (Formula.negation Formula.sample).tree.arena := Formula.parse_yield _ (by decide)
  have htexts : ∀ z ∈ (Formula.negation Formula.sample).yield, ∃ text, z = .ofText text := by
    have hstored : ∀ z ∈ (Formula.negation Formula.sample).yield, z = .ofText z.stored := by decide
    exact fun z hz => ⟨z.stored, hstored z hz⟩
  have htexts' : ∀ z ∈ Formula.sample.yield, ∃ text, z = .ofText text :=
    fun z hz => htexts z (List.mem_cons_of_mem _ hz)
  have hfaithful := parse_toDot_faithful h
  refine ⟨h, hfaithful.1, htexts', h', fun hdot => ?_⟩
  have heq := hfaithful.2 .sample 5 _ _ h' htexts' htexts hdot
  have hsize := congrArg ParseTree.size heq
  rw [SyntaxTree.size_arena, SyntaxTree.size_arena] at hsize
  exact absurd hsize (by decide)

end Formulary
