import Formulary.Proofs.Parser.Accepts
import Formulary.Proofs.Parser.Solvent
import Formulary.Proofs.Tree.Built
import Mathlib.Data.List.Induction

/-!
How many nodes a parse makes. At every point twice their number is at most five times the number of
tokens read, and eight; so where the tokens are not too many, an id of 32 bits is as good as one
without a bound, and stays that of the node it was made for.
-/

namespace Formulary

/-- The label of the node that a move makes. -/
def Move.label? : Move → Option NodeLabel
  | .enter nt => some (.nonTerminal nt)
  | .shift token => some (.terminal token)
  | _ => none

namespace Sketch

variable {s : Sketch} {m : Move} {l : NodeLabel} {id : Nat}

theorem tree_draw (s : Sketch) (m : Move) :
    (s.draw m).tree = (m.label?.map (s.tree.addChild (s.opened.headD 0))).getD s.tree := by
  cases s
  cases m <;> rfl

theorem size_draw (s : Sketch) (m : Move) :
    (s.draw m).tree.size = s.tree.size + m.label?.toList.length := by
  rw [tree_draw]
  cases m.label? with
  | none => rfl
  | some l => exact ParseTree.size_addChild l

/-- Whether a tree was built by attaching children and the open nodes are in it. -/
structure Sound (s : Sketch) : Prop where
  built : s.tree.Built
  opened : ∀ id ∈ s.opened, id < s.tree.size

namespace Sound

theorem start : Sound {} where
  built := .root .start
  opened := by decide

theorem head_lt (h : s.Sound) : s.opened.headD 0 < s.tree.size := by
  cases hopened : s.opened with
  | nil => exact h.built.size_pos
  | cons id opened => exact h.opened id (hopened ▸ List.mem_cons_self)

theorem draw (h : s.Sound) (m : Move) : (s.draw m).Sound where
  built := by
    rw [tree_draw]
    cases m.label? with
    | none => exact h.built
    | some l => exact .attach l h.built h.head_lt
  opened id hid := by
    have hsize := s.size_draw m
    obtain ⟨tree, opened⟩ := s
    cases m with
    | select rule position depth => exact h.opened id hid
    | enter nt =>
      rw [hsize]
      rcases List.mem_cons.1 hid with rfl | hid
      · exact Nat.lt_succ_self _
      · exact Nat.lt_succ_of_lt (h.opened id hid)
    | shift token =>
      rw [hsize]
      exact Nat.lt_succ_of_lt (h.opened id hid)
    | leave => exact h.opened id (List.mem_of_mem_tail hid)

theorem foldl_draw (h : s.Sound) (moves : List Move) : (moves.foldl Sketch.draw s).Sound := by
  induction moves generalizing s with
  | nil => exact h
  | cons m moves ih => exact ih (h.draw m)

theorem label?_draw_size (h : s.Sound) (hm : m.label? = some l) :
    (s.draw m).tree.label? s.tree.size = some l := by
  rw [tree_draw, hm]
  exact (ParseTree.label?_addChild h.head_lt l _).trans (if_pos rfl)

theorem label?_draw_of_lt (h : s.Sound) (hid : id < s.tree.size) (m : Move) :
    (s.draw m).tree.label? id = s.tree.label? id := by
  rw [tree_draw]
  cases m.label? with
  | none => rfl
  | some l => exact (ParseTree.label?_addChild h.head_lt l id).trans (if_neg hid.ne)

/-- A node keeps its label and its id, whatever else is drawn. -/
theorem label?_foldl_draw (h : s.Sound) (hid : id < s.tree.size) (moves : List Move) :
    (moves.foldl Sketch.draw s).tree.label? id = s.tree.label? id := by
  induction moves generalizing s with
  | nil => rfl
  | cons m moves ih =>
    have hlt : id < (s.draw m).tree.size := by
      rw [size_draw]
      omega
    exact (ih (h.draw m) hlt).trans (h.label?_draw_of_lt hid m)

end Sound

end Sketch

/-! The number of nodes. -/

variable {a : Alphabet} {limit : Nat} {tokens : List Symbol} {earlier before : List Move}

theorem size_ofMoves_concat (moves : List Move) (m : Move) :
    (ParseTree.ofMoves (moves ++ [m])).size =
      (ParseTree.ofMoves moves).size + m.label?.toList.length := by
  rw [ParseTree.ofMoves, List.foldl_append]
  exact Sketch.size_draw _ m

/-- What is to spare, by the tokens that were read and the nodes that were made. -/
theorem spare_eq (moves : List Move) :
    spare moves = 5 * (consumed moves).length + 8 - 2 * (ParseTree.ofMoves moves).size := by
  induction moves using List.reverseRecOn with
  | nil => rfl
  | append_singleton moves m ih =>
    rw [spare_append, ih, size_ofMoves_concat, consumed_concat, List.length_append]
    cases m <;> simp [spare, Move.gain, Move.label?, Move.token?] <;> omega

theorem label?_ofMoves {m : Move} {l : NodeLabel} (h : earlier ++ [m] <+: before)
    (hm : m.label? = some l) :
    (ParseTree.ofMoves before).label? (ParseTree.ofMoves earlier).size = some l := by
  obtain ⟨later, rfl⟩ := h
  have hsound := Sketch.Sound.start.foldl_draw earlier
  have hlt : (ParseTree.ofMoves earlier).size < (ParseTree.ofMoves (earlier ++ [m])).size := by
    rw [size_ofMoves_concat, hm]
    exact Nat.lt_succ_self _
  have hnew : (ParseTree.ofMoves (earlier ++ [m])).label? (ParseTree.ofMoves earlier).size =
      some l := by
    rw [ParseTree.ofMoves, List.foldl_append]
    exact hsound.label?_draw_size hm
  rw [← hnew, ParseTree.ofMoves, List.foldl_append]
  exact (Sketch.Sound.start.foldl_draw (earlier ++ [m])).label?_foldl_draw hlt later

/-- The scan with which an attempt ends never ran short, and has eight to spare after a success. -/
theorem exists_solvent (a : Alphabet) (limit : Nat) (tokens : List Symbol) :
    ∃ s : Scan, (attempt a limit tokens).moves = s.moves.reverse ∧ s.Solvent tokens ∧
      ∀ tree, parse a limit tokens = .ok tree →
        tree = ParseTree.ofMoves s.moves.reverse ∧ s.rest = [] ∧ 8 ≤ spare s.moves := by
  by_cases hne : tokens = []
  · subst hne
    exact ⟨{ rest := [] }, rfl, .start [], fun tree h => by cases h⟩
  · have hends := Parser.grows_formula (a := a) limit 0 _ (.start tokens) (Int.le_refl 6)
    have hattempt := attempt_eq (a := a) hne limit
    unfold Parser.Ends at hends
    cases hrun : Parser.formula a limit 0 { rest := tokens } with
    | error e s =>
      rw [hrun] at hends hattempt
      rw [parse, hattempt]
      exact ⟨s, rfl, hends, fun tree h => by cases h⟩
    | ok _ s =>
      rw [hrun] at hends hattempt
      obtain ⟨hs, hspare⟩ := hends
      cases hrest : s.rest with
      | nil =>
        simp only [hrest] at hattempt
        rw [parse, hattempt]
        refine ⟨s, rfl, hs, fun tree h => ?_⟩
        split at h
        · cases h
        · cases h
          exact ⟨rfl, hrest, hspare⟩
      | cons found rest =>
        simp only [hrest] at hattempt
        rw [parse, hattempt]
        exact ⟨s, rfl, hs, fun tree h => by cases h⟩

theorem consumed_isPrefix (h : before <+: (attempt a limit tokens).moves) :
    consumed before <+: tokens := by
  obtain ⟨s, hmoves, hs, -⟩ := exists_solvent a limit tokens
  rw [hmoves] at h
  exact (h.filterMap _).trans ⟨s.rest, hs.read⟩

/-- At every point one more node could be made. -/
theorem two_mul_size_le (h : before <+: (attempt a limit tokens).moves) :
    2 * (ParseTree.ofMoves before).size ≤ 5 * (consumed before).length + 6 := by
  obtain ⟨s, hmoves, hs, -⟩ := exists_solvent a limit tokens
  have hsuffix : before.reverse <:+ s.moves := by
    rw [hmoves] at h
    simpa using List.reverse_suffix.2 h
  have htwo := hs.enough _ hsuffix
  rw [spare_reverse, spare_eq] at htwo
  omega

theorem two_mul_size_concat_le {m : Move}
    (h : before ++ [m] <+: (attempt a limit tokens).moves) :
    2 * (ParseTree.ofMoves (before ++ [m])).size ≤ 5 * (consumed before).length + 8 := by
  have hle := two_mul_size_le ((List.prefix_append before [m]).trans h)
  have hone : m.label?.toList.length ≤ 1 := by cases m <;> simp [Move.label?]
  rw [size_ofMoves_concat]
  omega

theorem two_mul_size_le_of_parse {tree : ParseTree} (h : parse a limit tokens = .ok tree) :
    2 * tree.size ≤ 5 * tokens.length := by
  obtain ⟨s, -, hs, hparse⟩ := exists_solvent a limit tokens
  obtain ⟨rfl, hrest, height⟩ := hparse tree h
  have hall := hs.read
  rw [hrest, List.append_nil] at hall
  rw [← spare_reverse, spare_eq, hall] at height
  omega

/-! Ids of 32 bits. -/

/-- A number as 32 bits keep it. -/
def narrow (n : Nat) : Nat := (UInt32.ofNat n).toNat

theorem narrow_eq {n : Nat} (h : n < UInt32.size) : narrow n = n := UInt32.toNat_ofNat_of_lt h

/-- Attaches a new last child to a node, with an id of 32 bits. -/
def ParseTree.addNarrow : ParseTree → (parent : Nat) → NodeLabel → ParseTree
  | ⟨nodes⟩, parent, label =>
    let id := narrow nodes.size
    let nodes := nodes.push { label, parent := some parent }
    ⟨nodes.modify parent fun n => { n with children := n.children ++ [id] }⟩

theorem ParseTree.addNarrow_eq {t : ParseTree} {p : Nat} (hp : p < t.size)
    (hsize : t.size < UInt32.size) (l : NodeLabel) : t.addNarrow p l = t.addChild p l := by
  apply eq_of_toList
  have hlength : p < t.nodes.toList.length := hp
  have hnarrow : (t.addNarrow p l).nodes.toList =
      (t.nodes.toList ++ [Node.mk l (some p) []]).modify p (Node.adopt [narrow t.size]) := by
    rw [addNarrow, Array.toList_modify, Array.toList_push]
    rfl
  rw [hnarrow, narrow_eq hsize, modify_append_of_lt hlength, toList_addChild]

namespace Sketch

/-- What a move draws where ids have 32 bits. -/
def drawNarrow : Sketch → Move → Sketch
  | s, .select .. => s
  | ⟨tree, opened⟩, .enter nt =>
    let id := narrow tree.size
    ⟨tree.addNarrow (opened.headD 0) (.nonTerminal nt), id :: opened⟩
  | ⟨tree, opened⟩, .shift token => ⟨tree.addNarrow (opened.headD 0) (.terminal token), opened⟩
  | ⟨tree, opened⟩, .leave => ⟨tree, opened.tail⟩

theorem Sound.drawNarrow_eq {s : Sketch} (h : s.Sound) (hsize : s.tree.size < UInt32.size)
    (m : Move) : s.drawNarrow m = s.draw m := by
  have hadd := ParseTree.addNarrow_eq h.head_lt hsize
  obtain ⟨tree, opened⟩ := s
  cases m with
  | enter nt => exact congrArg₂ Sketch.mk (hadd _) (congrArg (· :: opened) (narrow_eq hsize))
  | shift token => exact congrArg (Sketch.mk · opened) (hadd _)
  | _ => rfl

end Sketch

/-- As long as the nodes are few enough, the same is drawn with ids of 32 bits. -/
theorem foldl_drawNarrow
    (h : ∀ earlier, earlier <+: before → (ParseTree.ofMoves earlier).size < UInt32.size) :
    before.foldl Sketch.drawNarrow {} = before.foldl Sketch.draw {} := by
  induction before using List.reverseRecOn with
  | nil => rfl
  | append_singleton before m ih =>
    have hbefore := List.prefix_append before [m]
    have hsame := ih fun earlier hearlier => h earlier (hearlier.trans hbefore)
    rw [List.foldl_append, List.foldl_append, hsame]
    exact (Sketch.Sound.start.foldl_draw before).drawNarrow_eq (h before hbefore) m

/-- On tokens that are few enough, all nodes have ids that 32 bits keep. -/
theorem size_lt_of_short (hshort : 5 * tokens.length + 8 < 2 * UInt32.size)
    (h : before <+: (attempt a limit tokens).moves) :
    (ParseTree.ofMoves before).size < UInt32.size := by
  have hle := two_mul_size_le h
  have hlength := (consumed_isPrefix h).length_le
  omega

theorem foldl_drawNarrow_of_short (hshort : 5 * tokens.length + 8 < 2 * UInt32.size)
    (h : before <+: (attempt a limit tokens).moves) :
    before.foldl Sketch.drawNarrow {} = before.foldl Sketch.draw {} :=
  foldl_drawNarrow fun _ hearlier => size_lt_of_short hshort (hearlier.trans h)

theorem label?_narrow {m : Move} {l : NodeLabel}
    (hshort : 5 * tokens.length + 8 < 2 * UInt32.size)
    (h : before <+: (attempt a limit tokens).moves) (hearlier : earlier ++ [m] <+: before)
    (hm : m.label? = some l) :
    (ParseTree.ofMoves before).label? (narrow (ParseTree.ofMoves earlier).size) = some l := by
  have hfirst := (List.prefix_append earlier [m]).trans (hearlier.trans h)
  rw [narrow_eq (size_lt_of_short hshort hfirst)]
  exact label?_ofMoves hearlier hm

/-- At every point of a parse, also between making the leaf of a token and counting the token as
read, twice the number of nodes is at most five times the number of tokens read, and eight; after a
success eight are left over. So on inputs that are short enough, ids of 32 bits are exact, the same
is drawn with them, and each of them is that of a node with the label it was made for. -/
theorem parse_nodes_le (a : Alphabet) (limit : Nat) (tokens : List Symbol) :
    (∀ before, before <+: (attempt a limit tokens).moves →
      consumed before <+: tokens ∧
        2 * (ParseTree.ofMoves before).size ≤ 5 * (consumed before).length + 8) ∧
    (∀ before m, before ++ [m] <+: (attempt a limit tokens).moves →
      2 * (ParseTree.ofMoves (before ++ [m])).size ≤ 5 * (consumed before).length + 8) ∧
    (∀ tree, parse a limit tokens = .ok tree → 2 * tree.size ≤ 5 * tokens.length) ∧
    (5 * tokens.length + 8 < 2 * UInt32.size →
      ∀ before, before <+: (attempt a limit tokens).moves →
        narrow (ParseTree.ofMoves before).size = (ParseTree.ofMoves before).size ∧
        before.foldl Sketch.drawNarrow {} = before.foldl Sketch.draw {} ∧
        ∀ earlier m l, earlier ++ [m] <+: before → m.label? = some l →
          (ParseTree.ofMoves before).label? (narrow (ParseTree.ofMoves earlier).size) =
            some l) := by
  refine ⟨fun before h => ⟨consumed_isPrefix h, ?_⟩, fun before m h => two_mul_size_concat_le h,
    fun tree h => two_mul_size_le_of_parse h, fun hshort before h => ⟨?_, ?_, ?_⟩⟩
  · have hle := two_mul_size_le h
    omega
  · exact narrow_eq (size_lt_of_short hshort h)
  · exact foldl_drawNarrow_of_short hshort h
  · exact fun earlier m l => label?_narrow hshort h

/-- The bound is met where the leaf for the predicate symbol of a first atom is made. -/
example (z : Symbol) :
    2 * (ParseTree.ofMoves [.enter .predicate, .enter .predicateSymbol, .shift z]).size =
      5 * (consumed [.enter .predicate, .enter .predicateSymbol]).length + 8 := rfl

theorem parse_nodes_le_sample :
    5 * Formula.sample.yield.length + 8 < 2 * UInt32.size ∧
      2 * Formula.sample.tree.arena.size ≤ 5 * Formula.sample.yield.length ∧
      (attempt .sample 4 Formula.sample.yield).moves.foldl Sketch.drawNarrow {} =
        (attempt .sample 4 Formula.sample.yield).moves.foldl Sketch.draw {} := by
  have hparse : parse .sample 4 Formula.sample.yield = .ok Formula.sample.tree.arena := rfl
  have hshort : 5 * Formula.sample.yield.length + 8 < 2 * UInt32.size := by decide
  obtain ⟨-, -, hsize, hids⟩ := parse_nodes_le .sample 4 Formula.sample.yield
  exact ⟨hshort, hsize _ hparse, (hids hshort _ List.prefix_rfl).2.1⟩

end Formulary
