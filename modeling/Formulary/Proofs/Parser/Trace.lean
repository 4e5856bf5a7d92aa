import Formulary.Proofs.Alphabet.Legal
import Formulary.Proofs.Pipeline.Accepts
import Formulary.Proofs.Tree.Order

/-!
Traces. Each time it begins a formula the parser tells an event, with the rule it has chosen, the
tokens it has read and the formulas it is in. If it succeeds, these events are those that the parse
tree calls for, one for each formula in it.
-/

namespace Formulary

namespace FormulaRule

/-- The right-hand side of a rule. -/
def rhs : FormulaRule → List Element
  | .binary => [.punct .openParen, .nt .formula, .nt .connective, .nt .formula, .punct .closeParen]
  | .equation => [.punct .openParen, .nt .term, .equality, .nt .term, .punct .closeParen]
  | .quantified => [.nt .quantifier, .nt .var, .nt .formula]
  | .negation => [.negation, .nt .formula]
  | .atom => [.nt .predicate]

/-- The rules are the alternatives of the production of formulas. -/
theorem alternatives_formula : Production.formula.alternatives.Perm (all.map rhs) := by decide

end FormulaRule

/-- The labels below a formula are an instance of its own rule and of no other. -/
theorem Formula.fills_rhs_iff {s : Signature} (φ : Formula s) (r : FormulaRule) :
    List.Forall₂ s.Fills r.rhs (φ.tree.children.map SyntaxTree.label) ↔ r = φ.rule := by
  cases φ <;> cases r <;>
    simp [FormulaRule.rhs, tree, SyntaxTree.children, Signature.Fills, rule, VarList.atomTree]

namespace ParseTree

section

variable (tree : ParseTree)

def isFormula (id : Nat) : Bool := tree.label? id = some (.nonTerminal .formula)

def isLeaf (id : Nat) : Bool := (tree.label? id).any NodeLabel.isTerminal

/-- The formulas in a tree, from top to bottom and left to right. -/
def formulas : List Nat := tree.preorder.filter tree.isFormula

/-- The number of leaves that are met before a node. -/
def leavesBefore (id : Nat) : Nat := (tree.preorder.takeWhile (· ≠ id)).countP tree.isLeaf

/-- The nodes on a way down from the root, and the one at its end. -/
inductive Path : List Nat → Nat → Prop
  | root : Path [0] 0
  | step {path : List Nat} {p id : Nat} (above : Path path p) (below : id ∈ tree.children p) :
    Path (path ++ [id]) id

/-- Whether what a node has below it was made by a rule, so many leaves come before the node, and
so many formulas are on the way down to it, with itself. -/
structure HasFormula (s : Signature) (id : Nat) (rule : FormulaRule) (position depth : Nat) :
    Prop where
  rule : ∃ labels, (tree.children id).map tree.label? = labels.map some ∧
    ∀ r : FormulaRule, List.Forall₂ s.Fills r.rhs labels ↔ r = rule
  position : tree.leavesBefore id = position
  reached : ∃ path, tree.Path path id
  depth : ∀ path, tree.Path path id → path.countP tree.isFormula = depth

/-- Whether an event is what a tree calls for at a node. -/
def Calls (s : Signature) (id : Nat) (e : Event) : Prop :=
  ∃ rule position depth, e = .formulaEntered (some rule) position depth ∧
    tree.HasFormula s id rule position depth

end

variable {tree : ParseTree} {s : Signature} {id i position : Nat} {above path path' : List Nat}

theorem InOrder.path_unique (h : tree.InOrder) (hpath : tree.Path path id)
    (hpath' : tree.Path path' id) : path = path' := by
  have hroot : ∀ p, 0 ∉ tree.children p := by
    intro p hp
    cases ((h.linked p 0).1 hp).symm.trans h.root
  induction hpath generalizing path' with
  | root =>
    cases hpath' with
    | root => rfl
    | step _ below => exact absurd below (hroot _)
  | step _ below ih =>
    cases hpath' with
    | root => exact absurd below (hroot _)
    | step above' below' =>
      have hparent := ((h.linked _ _).1 below).symm.trans ((h.linked _ _).1 below')
      obtain rfl := Option.some.inj hparent
      rw [ih above']

theorem takeWhile_range {id n : Nat} (h : id ≤ n) :
    (List.range n).takeWhile (· ≠ id) = List.range id := by
  obtain ⟨more, rfl⟩ := Nat.exists_eq_add_of_le h
  rw [List.range_add, List.takeWhile_append_of_pos (by simpa using fun i hi => Nat.ne_of_lt hi)]
  cases more <;> simp [List.range_succ_eq_map]

theorem InOrder.leavesBefore_eq (h : tree.InOrder) (hid : id ≤ tree.size) :
    tree.leavesBefore id = (List.range id).countP tree.isLeaf := by
  rw [leavesBefore, h.preorder, takeWhile_range hid]

/-- Whether a table has some trees as the last children of the node at the end of a path, behind so
many leaves. -/
structure Stands (tree : ParseTree) (above : List Nat) (id position : Nat)
    (cs : List SyntaxTree) : Prop where
  has : ∃ parent, tree.Has id (SyntaxTree.tableOf id parent cs)
  leaves : (List.range id).countP tree.isLeaf = position
  paths : ∀ i ∈ SyntaxTree.ids id cs, tree.Path (above ++ [i]) i

theorem Has.countP_isLeaf {t : SyntaxTree} {parent : Option Nat}
    (h : tree.Has id (t.table id parent)) :
    (List.range' id t.size).countP tree.isLeaf = t.yield.length := by
  have hisLeaf : tree.isLeaf = (Option.any NodeLabel.isTerminal) ∘ tree.label? := rfl
  rw [hisLeaf, ← List.countP_map, h.map_label?_range', List.countP_map, SyntaxTree.yield,
    List.length_filterMap_eq_countP]
  refine List.countP_congr fun u _ => ?_
  cases u <;> rfl

namespace Stands

variable {c : SyntaxTree} {cs : List SyntaxTree} {nt : NonTerminal}

theorem exists_has (h : tree.Stands above id position (c :: cs)) :
    ∃ parent, tree.Has id (c.table id parent) := by
  obtain ⟨parent, hhas⟩ := h.has
  exact ⟨parent, hhas.cons.1⟩

theorem head (h : tree.Stands above id position (c :: cs)) :
    tree.Stands above id position [c] where
  has := by
    obtain ⟨parent, hhas⟩ := h.exists_has
    exact ⟨parent, by simpa [SyntaxTree.tableOf] using hhas⟩
  leaves := h.leaves
  paths i hi := by
    obtain rfl : i = id := by simpa [SyntaxTree.ids] using hi
    exact h.paths i List.mem_cons_self

theorem tail (h : tree.Stands above id position (c :: cs)) :
    tree.Stands above (id + c.size) (position + c.yield.length) cs where
  has := by
    obtain ⟨parent, hhas⟩ := h.has
    exact ⟨parent, hhas.cons.2⟩
  leaves := by
    obtain ⟨parent, hhas⟩ := h.exists_has
    rw [List.range_eq_range', ← List.range'_append_1, List.countP_append, Nat.zero_add,
      hhas.countP_isLeaf, ← List.range_eq_range', h.leaves]
  paths i hi := h.paths i (List.mem_cons_of_mem id hi)

theorem path_head (h : tree.Stands above id position (c :: cs)) : tree.Path (above ++ [id]) id :=
  h.paths id List.mem_cons_self

/-- What is below a node that is no leaf. -/
theorem below (h : tree.Stands above id position [.node nt cs]) :
    tree.Stands (above ++ [id]) (id + 1) position cs where
  has := by
    obtain ⟨parent, hhas⟩ := h.exists_has
    exact ⟨some id, hhas.below⟩
  leaves := by
    obtain ⟨parent, hhas⟩ := h.exists_has
    simp [List.range_succ, h.leaves, isLeaf, hhas.label?, NodeLabel.isTerminal]
  paths i hi := by
    obtain ⟨parent, hhas⟩ := h.exists_has
    exact h.path_head.step (hhas.children_eq ▸ hi)

end Stands

/-- Whether moves tell just the events that a tree calls for at the nodes of some trees. -/
def Tells (tree : ParseTree) (s : Signature) (id : Nat) (moves : List Move)
    (cs : List SyntaxTree) : Prop :=
  List.Forall₂ (tree.Calls s) ((List.range' id (cs.map SyntaxTree.size).sum).filter tree.isFormula)
    (moves.filterMap Move.event?)

namespace Tells

variable {c : SyntaxTree} {cs : List SyntaxTree} {moves moves' : List Move}

theorem nil : tree.Tells s id [] [] := List.Forall₂.nil

theorem cons (h : tree.Tells s id moves [c]) (h' : tree.Tells s (id + c.size) moves' cs) :
    tree.Tells s id (moves ++ moves') (c :: cs) := by
  rw [Tells, List.map_cons, List.sum_cons, ← List.range'_append_1, List.filter_append,
    List.filterMap_append]
  exact List.rel_append (by simpa [Tells] using h) h'

theorem within (h : tree.Tells s id moves cs) (nt : NonTerminal) :
    tree.Tells s id (.enter nt :: (moves ++ [.leave])) cs := by
  have hleave : [Move.leave].filterMap Move.event? = [] := rfl
  rwa [Tells, List.filterMap_cons_none rfl, List.filterMap_append, hleave, List.append_nil]

/-- Where a formula is begun, what its choice of rule tells comes before all that is below. -/
theorem select {rule : Option FormulaRule} {position depth : Nat}
    (hid : tree.isFormula id) (he : tree.Calls s id (.formulaEntered rule position depth))
    (h : tree.Tells s (id + 1) moves cs) :
    tree.Tells s id (.select rule position depth :: moves) [.node .formula cs] := by
  have hsize : ([SyntaxTree.node .formula cs].map SyntaxTree.size).sum =
      (cs.map SyntaxTree.size).sum + 1 := by simp
  rw [Tells, hsize, List.range'_succ, List.filter_cons_of_pos hid]
  exact .cons he h

end Tells

end ParseTree

/-- The moves that read a tree tell nothing. -/
theorem SyntaxTree.event?_of_mem_moves {t : SyntaxTree} {m : Move} (h : m ∈ t.moves) :
    m.event? = none := by
  induction t with
  | leaf token =>
    obtain rfl : m = .shift token := by simpa using h
    rfl
  | node nt cs ih =>
    rw [moves_node, List.mem_cons, List.mem_append, List.mem_flatMap, List.mem_singleton] at h
    obtain rfl | ⟨c, hc, hm⟩ | rfl := h
    · rfl
    · exact ih c hc hm
    · rfl

namespace ParseTree

variable {tree : ParseTree} {s : Signature} {id position : Nat} {above : List Nat}

/-- Nothing is told of trees without formulas. -/
theorem Stands.tells_moves {t : SyntaxTree} (h : tree.Stands above id position [t])
    (ht : t.nesting = 0) : tree.Tells s id t.moves [t] := by
  obtain ⟨parent, hhas⟩ := h.exists_has
  have hmoves : t.moves.filterMap Move.event? = [] :=
    List.filterMap_eq_nil_iff.2 fun _ => SyntaxTree.event?_of_mem_moves
  have hformulas : (List.range' id t.size).filter tree.isFormula = [] := by
    refine List.filter_eq_nil_iff.2 fun i hi => ?_
    have hlabel := List.mem_map_of_mem (f := tree.label?) hi
    rw [hhas.map_label?_range', List.mem_map] at hlabel
    obtain ⟨u, hu, hlabel⟩ := hlabel
    simp [isFormula, ← hlabel, SyntaxTree.label_ne_formula ht hu]
  simp [Tells, hmoves, hformulas]

end ParseTree

namespace Formula

open ParseTree

variable {s : Signature} {tree : ParseTree} {id position : Nat} {above : List Nat}

theorem isFormula_of_stands (φ : Formula s) (h : tree.Stands above id position [φ.tree]) :
    tree.isFormula id := by
  obtain ⟨parent, hhas⟩ := h.exists_has
  simp [ParseTree.isFormula, hhas.label?]

theorem hasFormula (φ : Formula s) (hinOrder : tree.InOrder)
    (h : tree.Stands above id position [φ.tree]) :
    tree.HasFormula s id φ.rule position (above.countP tree.isFormula + 1) where
  rule := by
    obtain ⟨parent, hhas⟩ := h.exists_has
    refine ⟨φ.tree.children.map SyntaxTree.label, ?_, φ.fills_rhs_iff⟩
    rw [hhas.children_eq, hhas.below.map_label?, List.map_map]
    rfl
  position := by
    obtain ⟨parent, hhas⟩ := h.exists_has
    have hlt : id < tree.size := (Array.getElem?_eq_some_iff.1 hhas.root).1
    rw [hinOrder.leavesBefore_eq (Nat.le_of_lt hlt), h.leaves]
  reached := ⟨above ++ [id], h.path_head⟩
  depth path hpath := by
    rw [hinOrder.path_unique hpath h.path_head, List.countP_append]
    simp [φ.isFormula_of_stands h]

theorem tells_select (φ : Formula s) (hinOrder : tree.InOrder)
    (h : tree.Stands above id position [φ.tree]) {moves : List Move}
    (hmoves : tree.Tells s (id + 1) moves φ.tree.children) :
    tree.Tells s id
      (.select (some φ.rule) position (above.countP tree.isFormula + 1) :: moves) [φ.tree] := by
  have hcalls := φ.hasFormula hinOrder h
  have hid := φ.isFormula_of_stands h
  rw [SyntaxTree.eq_node φ.label_tree]
  exact Tells.select hid ⟨_, _, _, rfl, hcalls⟩ hmoves

/-- Whether the moves that read a formula tell what its tree calls for, wherever a table has this
tree. The formulas on the way down to it are those that the parser counts. -/
def Told (φ : Formula s) (tree : ParseTree) : Prop :=
  ∀ ⦃above : List Nat⦄ ⦃id position : Nat⦄, tree.Stands above id position [φ.tree] →
    tree.Tells s id (φ.moves (above.countP tree.isFormula) position) [φ.tree]

namespace Told

variable {left right body : Formula s}

theorem binary (c : s.Member .binaryConnective) (hinOrder : tree.InOrder) (hl : left.Told tree)
    (hr : right.Told tree) : (Formula.binary left c right).Told tree := by
  intro above id position h
  have hopen := h.below
  have hleft := hopen.tail
  have hc := hleft.tail
  have hright := hc.tail
  have hbelow := (hopen.head.tells_moves (SyntaxTree.nesting_leaf _)).cons <|
    ((hl hleft.head).within .formula).cons <|
    (hc.head.tells_moves (NonTerminal.nesting_over (by decide) _)).cons <|
    ((hr hright.head).within .formula).cons <|
    (hright.tail.head.tells_moves (SyntaxTree.nesting_leaf _)).cons .nil
  have hid := (Formula.binary left c right).isFormula_of_stands h
  simpa [moves, rule, hid] using (Formula.binary left c right).tells_select hinOrder h hbelow

theorem equation (left right : Term s) (hinOrder : tree.InOrder) :
    (Formula.equation left right).Told tree := by
  intro above id position h
  have hopen := h.below
  have hleft := hopen.tail
  have hequality := hleft.tail
  have hright := hequality.tail
  have hbelow := (hopen.head.tells_moves (s := s) (SyntaxTree.nesting_leaf _)).cons <|
    (hleft.head.tells_moves left.nesting_tree).cons <|
    (hequality.head.tells_moves (SyntaxTree.nesting_leaf _)).cons <|
    (hright.head.tells_moves right.nesting_tree).cons <|
    (hright.tail.head.tells_moves (SyntaxTree.nesting_leaf _)).cons .nil
  simpa [moves, rule] using (Formula.equation left right).tells_select hinOrder h hbelow

theorem quantified (q : s.Member .quantifier) (v : s.Member .var) (hinOrder : tree.InOrder)
    (hbody : body.Told tree) : (Formula.quantified q v body).Told tree := by
  intro above id position h
  have hq := h.below
  have hv := hq.tail
  have hbelow := (hq.head.tells_moves (NonTerminal.nesting_over (by decide) _)).cons <|
    (hv.head.tells_moves (NonTerminal.nesting_over (by decide) _)).cons <|
    ((hbody hv.tail.head).within .formula).cons .nil
  have hid := (Formula.quantified q v body).isFormula_of_stands h
  simpa [moves, rule, hid] using (Formula.quantified q v body).tells_select hinOrder h hbelow

theorem negation (hinOrder : tree.InOrder) (hbody : body.Told tree) :
    (Formula.negation body).Told tree := by
  intro above id position h
  have hneg := h.below
  have hbelow := (hneg.head.tells_moves (SyntaxTree.nesting_leaf _)).cons <|
    ((hbody hneg.tail.head).within .formula).cons .nil
  have hid := (Formula.negation body).isFormula_of_stands h
  simpa [moves, rule, hid] using (Formula.negation body).tells_select hinOrder h hbelow

theorem atom (z : s.Member .predicateSymbol) (args : VarList s) (hinOrder : tree.InOrder) :
    (Formula.atom z args).Told tree := by
  intro above id position h
  have hnesting : (args.atomTree z).nesting = 0 := by
    simp [VarList.atomTree, NonTerminal.nesting_over]
  exact (Formula.atom z args).tells_select hinOrder h (h.below.tells_moves hnesting)

end Told

theorem told (φ : Formula s) (hinOrder : tree.InOrder) : φ.Told tree := by
  induction φ with
  | binary left c right ihl ihr => exact ihl.binary c hinOrder ihr
  | equation left right => exact .equation left right hinOrder
  | quantified q v body ih => exact ih.quantified q v hinOrder
  | negation body ih => exact ih.negation hinOrder
  | atom z args => exact .atom z args hinOrder

end Formula

theorem SyntaxTree.stands_arena (t : SyntaxTree) : t.arena.Stands [] 0 0 [t] where
  has := ⟨none, by simpa [tableOf] using t.has_arena⟩
  leaves := rfl
  paths i hi := by
    obtain rfl : i = 0 := by simpa [ids] using hi
    exact .root

variable {a : Alphabet} {limit : Nat} {tokens : List Symbol} {tree : ParseTree}

/-- Whether an event is told at the lowest level about a formula. -/
def Event.marksFormula (e : Event) : Bool := e.level = .trace && e.message = "F"

/-- Whether of some events those about formulas are the ones that a tree calls for: one for each of
its formulas and no others, from top to bottom and left to right. -/
def ParseTree.Traces (tree : ParseTree) (s : Signature) (events : List Event) : Prop :=
  List.Forall₂ (tree.Calls s) tree.formulas (events.filter Event.marksFormula)

theorem ParseTree.Traces.between {s : Signature} {events : List Event} (h : tree.Traces s events)
    (before : List Event) {after : List Event} (hbefore : before.filter Event.marksFormula = [])
    (hafter : after.filter Event.marksFormula = []) :
    tree.Traces s (before ++ events ++ after) := by
  rwa [Traces, List.filter_append, List.filter_append, hbefore, hafter, List.nil_append,
    List.append_nil]

theorem filter_marksFormula_moves (moves : List Move) :
    (moves.filterMap Move.event?).filter Event.marksFormula = moves.filterMap Move.event? := by
  refine List.filter_eq_self.2 fun e he => ?_
  obtain ⟨move, -, hmove⟩ := List.mem_filterMap.1 he
  cases move with
  | select rule position depth =>
    cases hmove
    rfl
  | enter _ => cases hmove
  | shift _ => cases hmove
  | leave => cases hmove

/-- What the parser tells while it parses the tokens of a tree. -/
theorem traces_tracedParse (h : parse a limit tokens = .ok tree) :
    tree.Traces a.toSignature (tracedParse a limit tokens).events := by
  have hevents := events_tracedParse h
  obtain ⟨φ, rfl, hφ, rfl⟩ := parse_eq_ok_iff.1 h
  have htells := φ.told φ.tree.inOrder_arena φ.tree.stands_arena
  rw [hevents]
  refine ParseTree.Traces.between ?_ [] rfl rfl
  rw [ParseTree.Traces, filter_marksFormula_moves, φ.attempt_yield hφ, ParseTree.formulas,
    SyntaxTree.preorder_arena, List.range_eq_range']
  simpa [ParseTree.Tells] using htells

/-- A parse that succeeds tells an event for every formula in its tree and no others, from top to
bottom and left to right, and each of them says what is true of its formula. So does an analysis
that gets to the tree, and a run, if its sink tells nothing of formulas. -/
theorem parse_trace (h : parse a limit tokens = .ok tree) :
    tree.Traces a.toSignature (tracedParse a limit tokens).events ∧
    ∀ d : Definition, d.declaration.validate = .ok a → d.formula = tokens →
      checkStructure a.toSignature tokens = .ok () →
      tree.Traces a.toSignature (d.analyze limit).events ∧
      ∀ {σ : Type} (p : Pipeline (StateM σ)) (w : σ), p.options.limit = limit →
        (∀ record w, ((p.sink.record record).run w).1.filter Event.marksFormula = []) →
        tree.Traces a.toSignature ((p.runDefinition d).run w).1.events := by
  have hparse := traces_tracedParse h
  refine ⟨hparse, ?_⟩
  rintro d hvalidate rfl hstructure
  have hanalyze : tree.Traces a.toSignature (d.analyze limit).events := by
    rw [Definition.events_analyze hvalidate hstructure h]
    exact hparse.between [_, _] rfl rfl
  refine ⟨hanalyze, ?_⟩
  rintro σ p w rfl hsink
  exact hanalyze.between [] rfl (hsink _ _)

/-- What a run tells of formulas on `exists y (R(x,y) and not (y = a))`. -/
theorem parse_trace_sample :
    let declaration : Declaration :=
      { vars := [⟨"x"⟩, ⟨"y"⟩], constants := [⟨"a"⟩], predicates := [⟨⟨"P"⟩, "1"⟩, ⟨⟨"R"⟩, "2"⟩],
        equality := [⟨"="⟩], connectives := [⟨"and"⟩, ⟨"or"⟩, ⟨"implies"⟩, ⟨"iff"⟩, ⟨"not"⟩],
        quantifiers := [⟨"forall"⟩, ⟨"exists"⟩] }
    let p : Pipeline (StateM (List Record)) := ⟨{ limit := 4 }, pure ⟨2024, 3, 7, 9, 5, 1⟩, .memory⟩
    let events := ((p.runDefinition ⟨declaration, Formula.sample.yield⟩).run []).1.events
    parse .sample 4 Formula.sample.yield = .ok Formula.sample.tree.arena ∧
      declaration.validate = .ok .sample ∧
      checkStructure Alphabet.sample.toSignature Formula.sample.yield = .ok () ∧
      events.filter Event.marksFormula =
        [.formulaEntered (some .quantified) 0 1, .formulaEntered (some .binary) 2 2,
          .formulaEntered (some .atom) 3 3, .formulaEntered (some .negation) 10 3,
          .formulaEntered (some .equation) 11 4] ∧
      Formula.sample.tree.arena.Traces Alphabet.sample.toSignature events := by
  intro declaration p events
  have hparse : parse .sample 4 Formula.sample.yield = .ok Formula.sample.tree.arena := rfl
  have hvalidate : declaration.validate = .ok .sample :=
    Declaration.validate_eq_ok_iff.2 ⟨rfl, by decide⟩
  have hstructure : checkStructure Alphabet.sample.toSignature Formula.sample.yield = .ok () := rfl
  have hrun := (parse_trace hparse).2 ⟨declaration, _⟩ hvalidate rfl hstructure
  exact ⟨hparse, hvalidate, hstructure, by decide +kernel, hrun.2 p [] rfl fun _ _ => rfl⟩

end Formulary
