import Formulary.Proofs.Parser.Accepts
import Formulary.Proofs.Renaming.Checks

/-!
Parsing does not depend on how symbols are spelled. On renamed tokens the parser makes the renamed
moves; so it draws the same tree with other labels, or fails for the same reason at the same place.
-/

namespace Formulary

/-- Forgets what was wanted, which is told in symbols. -/
def ParseError.unworded : ParseError → ParseError
  | .expected nt _ found position => .expected nt "" found position
  | .unexpectedEnd nt _ => .unexpectedEnd nt ""
  | e => e

def Move.rename (r : Renaming) : Move → Move
  | .select rule position depth => .select rule position depth
  | .enter nt => .enter nt
  | .shift t => .shift (r t)
  | .leave => .leave

def Scan.rename (r : Renaming) (s : Scan) : Scan :=
  ⟨s.rest.map r, s.position, s.moves.map (·.rename r)⟩

def Sketch.rename (r : Renaming) (s : Sketch) : Sketch := ⟨s.tree.rename r, s.opened⟩

section Drawing

variable (r : Renaming)

@[simp] theorem ParseTree.size_rename (t : ParseTree) : (t.rename r).size = t.size := by
  simp [size, rename]

theorem ParseTree.isBare_rename (t : ParseTree) : (t.rename r).isBare = t.isBare := by
  simp [isBare]

theorem ParseTree.toList_rename (t : ParseTree) :
    (t.rename r).nodes.toList = t.nodes.toList.map (·.rename r) := by
  simp [rename]

theorem map_modify_adopt (nodes : List Node) (p : Nat) (ids : List Nat) :
    (nodes.modify p (Node.adopt ids)).map (·.rename r) =
      (nodes.map (·.rename r)).modify p (Node.adopt ids) := by
  induction nodes generalizing p with
  | nil => simp
  | cons n nodes ih =>
    cases p with
    | zero => rfl
    | succ p => simp [ih]

theorem ParseTree.addChild_rename (t : ParseTree) (p : Nat) (l : NodeLabel) :
    (t.addChild p l).rename r = (t.rename r).addChild p (l.rename r) := by
  apply eq_of_toList
  rw [toList_rename, toList_addChild, toList_addChild, toList_rename, List.map_append,
    map_modify_adopt, size_rename]
  rfl

theorem Sketch.draw_rename (s : Sketch) (m : Move) :
    (s.draw m).rename r = (s.rename r).draw (m.rename r) := by
  obtain ⟨tree, opened⟩ := s
  cases m with
  | select rule position depth => rfl
  | enter nt => simp [draw, rename, Move.rename, tree.addChild_rename, NodeLabel.rename]
  | shift t => simp [draw, rename, Move.rename, tree.addChild_rename, NodeLabel.rename]
  | leave => rfl

theorem Sketch.foldl_draw_rename (moves : List Move) (s : Sketch) :
    (moves.foldl draw s).rename r = (moves.map (·.rename r)).foldl draw (s.rename r) := by
  induction moves generalizing s with
  | nil => rfl
  | cons m moves ih => rw [List.foldl_cons, ih, draw_rename, List.map_cons, List.foldl_cons]

/-- Renamed moves draw the renamed tree. -/
theorem ParseTree.ofMoves_rename (moves : List Move) :
    (ofMoves moves).rename r = ofMoves (moves.map (·.rename r)) := by
  have hempty : ({} : Sketch).rename r = {} := by
    simp [Sketch.rename, ParseTree.rename, ParseTree.singleton, Node.rename, NodeLabel.rename]
  have h := Sketch.foldl_draw_rename r moves {}
  rw [hempty] at h
  exact congrArg Sketch.tree h

end Drawing

section Lookahead

variable (r : Renaming) (s : Signature)

theorem TokenClass.admits_rename (k : TokenClass) (o : Option Symbol) :
    k.admits (s.rename r) (o.map r) = k.admits s o := by
  cases o with
  | none => rfl
  | some t => simp [admits]

theorem FormulaRule.applies_rename (ahead : List Symbol) (rule : FormulaRule) :
    rule.applies (s.rename r) (ahead.map r) = rule.applies s ahead := by
  simp [applies, Peek.test, TokenClass.admits_rename]

/-- The same rule is chosen for renamed tokens. -/
theorem FormulaRule.select?_rename (ahead : List Symbol) :
    select? (s.rename r) (ahead.map r) = select? s ahead := by
  unfold select?
  congr 1
  funext rule
  exact applies_rename r s ahead rule

end Lookahead

/-- Whether a run ends as another does, with symbols renamed; errors may want other things. -/
inductive Mirrored (r : Renaming) :
    EStateM.Result ParseError Scan Unit → EStateM.Result ParseError Scan Unit → Prop
  | ok (s : Scan) : Mirrored r (.ok () s) (.ok () (s.rename r))
  | error {e e' : ParseError} (h : e'.unworded = (e.rename r).unworded) (s : Scan) :
    Mirrored r (.error e s) (.error e' (s.rename r))

namespace Parser

variable {r : Renaming} {a : Alphabet} {p p' q q' : Parser Unit} {test test' : Symbol → Bool}

/-- Whether one parser does on renamed tokens what another does on the tokens themselves. -/
def Mirrors (r : Renaming) (p p' : Parser Unit) : Prop :=
  ∀ s : Scan, Mirrored r (p s) (p' (s.rename r))

theorem Mirrors.seq (hp : Mirrors r p p') (hq : Mirrors r q q') :
    Mirrors r (do p; q) (do p'; q') := by
  intro s
  rw [bind_apply, bind_apply]
  have h := hp s
  generalize p s = result, p' (s.rename r) = result' at h ⊢
  cases h with
  | ok t => exact hq t
  | error h t => exact .error h t

theorem Mirrors.within (hp : Mirrors r p p') (nt : NonTerminal) :
    Mirrors r (within nt p) (within nt p') := by
  intro s
  rw [within_apply, within_apply]
  have h : Mirrored r (p { s with moves := .enter nt :: s.moves })
      (p' { s.rename r with moves := .enter nt :: (s.rename r).moves }) := hp (s.noted (.enter nt))
  generalize p { s with moves := .enter nt :: s.moves } = result,
    p' { s.rename r with moves := .enter nt :: (s.rename r).moves } = result' at h ⊢
  cases h with
  | ok t => exact .ok (t.noted .leave)
  | error h t => exact .error h t

theorem Mirrors.of_sees (htest : ∀ t, test' (r t) = test t) (hp : Mirrors r p p')
    (hq : Mirrors r q q') :
    Mirrors r (do if ← sees test then p else q) (do if ← sees test' then p' else q') := by
  intro s
  have hany : (s.rename r).rest.head?.any test' = s.rest.head?.any test := by
    simp only [Scan.rename, List.head?_map, Option.any_map]
    congr 1
    funext t
    exact htest t
  rw [bind_sees, bind_sees, hany]
  split
  · exact hp s
  · exact hq s

theorem mirrors_pure : Mirrors r (pure ()) (pure ()) := Mirrored.ok

theorem mirrors_shift : Mirrors r shift shift := by
  intro s
  obtain ⟨rest, position, moves⟩ := s
  cases rest with
  | nil => exact .ok ⟨[], position, moves⟩
  | cons t rest => exact .ok ⟨rest, position + 1, .shift t :: moves⟩

theorem mirrors_fail (nt : NonTerminal) (wanted wanted' : String) :
    Mirrors r (fail nt wanted) (fail nt wanted') := by
  intro s
  obtain ⟨rest, position, moves⟩ := s
  cases rest with
  | nil =>
    have h : (ParseError.unexpectedEnd nt wanted').unworded =
        ((ParseError.unexpectedEnd nt wanted).rename r).unworded := rfl
    exact .error h ⟨[], position, moves⟩
  | cons found rest =>
    have h : (ParseError.expected nt wanted' (r found) position).unworded =
        ((ParseError.expected nt wanted found position).rename r).unworded := rfl
    exact .error h ⟨found :: rest, position, moves⟩

theorem mirrors_expect (nt : NonTerminal) (wanted wanted' : String)
    (htest : ∀ t, test' (r t) = test t) :
    Mirrors r (expect nt wanted test) (expect nt wanted' test') :=
  mirrors_shift.of_sees htest (mirrors_fail nt wanted wanted')

theorem mirrors_literal (nt : NonTerminal) {t t' : Symbol} (h : r t = t') :
    Mirrors r (literal nt t) (literal nt t') := by
  subst h
  apply mirrors_expect
  simp

theorem mirrors_member (k : TokenClass) (nt : NonTerminal) (wanted : String) :
    Mirrors r (within nt (expect nt wanted fun t => t ∈ k.members a.toSignature))
      (within nt (expect nt wanted fun t => t ∈ k.members (a.rename r).toSignature)) := by
  apply Mirrors.within
  apply mirrors_expect
  intro t
  change decide (r t ∈ k.members (a.toSignature.rename r)) = _
  simp

theorem mirrors_connective : Mirrors r (connective a) (connective (a.rename r)) :=
  mirrors_member .binaryConnective .connective "a connective"

theorem mirrors_quantifier : Mirrors r (quantifier a) (quantifier (a.rename r)) :=
  mirrors_member .quantifier .quantifier "a quantifier"

theorem mirrors_var : Mirrors r (var a) (var (a.rename r)) :=
  mirrors_member .var .var "a variable"

theorem mirrors_constant : Mirrors r (constant a) (constant (a.rename r)) :=
  mirrors_member .constant .constant "a constant"

theorem mirrors_predicateSymbol : Mirrors r (predicateSymbol a) (predicateSymbol (a.rename r)) :=
  mirrors_member .predicateSymbol .predicateSymbol "a predicate symbol"

theorem mirrors_term : Mirrors r (term a) (term (a.rename r)) := by
  apply Mirrors.within
  apply mirrors_var.of_sees (fun t => by simp [Alphabet.rename])
  exact mirrors_constant.of_sees (fun t => by simp [Alphabet.rename]) (mirrors_fail _ _ _)

theorem mirrors_varList (commas : Nat) :
    Mirrors r (varList a commas) (varList (a.rename r) commas) := by
  induction commas with
  | zero => exact mirrors_var.within .varList
  | succ commas ih =>
    apply Mirrors.within
    apply mirrors_var.seq
    exact (mirrors_shift.seq ih).of_sees (fun t => by simp) mirrors_pure

theorem mirrors_predicate : Mirrors r (predicate a) (predicate (a.rename r)) := by
  have hargs : Mirrors r
      (do
        varList a (← get).rest.length
        literal .predicate .closeParen)
      (do
        varList (a.rename r) (← get).rest.length
        literal .predicate .closeParen) := by
    intro s
    have hlength : (s.rename r).rest.length = s.rest.length := List.length_map r
    change Mirrored r _ ((do
      varList (a.rename r) (s.rename r).rest.length
      literal .predicate .closeParen) (s.rename r))
    rw [hlength]
    exact (mirrors_varList s.rest.length).seq (mirrors_literal .predicate r.symbol_closeParen) s
  apply Mirrors.within
  apply mirrors_predicateSymbol.seq
  exact (mirrors_literal .predicate r.symbol_openParen).seq hargs

theorem mirrors_byRule {inner inner' : Parser Unit} (h : Mirrors r inner inner')
    (rule : FormulaRule) : Mirrors r (byRule a inner rule) (byRule (a.rename r) inner' rule) := by
  have hinner := h.within .formula
  have hclose := mirrors_literal .formula r.symbol_closeParen
  cases rule with
  | binary =>
    apply mirrors_shift.seq
    apply hinner.seq
    apply mirrors_connective.seq
    exact hinner.seq hclose
  | equation =>
    apply mirrors_shift.seq
    apply mirrors_term.seq
    apply (mirrors_literal .formula (t := a.equality) rfl).seq
    exact mirrors_term.seq hclose
  | quantified =>
    apply mirrors_quantifier.seq
    exact mirrors_var.seq hinner
  | negation => exact mirrors_shift.seq hinner
  | atom => exact mirrors_predicate

/-- Reading a formula from renamed tokens mirrors reading it from the tokens themselves. -/
theorem mirrors_formula (budget depth : Nat) :
    Mirrors r (formula a budget depth) (formula (a.rename r) budget depth) := by
  induction budget generalizing depth with
  | zero =>
    intro s
    rw [formula_zero, formula_zero]
    exact .error rfl s
  | succ budget ih =>
    intro s
    have hselect := FormulaRule.select?_rename r a.toSignature s.rest
    cases hr : FormulaRule.select? a.toSignature s.rest with
    | none =>
      rw [hr] at hselect
      rw [formula_of_none hr, formula_of_none hselect]
      exact mirrors_fail _ _ _ (s.noted _)
    | some rule =>
      rw [hr] at hselect
      rw [formula_of_some hr, formula_of_some hselect]
      exact mirrors_byRule (ih (depth + 1)) rule (s.noted _)

end Parser

open Formulary.Parser

/-- Parsing commutes with renaming, but for what errors say was wanted. -/
theorem parse_rename (r : Renaming) (a : Alphabet) (limit : Nat) (tokens : List Symbol) :
    (parse (a.rename r) limit (tokens.map r)).mapError ParseError.unworded =
      ((parse a limit tokens).map (·.rename r)).mapError fun e => (e.rename r).unworded := by
  by_cases htokens : tokens = []
  · subst htokens
    rfl
  have htokens' : tokens.map r ≠ [] := by simpa using htokens
  rw [parse, parse, attempt_eq htokens, attempt_eq htokens']
  have h : Mirrored r (formula a limit 0 { rest := tokens })
      (formula (a.rename r) limit 0 { rest := tokens.map r }) :=
    mirrors_formula limit 0 { rest := tokens }
  generalize formula a limit 0 { rest := tokens } = result,
    formula (a.rename r) limit 0 { rest := tokens.map r } = result' at h ⊢
  cases h with
  | error h s => exact congrArg Except.error h
  | ok s =>
    obtain ⟨rest, position, moves⟩ := s
    cases rest with
    | cons found rest => rfl
    | nil =>
      have htree : ParseTree.ofMoves ((moves.map (·.rename r)).reverse) =
          (ParseTree.ofMoves moves.reverse).rename r := by
        rw [← List.map_reverse, ParseTree.ofMoves_rename]
      simp only [Scan.rename, List.map_nil, htree, ParseTree.isBare_rename]
      split <;> rfl

/-- How the nodes of a tree hang together, whatever their labels. -/
def ParseTree.shape (t : ParseTree) : List (Option Nat × List Nat) :=
  t.nodes.toList.map fun n => (n.parent, n.children)

theorem ParseTree.shape_rename (r : Renaming) (t : ParseTree) : (t.rename r).shape = t.shape := by
  simp [shape, toList_rename, Function.comp_def, Node.rename]

namespace Renaming

/-- Whether it is the same to rename what a stage is given and to rename what comes of it. -/
structure Commutes (r : Renaming) : Prop where
  validate (d : Declaration) :
    (d.rename r).validate = (d.validate.map (·.rename r)).mapError (·.rename r)
  checkStructure (s : Signature) (tokens : List Symbol) :
    checkStructure (s.rename r) (tokens.map r) =
      (checkStructure s tokens).mapError (·.rename r)
  parse (a : Alphabet) (limit : Nat) (tokens : List Symbol) :
    (parse (a.rename r) limit (tokens.map r)).mapError ParseError.unworded =
      ((parse a limit tokens).map (·.rename r)).mapError fun e => (e.rename r).unworded

/-- Whether a renaming changes no verdict and no tree but for its labels. -/
structure Harmless (r : Renaming) : Prop where
  validate (d : Declaration) : (d.rename r).validate.isOk = d.validate.isOk
  checkStructure (s : Signature) (tokens : List Symbol) :
    (checkStructure (s.rename r) (tokens.map r)).isOk = (checkStructure s tokens).isOk
  parse (a : Alphabet) (limit : Nat) (tokens : List Symbol) :
    (parse (a.rename r) limit (tokens.map r)).toOption.map ParseTree.shape =
      (parse a limit tokens).toOption.map ParseTree.shape

variable {r : Renaming}

theorem Commutes.harmless (h : r.Commutes) : r.Harmless where
  validate d := by
    rw [h.validate]
    cases d.validate <;> rfl
  checkStructure s tokens := by
    rw [h.checkStructure]
    cases Formulary.checkStructure s tokens <;> rfl
  parse a limit tokens := by
    have hwording (result : Except ParseError ParseTree) :
        result.toOption = (result.mapError ParseError.unworded).toOption := by
      cases result <;> rfl
    rw [hwording, h.parse]
    cases Formulary.parse a limit tokens with
    | error e => rfl
    | ok tree => exact congrArg some (tree.shape_rename r)

/-- How symbols are spelled is of no consequence; so it is of none that backslashes are doubled. -/
theorem commutes (r : Renaming) :
    r.Commutes ∧ doubling.Harmless ∧ ∀ text, doubling ⟨text⟩ = Symbol.ofText text := by
  have hcommutes (r : Renaming) : r.Commutes :=
    ⟨Declaration.validate_rename r, checkStructure_rename r, parse_rename r⟩
  exact ⟨hcommutes r, (hcommutes doubling).harmless, doubling_apply⟩

end Renaming

end Formulary
