import Formulary.Definition
import Formulary.Proofs.Text.Words
import Formulary.Proofs.Token.Munch
import Mathlib.Data.List.Infix

/-!
Definition files in writing. A draft is what a file has to say in each of its sections; written out
in lines it is read back as the definition that says the same.
-/

namespace Formulary

open Text

/-- Words for each section, and a formula on one line. A predicate is a symbol with its arity, of
which the symbol has no opening bracket and the arity no closing one. -/
structure Draft where
  vars : List String
  constants : List String
  predicates : List (String × String)
  equality : List String
  connectives : List String
  quantifiers : List String
  formula : String
  spelled : ∀ w ∈ vars ++ constants ++ equality ++ connectives ++ quantifiers,
    w ≠ "" ∧ ∀ c ∈ w.toList, isBlank c = false
  symbols : ∀ p ∈ predicates, ∀ c ∈ p.1.toList, isBlank c = false ∧ c ≠ '['
  arities : ∀ p ∈ predicates, ∀ c ∈ p.2.toList, isBlank c = false ∧ c ≠ ']'
  unbroken : '\n' ∉ formula.toList

namespace Draft

/-- A predicate as it is written. -/
def bracketed (p : String × String) : String := p.1 ++ "[" ++ p.2 ++ "]"

def content (d : Draft) : Section → String
  | .vars => " ".intercalate d.vars
  | .constants => " ".intercalate d.constants
  | .predicates => " ".intercalate (d.predicates.map bracketed)
  | .equality => " ".intercalate d.equality
  | .connectives => " ".intercalate d.connectives
  | .quantifiers => " ".intercalate d.quantifiers
  | .formula => d.formula

def line (d : Draft) (s : Section) : String := s.label ++ " " ++ d.content s

/-- The seven lines of a draft; a line feed behind the last one may be left out. -/
def text (d : Draft) (ended : Bool) : String :=
  "\n".intercalate (Section.all.map d.line) ++ if ended then "\n" else ""

def definition (d : Draft) : Definition where
  declaration := {
    vars := d.vars.map .ofText
    constants := d.constants.map .ofText
    predicates := d.predicates.map fun p => ⟨.ofText p.1, p.2⟩
    equality := d.equality.map .ofText
    connectives := d.connectives.map .ofText
    quantifiers := d.quantifiers.map .ofText
  }
  formula := (tokenize d.formula).map .ofText

end Draft

/-! Labels. -/

/-- No label is the beginning of another. -/
theorem Section.eq_of_label {s t : Section} (h : s.label.toList <+: t.label.toList) : s = t := by
  cases s <;> cases t <;> first | rfl | exact absurd h (by decide)

theorem Section.strip?_label (s t : Section) (rest : List Char) :
    s.strip? (t.label.toList ++ rest) = if s = t then some rest else none := by
  unfold strip?
  split_ifs with hprefix heq heq
  · rw [heq, ← String.length_toList, List.drop_left]
  · have hs : s.label.toList <+: t.label.toList ++ rest := List.isPrefixOf_iff_prefix.1 hprefix
    have ht : t.label.toList <+: t.label.toList ++ rest := List.prefix_append _ rest
    rcases List.prefix_or_prefix_of_prefix hs ht with h | h
    · exact absurd (eq_of_label h) heq
    · exact absurd (eq_of_label h).symm heq
  · subst heq
    exact absurd (List.isPrefixOf_iff_prefix.2 (List.prefix_append _ rest)) hprefix
  · rfl

/-- A line that begins with a label opens its section, whatever follows. -/
theorem Line.classify_label (s : Section) (rest : List Char) :
    classify (s.label.toList ++ rest) = .header s rest := by
  have htrim : trimLeft (s.label.toList ++ rest) = s.label.toList ++ rest := by
    cases s <;> rfl
  rw [classify, htrim]
  simp only [Section.strip?_label]
  cases s <;> rfl

theorem place_labels (current : Option Section) (ss : List Section) (rest : Section → List Char) :
    place current (ss.map fun s => s.label.toList ++ rest s) =
      ss.map fun s => ⟨some s, rest s⟩ := by
  induction ss generalizing current with
  | nil => rfl
  | cons s ss ih =>
    rw [List.map_cons, place, Line.classify_label, List.map_cons, ← ih (some s)]
    rfl

/-- Where every section is opened once, it gathers what follows its label. -/
theorem Definition.gather_all {α : Type} (read : List Char → List α) (s : Section)
    (rest : Section → List Char) :
    gather read s (Section.all.map fun s => ⟨some s, rest s⟩) = read (rest s) := by
  cases s <;> simp [gather, Section.all]

/-! Contents. -/

/-- Whether texts have the same words and the same tokens. -/
structure Alike (cs ds : List Char) : Prop where
  words : words cs = words ds
  tokens : tokenize (String.ofList cs) = tokenize (String.ofList ds)

theorem Alike.space_cons (cs : List Char) : Alike (' ' :: cs) cs where
  words := words_blank (by decide) cs
  tokens := tokenize_blank_cons (by decide) cs

theorem Alike.withoutReturn {cs ds : List Char} (h : Alike cs ds) :
    Alike (withoutReturn cs) ds where
  words := by rw [words_withoutReturn, h.words]
  tokens := by
    obtain ⟨tail, hcs, rfl | rfl⟩ := eq_withoutReturn_append cs
    · rw [List.append_nil] at hcs
      rw [← hcs, h.tokens]
    · rw [← h.tokens, hcs, tokenize_append_blank (by decide), tokenize_nil, List.append_nil, ← hcs]

theorem cut?_append {c : Char} {xs : List Char} (h : c ∉ xs) (ys : List Char) :
    cut? c (xs ++ c :: ys) = some (xs, ys) := by
  have hne : ∀ d ∈ xs, decide (d ≠ c) = true := by
    intro d hd
    exact decide_eq_true fun heq => h (heq ▸ hd)
  rw [cut?, List.dropWhile_append_of_pos hne, List.takeWhile_append_of_pos hne]
  simp

/-- A predicate is read as it was written. -/
theorem PredicateDecl.ofWord_bracketed {p : String × String} (hsymbol : '[' ∉ p.1.toList)
    (harity : ']' ∉ p.2.toList) : ofWord (Draft.bracketed p).toList = ⟨.ofText p.1, p.2⟩ := by
  have htext : (Draft.bracketed p).toList = p.1.toList ++ '[' :: (p.2.toList ++ ']' :: []) := by
    simp [Draft.bracketed]
  rw [ofWord, htext, cut?_append hsymbol]
  simp [cut?_append harity]

namespace Draft

variable (d : Draft)

theorem isWord_bracketed {p : String × String} (hp : p ∈ d.predicates) :
    bracketed p ≠ "" ∧ ∀ c ∈ (bracketed p).toList, isBlank c = false := by
  refine ⟨by simp [bracketed], ?_⟩
  intro c hc
  simp only [bracketed, String.toList_append, List.mem_append] at hc
  rcases hc with ((hc | hc) | hc) | hc
  · exact (d.symbols p hp c hc).1
  · obtain rfl : c = '[' := by simpa using hc
    decide
  · exact (d.arities p hp c hc).1
  · obtain rfl : c = ']' := by simpa using hc
    decide

end Draft

theorem words_toList_intercalate {ws : List String}
    (h : ∀ w ∈ ws, w ≠ "" ∧ ∀ c ∈ w.toList, isBlank c = false) :
    words (" ".intercalate ws).toList = ws.map String.toList := by
  have hspace : " ".toList = [' '] := rfl
  rw [String.toList_intercalate, hspace]
  refine words_intercalate ?_
  rintro _ hw
  obtain ⟨w, hmem, rfl⟩ := List.mem_map.1 hw
  exact ⟨by simpa using (h w hmem).1, (h w hmem).2⟩

theorem lineFeed_not_mem_intercalate {ws : List String}
    (h : ∀ w ∈ ws, w ≠ "" ∧ ∀ c ∈ w.toList, isBlank c = false) :
    '\n' ∉ (" ".intercalate ws).toList := by
  induction ws with
  | nil => simp
  | cons w ws ih =>
    obtain ⟨⟨-, hw⟩, hws⟩ := List.forall_mem_cons.1 h
    have hnot : '\n' ∉ w.toList := fun hmem => absurd (hw _ hmem) (by decide)
    cases ws with
    | nil => simpa using hnot
    | cons v ws =>
      simp only [String.intercalate_cons_cons, String.toList_append, List.mem_append, not_or]
      exact ⟨⟨hnot, by decide⟩, ih hws⟩

namespace Draft

variable (d : Draft)

theorem lineFeed_not_mem_line (s : Section) : '\n' ∉ (d.line s).toList := by
  have hspelled := d.spelled
  simp only [List.forall_mem_append] at hspelled
  have hcontent : '\n' ∉ (d.content s).toList := by
    cases s with
    | vars => exact lineFeed_not_mem_intercalate hspelled.1.1.1.1
    | constants => exact lineFeed_not_mem_intercalate hspelled.1.1.1.2
    | predicates =>
      refine lineFeed_not_mem_intercalate ?_
      rintro _ hw
      obtain ⟨p, hp, rfl⟩ := List.mem_map.1 hw
      exact d.isWord_bracketed hp
    | equality => exact lineFeed_not_mem_intercalate hspelled.1.1.2
    | connectives => exact lineFeed_not_mem_intercalate hspelled.1.2
    | quantifiers => exact lineFeed_not_mem_intercalate hspelled.2
    | formula => exact d.unbroken
  have hlabel : '\n' ∉ s.label.toList := by cases s <;> decide
  simp only [line, String.toList_append, List.mem_append, not_or]
  exact ⟨⟨hlabel, by decide⟩, hcontent⟩

theorem toList_line (s : Section) :
    (d.line s).toList = s.label.toList ++ ' ' :: (d.content s).toList := by
  simp [line]

theorem withoutReturn_line (s : Section) :
    withoutReturn (d.line s).toList =
      s.label.toList ++ withoutReturn (' ' :: (d.content s).toList) := by
  rw [toList_line, withoutReturn_append (List.cons_ne_nil _ _)]

/-- Every line of the text is a label with what the draft has to say behind it, up to blanks. If no
line feed ends the last line, nothing is taken off it. -/
theorem exists_lines (ended : Bool) :
    ∃ rest : Section → List Char,
      lines (d.text ended).toList = Section.all.map (fun s => s.label.toList ++ rest s) ∧
        ∀ s, Alike (rest s) (d.content s).toList := by
  have halike (s : Section) : Alike (' ' :: (d.content s).toList) (d.content s).toList :=
    .space_cons _
  have hnot (ss : List Section) : ∀ l ∈ ss.map fun s => (d.line s).toList, '\n' ∉ l := by
    rintro _ hl
    obtain ⟨s, -, rfl⟩ := List.mem_map.1 hl
    exact d.lineFeed_not_mem_line s
  cases ended with
  | true =>
    refine ⟨fun s => withoutReturn (' ' :: (d.content s).toList), ?_, ?_⟩
    · have htext : (d.text true).toList =
          (Section.all.map fun s => (d.line s).toList).flatMap (· ++ ['\n']) ++ [] := by
        simp [text, Section.all]
      rw [htext, lines_flatMap_append (hnot _), lines, List.append_nil, List.map_map]
      exact List.map_congr_left fun s _ => d.withoutReturn_line s
    · exact fun s => (halike s).withoutReturn
  | false =>
    refine ⟨fun s => if s = .formula then ' ' :: (d.content s).toList
      else withoutReturn (' ' :: (d.content s).toList), ?_, ?_⟩
    · have htext : (d.text false).toList =
          (Section.all.dropLast.map fun s => (d.line s).toList).flatMap (· ++ ['\n']) ++
            (d.line .formula).toList := by
        simp [text, Section.all]
      have hne : (d.line .formula).toList ≠ [] := by simp [toList_line]
      rw [htext, lines_flatMap_append (hnot _),
        lines_of_not_mem (d.lineFeed_not_mem_line .formula) hne]
      simpa [Section.all, withoutReturn_line] using d.toList_line .formula
    · intro s
      dsimp only
      split
      · exact halike s
      · exact (halike s).withoutReturn

/-- Words that are written with spaces between them are read as symbols. -/
theorem symbolsOf_eq {content : List Char} {ws : List String}
    (h : Alike content (" ".intercalate ws).toList)
    (hws : ∀ w ∈ ws, w ≠ "" ∧ ∀ c ∈ w.toList, isBlank c = false) :
    Definition.symbolsOf content = ws.map .ofText := by
  rw [Definition.symbolsOf, h.words, words_toList_intercalate hws, List.map_map]
  simp [Function.comp_def]

theorem predicatesOf_eq {content : List Char} (h : Alike content (d.content .predicates).toList) :
    Definition.predicatesOf content = d.predicates.map fun p => ⟨.ofText p.1, p.2⟩ := by
  have hws : ∀ w ∈ d.predicates.map bracketed, w ≠ "" ∧ ∀ c ∈ w.toList, isBlank c = false := by
    rintro _ hw
    obtain ⟨p, hp, rfl⟩ := List.mem_map.1 hw
    exact d.isWord_bracketed hp
  have hwords : words content = (d.predicates.map bracketed).map String.toList := by
    rw [h.words, Draft.content, words_toList_intercalate hws]
  rw [Definition.predicatesOf, hwords, List.map_map, List.map_map]
  refine List.map_congr_left fun p hp => PredicateDecl.ofWord_bracketed ?_ ?_
  · exact fun hmem => (d.symbols p hp _ hmem).2 rfl
  · exact fun hmem => (d.arities p hp _ hmem).2 rfl

/-- A definition file that is written out is read back. -/
theorem ofText_text (ended : Bool) : Definition.ofText (d.text ended) = d.definition := by
  obtain ⟨rest, hlines, halike⟩ := d.exists_lines ended
  have hspelled := d.spelled
  simp only [List.forall_mem_append] at hspelled
  have hplaced : Definition.placed (linesOf (d.text ended)) =
      Section.all.map fun s => ⟨some s, rest s⟩ := by
    rw [Definition.placed, linesOf, hlines, ← place_labels none Section.all rest]
    simp [Function.comp_def]
  have hformula : Definition.formulaOf (rest .formula) = (tokenize d.formula).map .ofText := by
    rw [Definition.formulaOf, (halike .formula).tokens, String.ofList_toList]
    rfl
  rw [Definition.ofText, Definition.ofLines, hplaced, Definition.ofPlaced, definition]
  simp only [Definition.gather_all, hformula, d.predicatesOf_eq (halike .predicates),
    symbolsOf_eq (halike .vars) hspelled.1.1.1.1, symbolsOf_eq (halike .constants) hspelled.1.1.1.2,
    symbolsOf_eq (halike .equality) hspelled.1.1.2, symbolsOf_eq (halike .connectives) hspelled.1.2,
    symbolsOf_eq (halike .quantifiers) hspelled.2]

/-- A draft with labels, brackets and backslashes in its words. -/
def sample : Draft where
  vars := ["x", "constants:", "\\y"]
  constants := []
  predicates := [("P]", "1"), ("R", "[2")]
  equality := ["="]
  connectives := ["and", "or", "if", "iff", "not"]
  quantifiers := ["all", "some"]
  formula := "P](\\y) "
  spelled := by simp [isBlank, blankRanges]
  symbols := by simp [isBlank, blankRanges]
  arities := by simp [isBlank, blankRanges]
  unbroken := by decide

example : sample.line .vars = "variables: x constants: \\y" := by decide

example : sample.line .predicates = "predicates: P][1] R[[2]" := by decide

end Draft

end Formulary
