import Formulary.Definition
import Formulary.Proofs.Text.Words
import Formulary.Proofs.Token.Munch
import Mathlib.Data.List.Infix

/-!
Layout of a definition. What a header leads is read on its own, so that blocks of lines can change
places as long as those of one section keep their order; and it does not matter where a line is
broken, if what is broken off does not open a section.
-/

namespace Formulary

open Text

/-- Whether a line opens a section. -/
def Section.Heads (s : Section) (line : String) : Prop :=
  ∃ rest, Line.classify line.toList = .header s rest

/-- Whether a line goes on with the section it stands in. -/
def Continues (line : String) : Prop :=
  Line.classify line.toList = .continuation line.toList

theorem heads_or_continues (line : String) :
    (∃ s : Section, s.Heads line) ∨ Continues line := by
  unfold Section.Heads Continues Line.classify
  split
  · next owner rest _ => exact .inl ⟨owner, rest, rfl⟩
  · exact .inr rfl

/-- Whether the first of some lines, if there is any, opens a section. -/
def Headed (lines : List String) : Prop := ∀ line ∈ lines.head?, ∃ s : Section, s.Heads line

/-- A line that opens a section, and lines that go on with it. -/
structure Block where
  owner : Section
  first : String
  more : List String
  heads : owner.Heads first
  continues : ∀ line ∈ more, Continues line

def Block.lines (b : Block) : List String := b.first :: b.more

namespace Definition

/-- What two definitions say, class by class. -/
def append (d e : Definition) : Definition where
  declaration := {
    vars := d.declaration.vars ++ e.declaration.vars
    constants := d.declaration.constants ++ e.declaration.constants
    predicates := d.declaration.predicates ++ e.declaration.predicates
    equality := d.declaration.equality ++ e.declaration.equality
    connectives := d.declaration.connectives ++ e.declaration.connectives
    quantifiers := d.declaration.quantifiers ++ e.declaration.quantifiers
  }
  formula := d.formula ++ e.formula

instance : Append Definition := ⟨append⟩

end Definition

/-! Lines one after another. -/

/-- The section that is open after some lines. -/
def openAfter (current : Option Section) (lines : List (List Char)) : Option Section :=
  lines.foldl (fun open? cs => (Line.classify cs).owner open?) current

theorem place_append (current : Option Section) (l₁ l₂ : List (List Char)) :
    place current (l₁ ++ l₂) = place current l₁ ++ place (openAfter current l₁) l₂ := by
  induction l₁ generalizing current with
  | nil => rfl
  | cons cs l₁ ih =>
    rw [List.cons_append, place, place, List.cons_append, ih]
    rfl

/-- What was open before a header is of no account. -/
theorem place_of_headed {lines : List String} (h : Headed lines)
    (current current' : Option Section) :
    place current (lines.map String.toList) = place current' (lines.map String.toList) := by
  cases lines with
  | nil => rfl
  | cons line lines =>
    obtain ⟨s, rest, hline⟩ := h line rfl
    simp only [List.map_cons, place, hline, Line.owner]

namespace Definition

theorem gather_append {α : Type} (read : List Char → List α) (s : Section) (l₁ l₂ : List Placed) :
    gather read s (l₁ ++ l₂) = gather read s l₁ ++ gather read s l₂ :=
  List.flatMap_append

theorem ofPlaced_append (l₁ l₂ : List Placed) :
    ofPlaced (l₁ ++ l₂) = ofPlaced l₁ ++ ofPlaced l₂ := by
  simp only [ofPlaced, gather_append]
  rfl

/-- Lines and what a header leads after them are read apart. -/
theorem ofLines_append {l₂ : List String} (h : Headed l₂) (l₁ : List String) :
    ofLines (l₁ ++ l₂) = ofLines l₁ ++ ofLines l₂ := by
  rw [ofLines, placed, List.map_append, place_append, place_of_headed h _ none, ofPlaced_append]
  rfl

end Definition

/-! Blocks. -/

theorem place_of_continues {lines : List String} (h : ∀ line ∈ lines, Continues line)
    (current : Option Section) :
    place current (lines.map String.toList) = lines.map fun line => ⟨current, line.toList⟩ := by
  induction lines with
  | nil => rfl
  | cons line lines ih =>
    obtain ⟨hline, hlines⟩ := List.forall_mem_cons.1 h
    rw [List.map_cons, place, hline, List.map_cons]
    exact congrArg _ (ih hlines)

namespace Block

variable {b : Block}

theorem headed_flatMap_lines (blocks : List Block) : Headed (blocks.flatMap lines) := by
  cases blocks with
  | nil => rintro line ⟨⟩
  | cons b blocks =>
    rintro line ⟨⟩
    exact ⟨b.owner, b.heads⟩

/-- Lines are in blocks, but for those that come before the first header. -/
theorem exists_blocks (text : List String) :
    ∃ (stray : List String) (blocks : List Block),
      (∀ line ∈ stray, Continues line) ∧ text = stray ++ blocks.flatMap lines := by
  induction text with
  | nil => exact ⟨[], [], by simp, rfl⟩
  | cons line text ih =>
    obtain ⟨stray, blocks, hstray, rfl⟩ := ih
    rcases heads_or_continues line with ⟨s, hline⟩ | hline
    · exact ⟨[], ⟨s, line, stray, hline, hstray⟩ :: blocks, by simp, by simp [lines]⟩
    · exact ⟨line :: stray, blocks, List.forall_mem_cons.2 ⟨hline, hstray⟩, rfl⟩

/-- All that a block says, it says in its own section. -/
theorem owner_of_mem_placed {l : Placed} (h : l ∈ Definition.placed b.lines) :
    l.owner = some b.owner := by
  obtain ⟨rest, hfirst⟩ := b.heads
  rw [Definition.placed, lines, List.map_cons, place, hfirst, Line.owner,
    place_of_continues b.continues] at h
  rcases List.mem_cons.1 h with rfl | h
  · rfl
  · obtain ⟨line, -, rfl⟩ := List.mem_map.1 h
    rfl

theorem gather_eq_nil {α : Type} (read : List Char → List α) {s : Section} (h : b.owner ≠ s) :
    Definition.gather read s (Definition.placed b.lines) = [] := by
  refine List.flatMap_eq_nil_iff.2 fun l hl => if_neg ?_
  rw [owner_of_mem_placed hl]
  exact fun heq => h (Option.some.inj heq)

/-- Where blocks belong to different sections, at most one is of a given section. -/
theorem filter_eq_of_perm {blocks blocks' : List Block} (h : blocks.Perm blocks')
    (hapart : blocks.Pairwise (·.owner ≠ ·.owner)) (s : Section) :
    blocks.filter (·.owner = s) = blocks'.filter (·.owner = s) := by
  have hperm := h.filter (·.owner = s)
  have howner : ∀ b ∈ blocks.filter (·.owner = s), b.owner = s := by simp
  have hfilter := hapart.filter (·.owner = s)
  generalize blocks.filter (·.owner = s) = own at hperm howner hfilter ⊢
  rcases own with _ | ⟨b, _ | ⟨c, more⟩⟩
  · exact hperm.nil_eq
  · exact List.singleton_perm.1 hperm
  · have hne : b.owner ≠ c.owner := List.rel_of_pairwise_cons hfilter List.mem_cons_self
    exact absurd ((howner b (by simp)).trans (howner c (by simp)).symm) hne

end Block

namespace Definition

theorem placed_blocks (blocks : List Block) :
    placed (blocks.flatMap Block.lines) = blocks.flatMap fun b => placed b.lines := by
  induction blocks with
  | nil => rfl
  | cons b blocks ih =>
    have hheaded := Block.headed_flatMap_lines blocks
    rw [List.flatMap_cons, placed, List.map_append, place_append, place_of_headed hheaded _ none,
      List.flatMap_cons, ← ih]
    rfl

/-- A section gathers from the blocks that are its own. -/
theorem gather_blocks {α : Type} (read : List Char → List α) (s : Section) (blocks : List Block) :
    gather read s (placed (blocks.flatMap Block.lines)) =
      (blocks.filter (·.owner = s)).flatMap fun b => gather read s (placed b.lines) := by
  rw [placed_blocks]
  induction blocks with
  | nil => rfl
  | cons b blocks ih =>
    rw [List.flatMap_cons, gather_append, ih]
    by_cases h : b.owner = s
    · rw [List.filter_cons, if_pos (decide_eq_true h), List.flatMap_cons]
    · rw [List.filter_cons, if_neg (by simpa using h), b.gather_eq_nil read h, List.nil_append]

/-- Blocks can be arranged in any way that keeps the order within each section. -/
theorem ofLines_blocks (l₁ : List String) {blocks blocks' : List Block}
    (h : ∀ s, blocks.filter (·.owner = s) = blocks'.filter (·.owner = s)) :
    ofLines (l₁ ++ blocks.flatMap Block.lines) = ofLines (l₁ ++ blocks'.flatMap Block.lines) := by
  have hblocks : ofLines (blocks.flatMap Block.lines) = ofLines (blocks'.flatMap Block.lines) := by
    simp only [ofLines, ofPlaced, gather_blocks, h]
  rw [ofLines_append (Block.headed_flatMap_lines _), hblocks,
    ← ofLines_append (Block.headed_flatMap_lines _)]

end Definition

/-! Lines that are broken, and blanks behind them. -/

namespace Section

variable (s : Section) {b : Char} {xs ys : List Char}

theorem label_ne_nil : s.label.toList ≠ [] := by cases s <;> decide

theorem blank_not_mem_label (hb : isBlank b = true) : b ∉ s.label.toList := by
  have hlabel : s.label.toList.all (! isBlank ·) = true := by cases s <;> decide
  intro h
  simpa [hb] using List.all_eq_true.1 hlabel b h

theorem strip?_nil : s.strip? [] = none := by
  rw [strip?, if_neg]
  exact fun h => s.label_ne_nil (List.prefix_nil.1 (List.isPrefixOf_iff_prefix.1 h))

/-- No label goes on behind a blank. -/
theorem prefix_append_blank_iff (hb : isBlank b = true) :
    s.label.toList <+: xs ++ b :: ys ↔ s.label.toList <+: xs := by
  refine ⟨fun h => ?_, fun h => h.trans (List.prefix_append xs _)⟩
  have hnot := s.blank_not_mem_label hb
  have hblank : xs ++ [b] <+: xs ++ b :: ys := ⟨ys, by simp⟩
  rcases List.prefix_or_prefix_of_prefix h hblank with hlabel | hlabel
  · rcases List.prefix_concat_iff.1 hlabel with heq | hlabel
    · exact absurd (heq ▸ List.mem_append_right xs List.mem_cons_self) hnot
    · exact hlabel
  · exact absurd (hlabel.mem (List.mem_append_right xs List.mem_cons_self)) hnot

theorem strip?_append_blank (hb : isBlank b = true) (xs ys : List Char) :
    s.strip? (xs ++ b :: ys) = (s.strip? xs).map (· ++ b :: ys) := by
  simp only [strip?, List.isPrefixOf_iff_prefix, s.prefix_append_blank_iff hb]
  split_ifs with h
  · rw [List.drop_append_of_le_length (String.length_toList ▸ h.length_le)]
    rfl
  · rfl

end Section

namespace Line

/-- A line with more behind it. -/
def extend (more : List Char) : Line → Line
  | .header s rest => .header s (rest ++ more)
  | .continuation content => .continuation (content ++ more)

theorem owner_extend (more : List Char) (current : Option Section) (line : Line) :
    (line.extend more).owner current = line.owner current := by
  cases line <;> rfl

theorem content_extend (more : List Char) (line : Line) :
    (line.extend more).content = line.content ++ more := by
  cases line <;> rfl

theorem extend_nil (line : Line) : line.extend [] = line := by
  cases line <;> simp [extend]

/-- The section that a text opens with its first characters, and what follows the label. -/
def opened? (cs : List Char) : Option (Section × List Char) :=
  Section.all.findSome? fun s => (s.strip? cs).map (s, ·)

variable {b : Char} {xs ys gap : List Char}

theorem opened?_nil : opened? [] = none := by
  simp [opened?, Section.strip?_nil]

theorem opened?_append_blank (hb : isBlank b = true) (xs ys : List Char) :
    opened? (xs ++ b :: ys) = (opened? xs).map fun p => (p.1, p.2 ++ b :: ys) := by
  simp only [opened?, Section.strip?_append_blank _ hb, List.map_findSome?, Option.map_map,
    Function.comp_def]

theorem classify_of_opened {s : Section} {rest : List Char}
    (h : opened? (trimLeft xs) = some (s, rest)) : classify xs = .header s rest := by
  rw [opened?] at h
  rw [classify, h]

theorem classify_of_not_opened (h : opened? (trimLeft xs) = none) :
    classify xs = .continuation xs := by
  rw [opened?] at h
  rw [classify, h]

theorem opened?_of_classify (h : classify xs = .continuation xs) :
    opened? (trimLeft xs) = none := by
  cases hopened : opened? (trimLeft xs) with
  | none => rfl
  | some p =>
    rw [classify_of_opened hopened] at h
    cases h

/-- What stands behind a blank makes no header of a line that is none, unless it is one itself. -/
theorem classify_append_blank (hb : isBlank b = true) (xs : List Char)
    (h : classify ys = .continuation ys) :
    classify (xs ++ b :: ys) = (classify xs).extend (b :: ys) := by
  have htrim : trimLeft (xs ++ b :: ys) =
      if (trimLeft xs).isEmpty then trimLeft (b :: ys) else trimLeft xs ++ b :: ys :=
    List.dropWhile_append
  by_cases hblank : trimLeft xs = []
  · have hjoined : opened? (trimLeft (xs ++ b :: ys)) = none := by
      rw [htrim, if_pos (by rw [hblank]; rfl), trimLeft, List.dropWhile_cons_of_pos hb]
      exact opened?_of_classify h
    rw [classify_of_not_opened hjoined, classify_of_not_opened (hblank ▸ opened?_nil), extend]
  · have hjoined : opened? (trimLeft (xs ++ b :: ys)) =
        (opened? (trimLeft xs)).map fun p => (p.1, p.2 ++ b :: ys) := by
      rw [htrim, if_neg (by simpa using hblank), opened?_append_blank hb]
    cases hopened : opened? (trimLeft xs) with
    | none =>
      rw [hopened] at hjoined
      rw [classify_of_not_opened hjoined, classify_of_not_opened hopened, extend]
    | some p =>
      rw [hopened] at hjoined
      rw [classify_of_opened hjoined, classify_of_opened hopened, extend]

/-- Blanks at the end of a line belong to its content and change nothing else. -/
theorem classify_append_blanks (hgap : ∀ c ∈ gap, isBlank c = true) (xs : List Char) :
    classify (xs ++ gap) = (classify xs).extend gap := by
  cases gap with
  | nil => rw [List.append_nil, extend_nil]
  | cons b gap =>
    obtain ⟨hb, hgap⟩ := List.forall_mem_cons.1 hgap
    have htrim : trimLeft gap = [] := List.dropWhile_eq_nil_iff.2 hgap
    exact classify_append_blank hb xs (classify_of_not_opened (htrim ▸ opened?_nil))

end Line

namespace Definition

variable {α : Type} {read : List Char → List α}

/-- Whether what stands on the two sides of a blank is read apart, and nothing where nothing is
written. -/
structure Parts (read : List Char → List α) : Prop where
  nil : read [] = []
  append : ∀ (b : Char) (xs ys : List Char), isBlank b = true →
    read (xs ++ b :: ys) = read xs ++ read ys

theorem parts_symbolsOf : Parts symbolsOf where
  nil := rfl
  append b xs ys hb := by simp only [symbolsOf, words_append_blank hb, List.map_append]

theorem parts_predicatesOf : Parts predicatesOf where
  nil := rfl
  append b xs ys hb := by simp only [predicatesOf, words_append_blank hb, List.map_append]

theorem parts_formulaOf : Parts formulaOf where
  nil := rfl
  append b xs ys hb := by simp only [formulaOf, tokenize_append_blank hb, List.map_append]

/-- Nothing is read from blanks at the end. -/
theorem Parts.append_blanks (h : Parts read) {gap : List Char}
    (hgap : ∀ c ∈ gap, isBlank c = true) (xs : List Char) : read (xs ++ gap) = read xs := by
  induction gap generalizing xs with
  | nil => rw [List.append_nil]
  | cons b gap ih =>
    obtain ⟨hb, hgap⟩ := List.forall_mem_cons.1 hgap
    have hnothing : read gap = [] := (ih hgap []).trans h.nil
    rw [h.append b xs gap hb, hnothing, List.append_nil]

/-- Lines say the same if whatever reads words or tokens gathers the same from them. -/
theorem ofPlaced_congr {lines lines' : List Placed}
    (h : ∀ {α : Type} {read : List Char → List α}, Parts read →
      ∀ s, gather read s lines = gather read s lines') : ofPlaced lines = ofPlaced lines' := by
  simp only [ofPlaced, h parts_symbolsOf, h parts_predicatesOf, h parts_formulaOf]

theorem gather_cons (s : Section) (l : Placed) (lines : List Placed) :
    gather read s (l :: lines) =
      (if l.owner = some s then read l.content else []) ++ gather read s lines :=
  List.flatMap_cons

/-- A line can be broken at a blank. -/
theorem Parts.gather_place_joined (hread : Parts read) (s : Section) (current : Option Section)
    {b : Char} (hb : isBlank b = true) (xs : List Char) {ys : List Char}
    (h : Line.classify ys = .continuation ys) (lines : List (List Char)) :
    gather read s (place current ((xs ++ b :: ys) :: lines)) =
      gather read s (place current (xs :: ys :: lines)) := by
  have hbroken (owner : Option Section) :
      place owner (ys :: lines) = ⟨owner, ys⟩ :: place owner lines := by
    rw [place, h]
    rfl
  rw [place, place, hbroken, Line.classify_append_blank hb xs h]
  simp only [gather_cons, Line.owner_extend, Line.content_extend, hread.append _ _ _ hb]
  split_ifs
  · rw [List.append_assoc]
  · rfl

theorem ofLines_joined (l₁ l₂ : List String) (a : String) {b : String} (h : Continues b) :
    ofLines (l₁ ++ (a ++ " " ++ b) :: l₂) = ofLines (l₁ ++ a :: b :: l₂) := by
  have hjoined : (a ++ " " ++ b).toList = a.toList ++ ' ' :: b.toList := by simp
  have hspace : isBlank ' ' = true := by decide
  refine ofPlaced_congr fun hread s => ?_
  simp only [placed, List.map_append, List.map_cons, place_append, gather_append, hjoined,
    hread.gather_place_joined s _ hspace _ h]

/-- The layout of a definition does not matter: what a header leads adds to what comes before it,
blocks can be arranged in any way that keeps the order within each section, those of different
sections freely, and a line can be broken at a space unless what follows opens a section. -/
theorem ofLines_layout :
    (∀ l₁ l₂, Headed l₂ → ofLines (l₁ ++ l₂) = ofLines l₁ ++ ofLines l₂) ∧
    (∀ l₁ (blocks blocks' : List Block),
      (∀ s, blocks.filter (·.owner = s) = blocks'.filter (·.owner = s)) →
        ofLines (l₁ ++ blocks.flatMap Block.lines) = ofLines (l₁ ++ blocks'.flatMap Block.lines)) ∧
    (∀ l₁ (blocks blocks' : List Block), blocks.Perm blocks' →
      blocks.Pairwise (·.owner ≠ ·.owner) →
        ofLines (l₁ ++ blocks.flatMap Block.lines) = ofLines (l₁ ++ blocks'.flatMap Block.lines)) ∧
    (∀ l, ∃ (stray : List String) (blocks : List Block),
      (∀ line ∈ stray, Continues line) ∧ l = stray ++ blocks.flatMap Block.lines) ∧
    ∀ l₁ a b l₂, Continues b →
      ofLines (l₁ ++ a :: b :: l₂) = ofLines (l₁ ++ (a ++ " " ++ b) :: l₂) := by
  refine ⟨fun l₁ l₂ h => ofLines_append h l₁, fun l₁ _ _ h => ofLines_blocks l₁ h,
    fun l₁ _ _ h hapart => ?_, Block.exists_blocks, fun l₁ a b l₂ h => ?_⟩
  · exact ofLines_blocks l₁ (Block.filter_eq_of_perm h hapart)
  · exact (ofLines_joined l₁ l₂ a h).symm

/-- A label that is broken off its colon opens nothing, on two lines or on one. Blocks of two
sections can change places, and what is loaded of both is what is loaded of each. -/
theorem ofLines_layout_sample :
    let declared : Block := ⟨.vars, "variables: x", [], ⟨_, rfl⟩, by simp⟩
    let formula : Block := ⟨.formula, "formula: x y", [], ⟨_, rfl⟩, by simp⟩
    let broken : Definition := ⟨{ vars := [⟨"x"⟩, ⟨"constants"⟩, ⟨":"⟩, ⟨"c"⟩] }, []⟩
    let both : Definition := ⟨{ vars := [⟨"x"⟩] }, [⟨"x"⟩, ⟨"y"⟩]⟩
    (Continues "constants" ∧ Continues ": c" ∧
      ofLines ["variables: x", "constants : c"] = broken ∧
      ofLines ["variables: x", "constants", ": c"] = broken) ∧
    ([formula, declared].Perm [declared, formula] ∧
      [formula, declared].Pairwise (·.owner ≠ ·.owner) ∧
      ofLines ["variables: x", "formula: x y"] = both ∧
      ofLines ["formula: x y", "variables: x"] = both) ∧
    Headed ["formula: x y"] ∧
      ofLines ["variables: x"] ++ ofLines ["formula: x y"] = both := by
  intro declared formula broken both
  have hbroken : ofLines ["variables: x", "constants : c"] = broken := by decide
  have hboth : ofLines ["variables: x", "formula: x y"] = both := by decide
  have hperm : [formula, declared].Perm [declared, formula] := .swap _ _ []
  have hapart : [formula, declared].Pairwise (·.owner ≠ ·.owner) := by decide
  have hheaded : Headed ["formula: x y"] := by
    rintro _ ⟨⟩
    exact ⟨.formula, _, rfl⟩
  obtain ⟨happend, -, hswap, -, hjoin⟩ := ofLines_layout
  refine ⟨⟨rfl, rfl, hbroken, ?_⟩, ⟨hperm, hapart, hboth, ?_⟩, hheaded, ?_⟩
  · exact (hjoin ["variables: x"] "constants" ": c" [] rfl).trans hbroken
  · exact (hswap [] _ _ hperm hapart).trans hboth
  · exact (happend ["variables: x"] ["formula: x y"] hheaded).symm.trans hboth

end Definition

end Formulary
