import Formulary.Definition
import Formulary.Proofs.Alphabet.Legal
import Formulary.Proofs.Text.Plain
import Formulary.Proofs.Text.Words
import Formulary.Proofs.Token.Munch

/-!
Spelling. A definition keeps every symbol it reads with its backslashes doubled, so no two of its
symbols are shown alike. What is shown of a symbol has no blank in it, so a symbol can be written
in a formula, unless there are marks in its spelling or the spelling is empty.
-/

namespace Formulary

open Text

namespace Symbol

variable {s t : Symbol}

/-- Whether a symbol is the one that is read where it is shown. -/
def Canonical (s : Symbol) : Prop := ofText s.shown = s

theorem canonical_ofText (text : String) : (ofText text).Canonical := by
  rw [Canonical, shown_ofText]

theorem Canonical.eq_of_shown (hs : s.Canonical) (ht : t.Canonical) (h : s.shown = t.shown) :
    s = t :=
  calc
    s = ofText s.shown := hs.symm
    _ = ofText t.shown := by rw [h]
    _ = t := ht

theorem canonical_of_mem_punctuation (h : t ∈ punctuation) : t.Canonical := by
  simp only [punctuation, List.mem_cons, List.not_mem_nil, or_false] at h
  rcases h with rfl | rfl | rfl
  · exact canonical_ofText "("
  · exact canonical_ofText ")"
  · exact canonical_ofText ","

/-- Whether a symbol can be told from what is shown where it stands: no other symbol is shown so,
and there is no blank in it. -/
structure Legible (s : Symbol) : Prop where
  canonical : s.Canonical
  unbroken : ∀ c ∈ s.shown.toList, isBlank c = false

theorem legible_ofText {w : List Char} (h : ∀ c ∈ w, isBlank c = false) :
    (ofText (String.ofList w)).Legible := by
  refine ⟨canonical_ofText _, fun c hc => h c ?_⟩
  rwa [shown_ofText, String.toList_ofList] at hc

theorem legible_of_mem_punctuation (h : t ∈ punctuation) : t.Legible := by
  refine ⟨canonical_of_mem_punctuation h, ?_⟩
  have hany : ∀ t ∈ punctuation, t.shown.toList.any isBlank = false := by decide
  exact not_blank_of_any (hany t h)

end Symbol

theorem subset_of_cut? {c : Char} {cs head tail : List Char} (h : cut? c cs = some (head, tail)) :
    head ⊆ cs ∧ tail ⊆ cs := by
  unfold cut? at h
  split at h
  · cases h
  · next d rest hdrop =>
    cases h
    have hsuffix : d :: tail ⊆ cs := hdrop ▸ (List.dropWhile_suffix _).subset
    exact ⟨(List.takeWhile_prefix _).subset,
      List.Subset.trans (List.subset_cons_self d tail) hsuffix⟩

/-- The symbol and the arity of a predicate are spelled with characters of the word from which it
is read. -/
theorem PredicateDecl.ofWord_eq (w : List Char) :
    ∃ name arity, name ⊆ w ∧ arity ⊆ w ∧
      ofWord w = ⟨.ofText (String.ofList name), String.ofList arity⟩ := by
  unfold ofWord
  split
  · exact ⟨w, [], List.Subset.refl w, List.nil_subset w, rfl⟩
  · next head tail hopen =>
    obtain ⟨hhead, htail⟩ := subset_of_cut? hopen
    split
    · exact ⟨head, tail, hhead, htail, rfl⟩
    · next arity rest hclose =>
      obtain ⟨harity, hrest⟩ := subset_of_cut? hclose
      have hname : head ++ rest ⊆ w := List.append_subset.2 ⟨hhead, List.Subset.trans hrest htail⟩
      exact ⟨head ++ rest, arity, hname, List.Subset.trans harity htail, rfl⟩

namespace Definition

variable {t : Symbol}

/-- What a section gathers was read from the content of a line. -/
theorem exists_of_mem_gather {α : Type} {read : List Char → List α} {s : Section}
    {lines : List Placed} {x : α} (h : x ∈ gather read s lines) :
    ∃ content, x ∈ read content := by
  obtain ⟨l, -, hx⟩ := List.mem_flatMap.1 h
  split at hx
  · exact ⟨l.content, hx⟩
  · cases hx

theorem legible_of_mem_formula (text : String) (h : t ∈ (ofText text).formula) : t.Legible := by
  obtain ⟨content, ht⟩ := exists_of_mem_gather h
  obtain ⟨w, hw, rfl⟩ := List.mem_map.1 ht
  obtain ⟨token, htoken, rfl⟩ := List.mem_map.1 hw
  exact Symbol.legible_ofText (Token.not_blank_of_mem_scan htoken)

theorem canonical_of_mem_formula (text : String) (h : t ∈ (ofText text).formula) :
    t.Canonical :=
  (legible_of_mem_formula text h).canonical

/-- The symbols that a section of words gathers are spelled without blanks, and none is empty. -/
theorem exists_word_of_mem_gather {s : Section} {lines : List Placed}
    (h : t ∈ gather symbolsOf s lines) :
    ∃ w : List Char, t = .ofText (String.ofList w) ∧ (∀ c ∈ w, isBlank c = false) ∧ w ≠ [] := by
  obtain ⟨content, hmem⟩ := exists_of_mem_gather h
  obtain ⟨w, hw, rfl⟩ := List.mem_map.1 hmem
  exact ⟨w, rfl, not_blank_of_mem_words hw, ne_nil_of_mem_words hw⟩

/-- A declared symbol is spelled without blanks, and with at least one character unless it is a
predicate symbol. -/
theorem exists_spelling (text : String) {k : SymbolClass}
    (h : t ∈ (ofText text).declaration.members k) :
    ∃ w : List Char, t = .ofText (String.ofList w) ∧ (∀ c ∈ w, isBlank c = false) ∧
      (w = [] → k = .predicate) := by
  cases k with
  | predicate =>
    obtain ⟨p, hp, rfl⟩ := List.mem_map.1 h
    obtain ⟨content, hmem⟩ := exists_of_mem_gather hp
    obtain ⟨w, hw, rfl⟩ := List.mem_map.1 hmem
    obtain ⟨name, arity, hname, -, heq⟩ := PredicateDecl.ofWord_eq w
    exact ⟨name, by rw [heq], fun c hc => not_blank_of_mem_words hw c (hname hc), fun _ => rfl⟩
  | var | constant | equality | connective | quantifier =>
    obtain ⟨w, hw, hblank, hne⟩ := exists_word_of_mem_gather h
    exact ⟨w, hw, hblank, fun hnil => absurd hnil hne⟩

/-- The symbols of an alphabet that a text declares are shown as they are read. -/
theorem legible_of_mem_symbols {text : String} {a : Alphabet}
    (h : (ofText text).declaration.validate = .ok a) (ht : t ∈ a.symbols) : t.Legible := by
  obtain ⟨hs, -⟩ := Declaration.validate_eq_ok_iff.1 h
  obtain ⟨k, hk⟩ := (a.mem_symbols_iff t).1 ht
  rw [Declaration.members_eq hs] at hk
  obtain ⟨w, rfl, hblank, -⟩ := exists_spelling text hk
  exact Symbol.legible_ofText hblank

theorem canonical_of_mem_symbols {text : String} {a : Alphabet}
    (h : (ofText text).declaration.validate = .ok a) (ht : t ∈ a.symbols) : t.Canonical :=
  (legible_of_mem_symbols h ht).canonical

/-- A declared symbol whose spelling has no marks is read as one token where it is written, and as
the symbol it is. Only predicate symbols can have an empty spelling, which is no token. -/
theorem tokenize_shown (text : String) {k : SymbolClass}
    (h : t ∈ (ofText text).declaration.members k)
    (hmarks : '(' ∉ t.shown.toList ∧ ')' ∉ t.shown.toList ∧ ',' ∉ t.shown.toList) :
    (t.shown ≠ "" → tokenize t.shown = [t.shown]) ∧ (t.shown = "" → k = .predicate) ∧
      .ofText t.shown = t := by
  obtain ⟨w, rfl, hblank, hnil⟩ := exists_spelling text h
  rw [Symbol.shown_ofText, String.toList_ofList] at hmarks
  obtain ⟨hopen, hclose, hcomma⟩ := hmarks
  rw [Symbol.shown_ofText]
  refine ⟨fun hne => tokenize_word ⟨?_, fun c hc => ⟨hblank c hc, ?_⟩⟩, fun hempty => ?_, rfl⟩
  · rintro rfl
    exact hne rfl
  · exact ⟨ne_of_mem_of_not_mem hc hopen, ne_of_mem_of_not_mem hc hclose,
      ne_of_mem_of_not_mem hc hcomma⟩
  · exact hnil (by simpa using congrArg String.toList hempty)

/-- The symbol that is declared by `P[1]\x` can be written in a formula. -/
theorem tokenize_shown_sample :
    (⟨"P\\\\x"⟩ : Symbol) ∈ (ofText "predicates: P[1]\\x").declaration.members .predicate ∧
      tokenize (Symbol.shown ⟨"P\\\\x"⟩) = ["P\\x"] := by
  have hmem : (⟨"P\\\\x"⟩ : Symbol) ∈
      (ofText "predicates: P[1]\\x").declaration.members .predicate := by decide
  exact ⟨hmem, (tokenize_shown _ hmem (by decide)).1 (by decide)⟩

/-- Where nothing but an arity is declared, the predicate symbol has an empty spelling, which no
formula can have as a token. -/
theorem tokenize_shown_empty :
    ¬ ∀ (text : String) (k : SymbolClass), ∀ t ∈ (ofText text).declaration.members k,
      '(' ∉ t.shown.toList ∧ ')' ∉ t.shown.toList ∧ ',' ∉ t.shown.toList →
        tokenize t.shown = [t.shown] ∧ .ofText t.shown = t := by
  intro h
  have hmem : (⟨""⟩ : Symbol) ∈ (ofText "predicates: [1]").declaration.members .predicate := by
    decide
  have htokens := (h "predicates: [1]" .predicate ⟨""⟩ hmem (by decide)).1
  exact absurd htokens (by decide)

end Definition

end Formulary
