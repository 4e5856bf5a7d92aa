import Formulary.Proofs.Token.Munch
import Mathlib.Data.List.Chain

/-!
Tokens and their text. The tokens of a text stand in it one behind another with only blanks left
over, and a text that is written out from tokens has just these, however they are spaced.
-/

namespace Formulary

open Text (isBlank)

/-- Whether a token is what stands between two parts of a text: a mark, or a word that goes on in
neither part. -/
structure Token.Between (t : Token) (before after : List Char) : Prop where
  start : t.start = byteLength before
  lexical :
    (t.kind = .openParen ∧ t.spelling = ['(']) ∨ (t.kind = .closeParen ∧ t.spelling = [')']) ∨
      (t.kind = .comma ∧ t.spelling = [',']) ∨
        (t.kind = .word ∧ t.spelling ≠ [] ∧ (∀ c ∈ t.spelling, IsWordChar c) ∧
          (∀ c ∈ before.getLast?, ¬ IsWordChar c) ∧ ∀ c ∈ after.head?, ¬ IsWordChar c)

/-- Whether tokens are cut out of a text in order, at the bytes they say, and leave only blanks. -/
structure Covers (tokens : List Token) (text : String) : Prop where
  ascending : tokens.Pairwise fun t u => t.stop ≤ u.start
  extended : ∀ t ∈ tokens, t.start < t.stop
  bounded : ∀ t ∈ tokens, t.stop ≤ text.utf8ByteSize
  sliced : ∀ t ∈ tokens, String.Pos.Raw.extract text ⟨t.start⟩ ⟨t.stop⟩ = t.text
  located : ∀ t ∈ tokens, ∃ before after,
    text.toList = before ++ (t.spelling ++ after) ∧ t.Between before after
  blank : ∀ before c after, text.toList = before ++ c :: after →
    (∀ t ∈ tokens, byteLength before < t.start ∨ t.stop ≤ byteLength before) → isBlank c = true

/-- Spellings of tokens, each with the blanks behind it, and the blanks in front of them all. Only
between two words there has to be a blank. -/
structure Layout where
  lead : List Char
  items : List (List Char × List Char)
  lead_blank : ∀ c ∈ lead, isBlank c = true
  spelled : ∀ i ∈ items, ∃ p ≠ Pattern.blanks, p.Matches i.1
  gap_blank : ∀ i ∈ items, ∀ c ∈ i.2, isBlank c = true
  apart : items.IsChain fun i j =>
    Pattern.word.Matches i.1 → Pattern.word.Matches j.1 → i.2 ≠ []

namespace Layout

def written (items : List (List Char × List Char)) : List Char := items.flatMap fun i => i.1 ++ i.2

def text (l : Layout) : List Char := l.lead ++ written l.items

def words (l : Layout) : List String := l.items.map fun i => String.ofList i.1

end Layout

/-! Where tokens stand. -/

namespace Pattern

variable {p : Pattern} {c d : Char} {lexeme rest : List Char}

/-- No word goes on from a match into what follows it. -/
theorem Longest.parted (h : p.Longest lexeme rest) (hd : d ∈ lexeme) (hc : c ∈ rest.head?)
    (hword : IsWordChar c) : ¬ IsWordChar d := by
  rw [← ofChar_eq_word_iff] at hword ⊢
  rintro hword'
  obtain rfl : p = .word := by rw [← hword', h.found.ofChar_eq hd]
  exact h.next rfl hc hword

theorem Longest.between {read : List Char} {kind : TokenKind} (h : p.Longest lexeme rest)
    (hkind : p.kind? = some kind)
    (hcut : ∀ c ∈ (lexeme ++ rest).head?, IsWordChar c → ∀ d ∈ read.getLast?, ¬ IsWordChar d) :
    Token.Between ⟨kind, lexeme, byteLength read⟩ read rest := by
  refine ⟨rfl, ?_⟩
  have hfound := h.found
  cases p with
  | blanks => cases hkind
  | openParen =>
    cases hkind
    exact .inl ⟨rfl, hfound⟩
  | closeParen =>
    cases hkind
    exact .inr (.inl ⟨rfl, hfound⟩)
  | comma =>
    cases hkind
    exact .inr (.inr (.inl ⟨rfl, hfound⟩))
  | word =>
    cases hkind
    obtain ⟨hne, hchars⟩ := hfound
    obtain ⟨c, more, rfl⟩ := List.exists_cons_of_ne_nil hne
    refine .inr (.inr (.inr ⟨rfl, hne, hchars, hcut c rfl (hchars c (by simp)), ?_⟩))
    intro d hd hword
    exact h.next rfl hd ((ofChar_eq_word_iff d).2 hword)

end Pattern

/-- A character stands in the first or in the second of two parts of a text. -/
theorem cases_of_append_eq {first second before after : List Char} {c : Char}
    (h : first ++ second = before ++ c :: after) :
    (∃ more, first = before ++ c :: more) ∨
      ∃ more, before = first ++ more ∧ second = more ++ c :: after := by
  rcases List.append_eq_append_iff.1 h with ⟨more, hbefore, hsecond⟩ | ⟨more, hfirst, hafter⟩
  · exact .inr ⟨more, hbefore, hsecond⟩
  · cases more with
    | nil =>
      rw [List.append_nil] at hfirst
      exact .inr ⟨[], by rw [hfirst, List.append_nil], hafter.symm⟩
    | cons d more =>
      obtain ⟨rfl, -⟩ := List.cons.inj hafter
      exact .inl ⟨more, hfirst⟩

namespace Munches

variable {offset : Nat} {cs : List Char} {tokens : List Token}

theorem le_start (h : Munches offset cs tokens) : ∀ t ∈ tokens, offset ≤ t.start := by
  rw [h.eq_scan]
  exact fun t ht => Token.le_start_of_mem_scan ht

theorem ascending (h : Munches offset cs tokens) :
    tokens.Pairwise fun t u => t.stop ≤ u.start := by
  induction h with
  | finish => exact .nil
  | skip _ _ _ ih => exact ih
  | take _ _ after ih => exact List.pairwise_cons.2 ⟨after.le_start, ih⟩

/-- What was read before stays in front of the tokens that are found. -/
theorem located (h : Munches offset cs tokens) (read : List Char)
    (hread : byteLength read = offset)
    (hcut : ∀ c ∈ cs.head?, IsWordChar c → ∀ d ∈ read.getLast?, ¬ IsWordChar d) :
    ∀ t ∈ tokens, ∃ before after,
      read ++ cs = before ++ (t.spelling ++ after) ∧ t.Between before after := by
  have hstep {p : Pattern} {lexeme rest : List Char} (read : List Char)
      (cut : p.Longest lexeme rest) :
      ∀ c ∈ rest.head?, IsWordChar c → ∀ d ∈ (read ++ lexeme).getLast?, ¬ IsWordChar d := by
    intro c hc hword d hd
    rw [List.getLast?_append_of_ne_nil _ cut.found.ne_nil] at hd
    exact cut.parted (List.mem_of_getLast? hd) hc hword
  induction h generalizing read with
  | finish => simp
  | skip cut _ _ ih =>
    rw [← List.append_assoc]
    exact ih _ (by rw [byteLength_append, hread]) (hstep read cut)
  | take cut hkind _ ih =>
    intro t ht
    rcases List.mem_cons.1 ht with rfl | ht
    · subst hread
      exact ⟨read, _, rfl, cut.between hkind hcut⟩
    · rw [← List.append_assoc]
      exact ih _ (by rw [byteLength_append, hread]) (hstep read cut) t ht

/-- A character that is not blank is in a token. -/
theorem covered (h : Munches offset cs tokens) {before after : List Char} {c : Char}
    (hcs : cs = before ++ c :: after) (hc : isBlank c = false) :
    ∃ t ∈ tokens, t.start ≤ offset + byteLength before ∧ offset + byteLength before < t.stop := by
  induction h generalizing before with
  | finish => simp at hcs
  | skip cut hkind _ ih =>
    rcases cases_of_append_eq hcs with ⟨more, hlexeme⟩ | ⟨more, rfl, hrest⟩
    · have hclass := cut.found.ofChar_eq (c := c) (by simp [hlexeme])
      have hkind' := Pattern.kind?_ofChar hc
      rw [hclass, hkind] at hkind'
      cases hkind'
    · rw [byteLength_append, ← Nat.add_assoc]
      exact ih hrest
  | take cut hkind _ ih =>
    rcases cases_of_append_eq hcs with ⟨more, rfl⟩ | ⟨more, rfl, hrest⟩
    · refine ⟨_, List.mem_cons_self, Nat.le_add_right _ _, ?_⟩
      have hpos := byteLength_pos (List.cons_ne_nil c more)
      rw [Token.stop, byteLength_append]
      exact Nat.add_lt_add_left (Nat.lt_add_of_pos_right hpos) _
    · rw [byteLength_append, ← Nat.add_assoc]
      obtain ⟨t, ht, hspan⟩ := ih hrest
      exact ⟨t, List.mem_cons_of_mem _ ht, hspan⟩

end Munches

theorem Token.Between.slice {t : Token} {text : String} {before after : List Char}
    (h : t.Between before after) (htext : text.toList = before ++ (t.spelling ++ after)) :
    t.start < t.stop ∧ t.stop ≤ text.utf8ByteSize ∧
      String.Pos.Raw.extract text ⟨t.start⟩ ⟨t.stop⟩ = t.text := by
  have hne : t.spelling ≠ [] := by
    rcases h.lexical with ⟨-, hs⟩ | ⟨-, hs⟩ | ⟨-, hs⟩ | ⟨-, hs, -⟩ <;> simp [hs]
  have hpos := byteLength_pos hne
  have hsize : text.utf8ByteSize =
      byteLength before + (byteLength t.spelling + byteLength after) := by
    rw [← String.utf8Len_toList, ← byteLength_eq_utf8Len, htext, byteLength_append,
      byteLength_append]
  refine ⟨?_, ?_, ?_⟩
  · rw [stop]
    omega
  · rw [stop, h.start, hsize]
    omega
  · have hextract := String.extract_of_valid before t.spelling after
    rwa [List.append_assoc, ← htext, String.ofList_toList, ← byteLength_eq_utf8Len,
      ← byteLength_eq_utf8Len, ← h.start] at hextract

theorem Munches.covers {text : String} {tokens : List Token}
    (h : Munches 0 text.toList tokens) : Covers tokens text := by
  have hlocated := h.located [] rfl (by simp)
  refine ⟨h.ascending, ?_, ?_, ?_, hlocated, ?_⟩
  · intro t ht
    obtain ⟨before, after, htext, hbetween⟩ := hlocated t ht
    exact (hbetween.slice htext).1
  · intro t ht
    obtain ⟨before, after, htext, hbetween⟩ := hlocated t ht
    exact (hbetween.slice htext).2.1
  · intro t ht
    obtain ⟨before, after, htext, hbetween⟩ := hlocated t ht
    exact (hbetween.slice htext).2.2
  · intro before c after htext houtside
    by_contra hc
    obtain ⟨t, ht, hstart, hstop⟩ := h.covered htext (Bool.eq_false_iff.2 hc)
    have hout := houtside t ht
    omega

/-! Writing tokens out. -/

namespace Layout

open Token

variable {items : List (List Char × List Char)}

/-- A spelling is the longest match at its place. -/
theorem longest_of_item {w gap : List Char} {p : Pattern} (hp : p ≠ .blanks) (hw : p.Matches w)
    (hgap : ∀ c ∈ gap, isBlank c = true)
    (hspelled : ∀ i ∈ items, ∃ p ≠ Pattern.blanks, p.Matches i.1)
    (hapart : ∀ i ∈ items.head?,
      Pattern.word.Matches w → Pattern.word.Matches i.1 → gap ≠ []) :
    p.Longest w (gap ++ written items) := by
  refine Pattern.longest_iff.2 ⟨hw, ?_⟩
  intro hrepeats c hc
  obtain rfl : p = .word := by cases p <;> simp_all [Pattern.repeats]
  cases gap with
  | cons b gap =>
    obtain rfl : b = c := by simpa using hc
    have hblank : Pattern.blanks.Matches [b] := ⟨by simp, by simpa using hgap b (by simp)⟩
    rw [(Pattern.ofChar_eq_iff .blanks b).2 hblank]
    decide
  | nil =>
    cases items with
    | nil => simp [written] at hc
    | cons i items =>
      obtain ⟨q, -, hq⟩ := hspelled i (by simp)
      obtain ⟨d, more, hi⟩ := List.exists_cons_of_ne_nil hq.ne_nil
      obtain rfl : d = c := by simpa [written, hi] using hc
      rw [hq.ofChar_eq (c := d) (by simp [hi])]
      rintro rfl
      exact hapart i rfl hw hq rfl

theorem map_spelling_scan_written (hspelled : ∀ i ∈ items, ∃ p ≠ Pattern.blanks, p.Matches i.1)
    (hgap : ∀ i ∈ items, ∀ c ∈ i.2, isBlank c = true)
    (hapart : items.IsChain fun i j =>
      Pattern.word.Matches i.1 → Pattern.word.Matches j.1 → i.2 ≠ []) (offset : Nat) :
    (scan offset (written items)).map Token.spelling = items.map Prod.fst := by
  induction items generalizing offset with
  | nil => rfl
  | cons i items ih =>
    obtain ⟨w, gap⟩ := i
    obtain ⟨⟨p, hp, hw⟩, hspelled⟩ := List.forall_mem_cons.1 hspelled
    obtain ⟨hblank, hgap⟩ := List.forall_mem_cons.1 hgap
    obtain ⟨hnext, hapart⟩ := List.isChain_cons.1 hapart
    have hlongest := longest_of_item hp hw hblank hspelled hnext
    obtain ⟨kind, hkind⟩ : ∃ kind, p.kind? = some kind := by
      cases p <;> simp_all [Pattern.kind?]
    have hwritten : written ((w, gap) :: items) = w ++ (gap ++ written items) := by
      simp [written]
    rw [hwritten, scan_longest hlongest, hkind, scan_blanks hblank]
    simp [ih hspelled hgap hapart]

theorem tokenize_text (l : Layout) : tokenize (String.ofList l.text) = l.words := by
  have hscan := map_spelling_scan_written l.spelled l.gap_blank l.apart (0 + byteLength l.lead)
  have hwords : l.words = (l.items.map Prod.fst).map String.ofList := by simp [words]
  rw [tokenize, tokensOf, String.toList_ofList, text, scan_blanks l.lead_blank, hwords, ← hscan,
    List.map_map]
  rfl

/-- A text is its tokens written out in some way. -/
theorem exists_of_munches {offset : Nat} {cs : List Char} {tokens : List Token}
    (h : Munches offset cs tokens) :
    ∃ l : Layout, l.text = cs ∧ l.items.map Prod.fst = tokens.map Token.spelling := by
  induction h with
  | finish => exact ⟨⟨[], [], by simp, by simp, by simp, .nil⟩, rfl, rfl⟩
  | @skip offset p lexeme rest tokens cut hkind after ih =>
    obtain ⟨l, rfl, hitems⟩ := ih
    obtain rfl : p = .blanks := by cases p <;> simp_all [Pattern.kind?]
    have hlead : ∀ c ∈ lexeme ++ l.lead, isBlank c = true := by
      intro c hc
      rcases List.mem_append.1 hc with hc | hc
      · exact cut.found.2 c hc
      · exact l.lead_blank c hc
    exact ⟨⟨lexeme ++ l.lead, l.items, hlead, l.spelled, l.gap_blank, l.apart⟩,
      by simp [text], hitems⟩
  | @take offset p kind lexeme rest tokens cut hkind after ih =>
    obtain ⟨l, rfl, hitems⟩ := ih
    have hp : p ≠ .blanks := by
      rintro rfl
      cases hkind
    have happart : ∀ j ∈ l.items.head?,
        Pattern.word.Matches lexeme → Pattern.word.Matches j.1 → l.lead ≠ [] := by
      intro j hj hlexeme hword hlead
      obtain ⟨items, hl⟩ := List.head?_eq_some_iff.1 hj
      obtain ⟨c, more, hc⟩ := List.exists_cons_of_ne_nil hword.ne_nil
      obtain ⟨d, less, rfl⟩ := List.exists_cons_of_ne_nil hlexeme.ne_nil
      have hhead : c ∈ l.text.head? := by simp [text, written, hlead, hl, hc]
      exact cut.parted List.mem_cons_self hhead (hword.2 c (by simp [hc]))
        (hlexeme.2 d List.mem_cons_self)
    refine ⟨⟨[], (lexeme, l.lead) :: l.items, by simp, ?_, ?_, ?_⟩, ?_, ?_⟩
    · exact List.forall_mem_cons.2 ⟨⟨p, hp, cut.found⟩, l.spelled⟩
    · exact List.forall_mem_cons.2 ⟨l.lead_blank, l.gap_blank⟩
    · exact List.isChain_cons.2 ⟨happart, l.apart⟩
    · simp [text, written]
    · simp [hitems]

theorem tokenize_eq_iff (text : String) (words : List String) :
    tokenize text = words ↔ ∃ l : Layout, l.text = text.toList ∧ l.words = words := by
  constructor
  · rintro rfl
    obtain ⟨l, htext, hitems⟩ := exists_of_munches (munches_scan 0 text.toList)
    refine ⟨l, htext, ?_⟩
    have hwords : l.words = (l.items.map Prod.fst).map String.ofList := by simp [Layout.words]
    rw [hwords, hitems, List.map_map]
    rfl
  · rintro ⟨l, htext, rfl⟩
    rw [← l.tokenize_text, htext, String.ofList_toList]

end Layout

/-- Tokens are the longest matches in a text; they cover it but for blanks, and a text has exactly
the tokens from which it can be written out. -/
theorem tokensOf_exact (text : String) :
    (∀ tokens, Munches 0 text.toList tokens ↔ tokens = tokensOf text) ∧
      Covers (tokensOf text) text ∧
      ∀ words, tokenize text = words ↔ ∃ l : Layout, l.text = text.toList ∧ l.words = words :=
  ⟨munches_iff 0 text.toList, (munches_scan 0 text.toList).covers, Layout.tokenize_eq_iff text⟩

end Formulary
