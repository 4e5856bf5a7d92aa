import Formulary.Formula.Token
import Mathlib.Data.List.TakeWhile
import Mathlib.Data.String.Basic
import Mathlib.Tactic.SplitIfs

/-!
Longest matches. Four patterns describe tokens and a fifth one the blanks between them. A text is
cut up by taking the longest beginning that matches any pattern, over and over; scanning gives the
tokens that are found in this way.
-/

namespace Formulary

open Text (isBlank)

/-- Characters that can be part of a word. -/
def IsWordChar (c : Char) : Prop := isBlank c = false ∧ c ≠ '(' ∧ c ≠ ')' ∧ c ≠ ','

/-- What the beginning of a text is matched with. -/
inductive Pattern
  | blanks
  | openParen
  | closeParen
  | comma
  | word
deriving DecidableEq, Repr

namespace Pattern

/-- Whether a pattern matches all of some characters. -/
def Matches : Pattern → List Char → Prop
  | .blanks, cs => cs ≠ [] ∧ ∀ c ∈ cs, isBlank c = true
  | .openParen, cs => cs = ['(']
  | .closeParen, cs => cs = [')']
  | .comma, cs => cs = [',']
  | .word, cs => cs ≠ [] ∧ ∀ c ∈ cs, IsWordChar c

/-- The kind of token that a pattern describes; blanks are none. -/
def kind? : Pattern → Option TokenKind
  | .blanks => none
  | .openParen => some .openParen
  | .closeParen => some .closeParen
  | .comma => some .comma
  | .word => some .word

/-- Whether a pattern matches what comes first in a text, and no pattern matches more of it. -/
structure Longest (p : Pattern) (lexeme rest : List Char) : Prop where
  found : p.Matches lexeme
  longest : ∀ (q : Pattern) (more : List Char), more ≠ [] → more <+: rest →
    ¬ q.Matches (lexeme ++ more)

end Pattern

/-- The tokens of a text from a byte offset on, cut off as longest matches. -/
inductive Munches : (offset : Nat) → List Char → List Token → Prop
  | finish (offset : Nat) : Munches offset [] []
  | skip {offset : Nat} {p : Pattern} {lexeme rest : List Char} {tokens : List Token}
      (cut : p.Longest lexeme rest) (hkind : p.kind? = none)
      (after : Munches (offset + byteLength lexeme) rest tokens) :
      Munches offset (lexeme ++ rest) tokens
  | take {offset : Nat} {p : Pattern} {kind : TokenKind} {lexeme rest : List Char}
      {tokens : List Token} (cut : p.Longest lexeme rest) (hkind : p.kind? = some kind)
      (after : Munches (offset + byteLength lexeme) rest tokens) :
      Munches offset (lexeme ++ rest) (⟨kind, lexeme, offset⟩ :: tokens)

theorem byteLength_eq_utf8Len (cs : List Char) : byteLength cs = String.utf8Len cs := by
  induction cs with
  | nil => rfl
  | cons c cs ih => rw [byteLength, ih, String.utf8Len_cons, Nat.add_comm]

theorem byteLength_append (cs ds : List Char) :
    byteLength (cs ++ ds) = byteLength cs + byteLength ds := by
  simp only [byteLength_eq_utf8Len, String.utf8Len_append]

theorem byteLength_pos {cs : List Char} (h : cs ≠ []) : 0 < byteLength cs := by
  rw [byteLength_eq_utf8Len, Nat.pos_iff_ne_zero, ne_eq, String.utf8Len_eq_zero]
  exact h

/-! What a match is made of. -/

namespace Pattern

/-- The only pattern that matches a text with a certain character. -/
def ofChar (c : Char) : Pattern :=
  if isBlank c then .blanks
  else if c = '(' then .openParen
  else if c = ')' then .closeParen
  else if c = ',' then .comma
  else .word

def repeats : Pattern → Bool
  | .blanks => true
  | .openParen => false
  | .closeParen => false
  | .comma => false
  | .word => true

theorem ofChar_eq_iff (p : Pattern) (c : Char) : ofChar c = p ↔ p.Matches [c] := by
  have hopen : isBlank '(' = false := by decide
  have hclose : isBlank ')' = false := by decide
  have hcomma : isBlank ',' = false := by decide
  unfold ofChar
  cases p <;> simp only [Matches, IsWordChar, ne_eq, reduceCtorEq, not_false_eq_true, true_and,
    List.forall_mem_singleton, List.singleton_inj] <;> grind

theorem ofChar_eq_word_iff (c : Char) : ofChar c = .word ↔ IsWordChar c := by
  simp [ofChar_eq_iff, Matches]

theorem kind?_ofChar {c : Char} (h : isBlank c = false) :
    (ofChar c).kind? = some (TokenKind.ofChar c) := by
  unfold ofChar TokenKind.ofChar
  split_ifs <;> simp_all [kind?]

/-- A match has characters of one pattern only, and more than one only if the pattern repeats. -/
theorem matches_iff (p : Pattern) (cs : List Char) :
    p.Matches cs ↔
      cs ≠ [] ∧ (∀ c ∈ cs, ofChar c = p) ∧ (p.repeats = false → cs.length = 1) := by
  have hsingle (d : Char) : cs = [d] ↔ cs ≠ [] ∧ (∀ c ∈ cs, c = d) ∧ cs.length = 1 := by
    constructor
    · rintro rfl
      simp
    · rintro ⟨-, hall, hlength⟩
      obtain ⟨e, rfl⟩ := List.length_eq_one_iff.1 hlength
      rw [hall e (by simp)]
  cases p with
  | blanks => simp [Matches, repeats, ofChar_eq_iff]
  | word => simp [Matches, repeats, ofChar_eq_iff]
  | openParen => simpa [Matches, repeats, ofChar_eq_iff] using hsingle '('
  | closeParen => simpa [Matches, repeats, ofChar_eq_iff] using hsingle ')'
  | comma => simpa [Matches, repeats, ofChar_eq_iff] using hsingle ','

variable {p : Pattern} {c : Char} {lexeme rest : List Char} {offset : Nat}

theorem Matches.ne_nil (h : p.Matches lexeme) : lexeme ≠ [] := ((matches_iff _ _).1 h).1

theorem Matches.ofChar_eq (h : p.Matches lexeme) (hc : c ∈ lexeme) : ofChar c = p :=
  ((matches_iff _ _).1 h).2.1 c hc

/-- The next character decides whether a match is the longest one. -/
theorem longest_iff :
    p.Longest lexeme rest ↔
      p.Matches lexeme ∧ (p.repeats = true → ∀ c ∈ rest.head?, ofChar c ≠ p) := by
  constructor
  · rintro ⟨hfound, hlongest⟩
    refine ⟨hfound, ?_⟩
    rintro hrepeats c hc rfl
    obtain ⟨more, rfl⟩ := List.head?_eq_some_iff.1 hc
    have hprefix : [c] <+: c :: more := ⟨more, rfl⟩
    refine hlongest (ofChar c) [c] (by simp) hprefix ((matches_iff _ _).2 ⟨by simp, ?_, ?_⟩)
    · intro d hd
      rcases List.mem_append.1 hd with hd | hd
      · exact hfound.ofChar_eq hd
      · rw [List.mem_singleton.1 hd]
    · simp [hrepeats]
  · rintro ⟨hfound, hnext⟩
    refine ⟨hfound, ?_⟩
    rintro q more hmore ⟨after, rfl⟩ hq
    obtain ⟨d, lexeme, rfl⟩ := List.exists_cons_of_ne_nil hfound.ne_nil
    obtain ⟨c, more, rfl⟩ := List.exists_cons_of_ne_nil hmore
    obtain rfl : p = q := by rw [← hfound.ofChar_eq (c := d) (by simp), hq.ofChar_eq (by simp)]
    cases hrepeats : p.repeats with
    | true => exact hnext hrepeats c rfl (hq.ofChar_eq (by simp))
    | false =>
      have hlength := ((matches_iff _ _).1 hq).2.2 hrepeats
      simp at hlength

/-- Behind a longest match of a pattern that repeats, another pattern is called for. -/
theorem Longest.next (h : p.Longest lexeme rest) (hrepeats : p.repeats = true)
    (hc : c ∈ rest.head?) : ofChar c ≠ p :=
  (longest_iff.1 h).2 hrepeats c hc

/-- Every text that is not empty begins with a longest match. -/
theorem exists_longest (c : Char) (cs : List Char) :
    ∃ p lexeme rest, c :: cs = lexeme ++ rest ∧ Longest p lexeme rest := by
  cases hrepeats : (ofChar c).repeats with
  | false =>
    refine ⟨ofChar c, [c], cs, rfl, longest_iff.2 ⟨?_, by simp [hrepeats]⟩⟩
    exact (matches_iff _ _).2 (by simp)
  | true =>
    let same (d : Char) : Bool := ofChar d = ofChar c
    have hcut : c :: cs = c :: cs.takeWhile same ++ cs.dropWhile same := by
      rw [List.cons_append, List.takeWhile_append_dropWhile]
    refine ⟨ofChar c, c :: cs.takeWhile same, cs.dropWhile same, hcut, longest_iff.2 ⟨?_, ?_⟩⟩
    · refine (matches_iff _ _).2 ⟨by simp, ?_, by simp [hrepeats]⟩
      intro d hd
      rcases List.mem_cons.1 hd with rfl | hd
      · rfl
      · have hsame : same d = true := List.mem_takeWhile_imp hd
        exact of_decide_eq_true hsame
    · intro _ d hd
      obtain ⟨more, hmore⟩ := List.head?_eq_some_iff.1 hd
      have hne : cs.dropWhile same ≠ [] := by simp [hmore]
      have hstop := List.head_dropWhile_not same hne
      simp only [hmore, List.head_cons] at hstop
      exact of_decide_eq_false hstop

end Pattern

/-! What scanning does to a match. -/

namespace Token

variable {p : Pattern} {c : Char} {lexeme rest : List Char} {offset : Nat} {t : Token}

theorem start_of_mem_prepend {tokens : List Token} (h : t ∈ prepend c offset tokens) :
    t.start = offset ∨ t ∈ tokens := by
  cases tokens with
  | nil =>
    obtain rfl := List.mem_singleton.1 h
    exact .inl rfl
  | cons u tokens =>
    rw [prepend] at h
    split_ifs at h
    · rcases List.mem_cons.1 h with rfl | h
      · exact .inl rfl
      · exact .inr (List.mem_cons_of_mem u h)
    · rcases List.mem_cons.1 h with rfl | h
      · exact .inl rfl
      · exact .inr h

theorem le_start_of_mem_scan {cs : List Char} (h : t ∈ scan offset cs) : offset ≤ t.start := by
  induction cs generalizing offset with
  | nil => simp [scan] at h
  | cons c cs ih =>
    have hrest (h : t ∈ scan (offset + c.utf8Size) cs) : offset ≤ t.start :=
      Nat.le_trans (Nat.le_add_right _ _) (ih h)
    rw [scan] at h
    split_ifs at h
    · exact hrest h
    · rcases start_of_mem_prepend h with heq | h
      · exact Nat.le_of_eq heq.symm
      · exact hrest h

theorem scan_blanks (h : ∀ c ∈ lexeme, isBlank c = true) :
    scan offset (lexeme ++ rest) = scan (offset + byteLength lexeme) rest := by
  induction lexeme generalizing offset with
  | nil => rfl
  | cons c lexeme ih =>
    obtain ⟨hc, hlexeme⟩ := List.forall_mem_cons.1 h
    rw [List.cons_append, scan, if_pos hc, ih hlexeme, byteLength, Nat.add_assoc]

/-- A character is a token of its own if no word can go on with it. -/
theorem prepend_eq_cons {tokens : List Token}
    (h : TokenKind.ofChar c = .word →
      ∀ t ∈ tokens.head?, t.kind = .word → t.start ≠ offset + c.utf8Size) :
    prepend c offset tokens = ofChar c offset :: tokens := by
  cases tokens with
  | nil => rfl
  | cons t tokens =>
    rw [prepend, if_neg]
    rintro ⟨hc, ht, hstart⟩
    exact h hc t rfl ht hstart

theorem scan_cons (hc : isBlank c = false) :
    scan offset (c :: rest) = prepend c offset (scan (offset + c.utf8Size) rest) := by
  rw [scan, if_neg (by simp [hc])]

/-- No word starts where the next character cannot be part of one. -/
theorem start_ne_of_head {d : Char} (hd : d ∈ rest.head?) (hword : Pattern.ofChar d ≠ .word) :
    ∀ t ∈ (scan offset rest).head?, t.kind = .word → t.start ≠ offset := by
  intro t ht hkind hstart
  obtain ⟨more, rfl⟩ := List.head?_eq_some_iff.1 hd
  cases hblank : isBlank d with
  | true =>
    rw [scan, if_pos hblank] at ht
    have hle := le_start_of_mem_scan (List.mem_of_mem_head? ht)
    have hpos := d.utf8Size_pos
    omega
  | false =>
    have hkind? := Pattern.kind?_ofChar hblank
    have hne : TokenKind.ofChar d ≠ .word := by
      intro h
      rw [h] at hkind?
      cases hp : Pattern.ofChar d <;> simp_all [Pattern.kind?]
    rw [scan_cons hblank, prepend_eq_cons (fun h => absurd h hne)] at ht
    obtain rfl : ofChar d offset = t := by simpa using ht
    exact hne hkind

/-- A word is read whole if it cannot go on. -/
theorem scan_word (hword : Pattern.word.Longest lexeme rest) :
    scan offset (lexeme ++ rest) =
      ⟨.word, lexeme, offset⟩ :: scan (offset + byteLength lexeme) rest := by
  obtain ⟨hmatches, hnext⟩ := Pattern.longest_iff.1 hword
  obtain ⟨c, lexeme, rfl⟩ := List.exists_cons_of_ne_nil hmatches.ne_nil
  have hclass : ∀ d ∈ c :: lexeme, isBlank d = false ∧ TokenKind.ofChar d = .word := by
    intro d hd
    obtain ⟨hblank, hmarks⟩ := (Pattern.ofChar_eq_word_iff d).1 (hmatches.ofChar_eq hd)
    simp [TokenKind.ofChar, hblank, hmarks]
  clear hmatches hword
  induction lexeme generalizing c offset with
  | nil =>
    obtain ⟨hblank, hkind⟩ := hclass c (by simp)
    have hstart : ∀ t ∈ (scan (offset + c.utf8Size) rest).head?, t.kind = .word →
        t.start ≠ offset + c.utf8Size := by
      cases hd : rest.head? with
      | none =>
        obtain rfl := List.head?_eq_none_iff.1 hd
        simp [scan]
      | some d => exact start_ne_of_head hd (hnext rfl d hd)
    rw [List.cons_append, List.nil_append, scan_cons hblank, prepend_eq_cons fun _ => hstart]
    simp [ofChar, hkind, byteLength]
  | cons d lexeme ih =>
    obtain ⟨hc, hlexeme⟩ := List.forall_mem_cons.1 hclass
    rw [List.cons_append, scan_cons hc.1, ih d hlexeme, prepend,
      if_pos ⟨hc.2, rfl, rfl⟩, byteLength, byteLength, byteLength]
    simp only [Nat.add_assoc]

/-- What a longest match contributes to the tokens. -/
theorem scan_longest (h : p.Longest lexeme rest) :
    scan offset (lexeme ++ rest) =
      (p.kind?.map fun kind => ⟨kind, lexeme, offset⟩).toList ++
        scan (offset + byteLength lexeme) rest := by
  have hfound := h.found
  have hsingle {c : Char} (hc : isBlank c = false) (hne : TokenKind.ofChar c ≠ .word) :
      scan offset ([c] ++ rest) =
        ⟨TokenKind.ofChar c, [c], offset⟩ :: scan (offset + byteLength [c]) rest := by
    rw [List.singleton_append, scan_cons hc, prepend_eq_cons fun hword => absurd hword hne]
    rfl
  cases p with
  | blanks => exact scan_blanks hfound.2
  | word => exact scan_word h
  | openParen =>
    obtain rfl : lexeme = ['('] := hfound
    exact hsingle (by decide) (by decide)
  | closeParen =>
    obtain rfl : lexeme = [')'] := hfound
    exact hsingle (by decide) (by decide)
  | comma =>
    obtain rfl : lexeme = [','] := hfound
    exact hsingle (by decide) (by decide)

end Token

open Token

theorem Munches.eq_scan {offset : Nat} {cs : List Char} {tokens : List Token}
    (h : Munches offset cs tokens) : tokens = scan offset cs := by
  induction h with
  | finish offset => rfl
  | skip cut hkind after ih => rw [scan_longest cut, hkind, ← ih]; rfl
  | take cut hkind after ih => rw [scan_longest cut, hkind, ← ih]; rfl

theorem munches_scan (offset : Nat) (cs : List Char) : Munches offset cs (scan offset cs) := by
  induction hlength : cs.length using Nat.strongRecOn generalizing offset cs with
  | ind n ih =>
    subst hlength
    cases cs with
    | nil => exact .finish offset
    | cons c cs =>
      obtain ⟨p, lexeme, rest, hcut, h⟩ := Pattern.exists_longest c cs
      have hpos := List.length_pos_iff.2 h.found.ne_nil
      rw [hcut, List.length_append] at ih
      have hrest := ih rest.length (by omega) (offset + byteLength lexeme) rest rfl
      rw [hcut, scan_longest h]
      cases hkind : p.kind? with
      | none => exact .skip h hkind hrest
      | some kind => exact .take h hkind hrest

/-- Scanning gives the longest matches and nothing else. -/
theorem munches_iff (offset : Nat) (cs : List Char) (tokens : List Token) :
    Munches offset cs tokens ↔ tokens = scan offset cs := by
  constructor
  · exact Munches.eq_scan
  · rintro rfl
    exact munches_scan offset cs

/-! What does not matter to the spellings of tokens. -/

namespace Token

/-- Where a text starts has no bearing on the spellings of its tokens. -/
theorem map_spelling_scan (offset offset' : Nat) (cs : List Char) :
    (scan offset cs).map spelling = (scan offset' cs).map spelling := by
  generalize htokens : scan offset cs = tokens
  have h : Munches offset cs tokens := htokens ▸ munches_scan offset cs
  clear htokens
  induction h generalizing offset' with
  | finish => rfl
  | skip cut hkind _ ih => rw [scan_longest cut, hkind, ih]; rfl
  | take cut hkind _ ih => rw [scan_longest cut, hkind, List.map_cons, ih]; rfl

/-- What a character is put in front of stays as it is behind a gap. -/
theorem prepend_append {later : List Token} (h : ∀ t ∈ later, offset + c.utf8Size < t.start)
    (tokens : List Token) :
    prepend c offset (tokens ++ later) = prepend c offset tokens ++ later := by
  cases tokens with
  | nil =>
    refine prepend_eq_cons fun _ t ht _ => ?_
    exact (Nat.ne_of_lt (h t (List.mem_of_mem_head? ht))).symm
  | cons t tokens =>
    rw [List.cons_append, prepend, prepend]
    split_ifs <;> rfl

theorem scan_append_blank (hc : isBlank c = true) (offset : Nat) (xs ys : List Char) :
    scan offset (xs ++ c :: ys) =
      scan offset xs ++ scan (offset + byteLength (xs ++ [c])) ys := by
  induction xs generalizing offset with
  | nil => exact if_pos hc
  | cons d xs ih =>
    rw [List.cons_append, scan, scan, ih, List.cons_append, byteLength, ← Nat.add_assoc]
    split_ifs
    · rfl
    · refine prepend_append (fun t ht => ?_) _
      have hle := le_start_of_mem_scan ht
      have hpos := byteLength_pos (List.append_ne_nil_of_right_ne_nil xs (List.cons_ne_nil c []))
      omega

end Token

theorem tokenize_ofList (cs : List Char) (offset : Nat) :
    tokenize (String.ofList cs) = ((scan offset cs).map spelling).map String.ofList := by
  rw [tokenize, tokensOf, String.toList_ofList, map_spelling_scan offset 0, List.map_map]
  rfl

theorem tokenize_blank_cons {c : Char} (hc : isBlank c = true) (cs : List Char) :
    tokenize (String.ofList (c :: cs)) = tokenize (String.ofList cs) := by
  rw [tokenize_ofList _ 0, tokenize_ofList _ (0 + c.utf8Size), scan, if_pos hc]

/-- Tokens stand on one side of a blank or on the other. -/
theorem tokenize_append_blank {c : Char} (hc : isBlank c = true) (xs ys : List Char) :
    tokenize (String.ofList (xs ++ c :: ys)) =
      tokenize (String.ofList xs) ++ tokenize (String.ofList ys) := by
  rw [tokenize_ofList _ 0, scan_append_blank hc, List.map_append, List.map_append,
    ← tokenize_ofList, ← tokenize_ofList]

theorem tokenize_nil : tokenize (String.ofList []) = [] := rfl

/-- A word is one token. -/
theorem tokenize_word {w : List Char} (h : Pattern.word.Matches w) :
    tokenize (String.ofList w) = [String.ofList w] := by
  have hlongest : Pattern.word.Longest w [] := Pattern.longest_iff.2 ⟨h, by simp⟩
  have hscan : scan 0 (w ++ []) = [⟨.word, w, 0⟩] := scan_word hlongest
  rw [List.append_nil] at hscan
  rw [tokenize_ofList w 0, hscan]
  rfl

end Formulary
