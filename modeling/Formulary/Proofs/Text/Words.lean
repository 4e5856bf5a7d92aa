import Formulary.Text
import Mathlib.Data.List.Basic

/-!
Words and lines of a text. A blank parts the words on its two sides and a line feed the lines, so
what is written word by word and line by line is read back.
-/

namespace Formulary.Text

variable {b : Char} {w xs ys : List Char}

/-! Words. -/

theorem consFirst_ne_nil (c : Char) (ps : List (List Char)) : consFirst c ps ≠ [] := by
  cases ps <;> simp [consFirst]

theorem pieces_ne_nil (cs : List Char) : pieces cs ≠ [] := by
  cases cs with
  | nil => simp [pieces]
  | cons c cs =>
    rw [pieces]
    split
    · simp
    · exact consFirst_ne_nil c _

theorem consFirst_append {ps : List (List Char)} (h : ps ≠ []) (c : Char)
    (qs : List (List Char)) : consFirst c (ps ++ qs) = consFirst c ps ++ qs := by
  cases ps with
  | nil => exact absurd rfl h
  | cons p ps => rfl

theorem pieces_append_blank (hb : isBlank b = true) (xs ys : List Char) :
    pieces (xs ++ b :: ys) = pieces xs ++ pieces ys := by
  induction xs with
  | nil => simp [pieces, hb]
  | cons c xs ih =>
    rw [List.cons_append, pieces, pieces, ih]
    split
    · rfl
    · exact consFirst_append (pieces_ne_nil xs) c _

/-- Words stand on one side of a blank or on the other. -/
theorem words_append_blank (hb : isBlank b = true) (xs ys : List Char) :
    words (xs ++ b :: ys) = words xs ++ words ys := by
  rw [words, pieces_append_blank hb, List.filter_append]
  rfl

theorem words_nil : words [] = [] := rfl

theorem pieces_of_not_blank (h : ∀ c ∈ w, isBlank c = false) : pieces w = [w] := by
  induction w with
  | nil => rfl
  | cons c w ih =>
    obtain ⟨hc, hw⟩ := List.forall_mem_cons.1 h
    rw [pieces, if_neg (by simp [hc]), ih hw]
    rfl

theorem not_blank_of_any {w : List Char} (h : w.any isBlank = false) :
    ∀ c ∈ w, isBlank c = false :=
  fun c hc => Bool.eq_false_iff.2 (List.any_eq_false.1 h c hc)

theorem not_blank_of_mem_pieces {cs w : List Char} (h : w ∈ pieces cs) :
    ∀ c ∈ w, isBlank c = false := by
  induction cs generalizing w with
  | nil =>
    rw [List.mem_singleton.1 h]
    simp
  | cons c cs ih =>
    rw [pieces] at h
    split at h
    · rcases List.mem_cons.1 h with rfl | h
      · simp
      · exact ih h
    · next hc =>
      have hc : isBlank c = false := Bool.eq_false_iff.2 hc
      obtain ⟨piece, more, heq⟩ := List.exists_cons_of_ne_nil (pieces_ne_nil cs)
      rw [heq] at h ih
      rcases List.mem_cons.1 h with rfl | h
      · exact List.forall_mem_cons.2 ⟨hc, ih List.mem_cons_self⟩
      · exact ih (List.mem_cons_of_mem _ h)

theorem not_blank_of_mem_words {cs w : List Char} (h : w ∈ words cs) :
    ∀ c ∈ w, isBlank c = false :=
  not_blank_of_mem_pieces (List.mem_filter.1 h).1

theorem ne_nil_of_mem_words {cs w : List Char} (h : w ∈ words cs) : w ≠ [] := by
  simpa using (List.mem_filter.1 h).2

/-- What stands between the spaces is read one by one, if there are no other blanks. -/
theorem pieces_intercalate {ws : List (List Char)} (hne : ws ≠ [])
    (h : ∀ w ∈ ws, ∀ c ∈ w, isBlank c = false) : pieces ([' '].intercalate ws) = ws := by
  induction ws with
  | nil => exact absurd rfl hne
  | cons w ws ih =>
    obtain ⟨hw, hws⟩ := List.forall_mem_cons.1 h
    cases ws with
    | nil => simpa using pieces_of_not_blank hw
    | cons v ws =>
      rw [List.intercalate_cons_cons, List.append_assoc, List.singleton_append,
        pieces_append_blank (by decide), pieces_of_not_blank hw, ih (List.cons_ne_nil v ws) hws]
      rfl

/-- Words with a space between any two are read one by one. -/
theorem words_intercalate {ws : List (List Char)}
    (h : ∀ w ∈ ws, w ≠ [] ∧ ∀ c ∈ w, isBlank c = false) :
    words ([' '].intercalate ws) = ws := by
  by_cases hne : ws = []
  · subst hne
    rfl
  · rw [words, pieces_intercalate hne fun w hw => (h w hw).2, List.filter_eq_self]
    intro w hw
    simpa using (h w hw).1

/-! Lines. -/

/-- What a line feed leaves of the line before it: all but one carriage return at its end. -/
def withoutReturn (cs : List Char) : List Char :=
  if cs.getLast? = some '\r' then cs.dropLast else cs

theorem withoutReturn_append (hne : ys ≠ []) (xs : List Char) :
    withoutReturn (xs ++ ys) = xs ++ withoutReturn ys := by
  unfold withoutReturn
  rw [List.getLast?_append_of_ne_nil xs hne]
  split
  · exact List.dropLast_append_of_ne_nil hne
  · rfl

theorem eq_withoutReturn_append (cs : List Char) :
    ∃ tail, cs = withoutReturn cs ++ tail ∧ (tail = [] ∨ tail = ['\r']) := by
  unfold withoutReturn
  split
  · next h => exact ⟨['\r'], (List.dropLast_append_getLast? '\r' h).symm, .inr rfl⟩
  · exact ⟨[], (List.append_nil cs).symm, .inl rfl⟩

theorem lines_cons {c : Char} {cs : List Char} (hc : c ≠ '\n')
    (hreturn : c = '\r' → cs.head? ≠ some '\n') : lines (c :: cs) = consFirst c (lines cs) := by
  rw [lines]
  · exact hc
  · rintro more rfl rfl
    exact hreturn rfl rfl

/-- A line feed ends the line before it. -/
theorem lines_append_lineFeed (h : '\n' ∉ xs) (ys : List Char) :
    lines (xs ++ '\n' :: ys) = withoutReturn xs :: lines ys := by
  induction xs with
  | nil => rfl
  | cons c xs ih =>
    obtain ⟨hc, hxs⟩ := not_or.1 (mt List.mem_cons.2 h)
    by_cases hreturn : c = '\r' ∧ xs = []
    · obtain ⟨rfl, rfl⟩ := hreturn
      rfl
    · have hhead : c = '\r' → (xs ++ '\n' :: ys).head? ≠ some '\n' := by
        rintro rfl
        obtain ⟨d, more, rfl⟩ := List.exists_cons_of_ne_nil fun hnil => hreturn ⟨rfl, hnil⟩
        intro heq
        obtain rfl : d = '\n' := by simpa using heq
        exact hxs List.mem_cons_self
      rw [List.cons_append, lines_cons (Ne.symm hc) hhead, ih hxs]
      have hcons : withoutReturn (c :: xs) = c :: withoutReturn xs := by
        by_cases hnil : xs = []
        · subst hnil
          have hc' : c ≠ '\r' := fun h => hreturn ⟨h, rfl⟩
          simp [withoutReturn, hc']
        · exact withoutReturn_append hnil [c]
      rw [hcons]
      rfl

/-- What no line feed ends is a line as it stands. -/
theorem lines_of_not_mem (h : '\n' ∉ xs) (hne : xs ≠ []) : lines xs = [xs] := by
  induction xs with
  | nil => exact absurd rfl hne
  | cons c xs ih =>
    obtain ⟨hc, hxs⟩ := not_or.1 (mt List.mem_cons.2 h)
    have hhead : c = '\r' → xs.head? ≠ some '\n' := by
      rintro - heq
      exact hxs (List.mem_of_mem_head? heq)
    rw [lines_cons (Ne.symm hc) hhead]
    by_cases hnil : xs = []
    · subst hnil
      rfl
    · rw [ih hxs hnil]
      rfl

/-- Lines that are each ended by a line feed are read one by one. -/
theorem lines_flatMap_append {ls : List (List Char)} (h : ∀ l ∈ ls, '\n' ∉ l) (ys : List Char) :
    lines (ls.flatMap (· ++ ['\n']) ++ ys) = ls.map withoutReturn ++ lines ys := by
  induction ls with
  | nil => rfl
  | cons l ls ih =>
    obtain ⟨hl, hls⟩ := List.forall_mem_cons.1 h
    rw [List.flatMap_cons, List.append_assoc, List.append_assoc, List.singleton_append,
      lines_append_lineFeed hl, ih hls]
    rfl

/-- Whether a text can stand on a line of its own as it is. -/
structure OneLine (s : String) : Prop where
  unbroken : '\n' ∉ s.toList
  unreturned : s.toList.getLast? ≠ some '\r'

/-- Texts that are each written on a line of their own are the lines of what is written. -/
theorem linesOf_join {ls : List String} (h : ∀ l ∈ ls, OneLine l) :
    linesOf (String.join (ls.map (· ++ "\n"))) = ls := by
  have hchars : (String.join (ls.map (· ++ "\n"))).toList =
      (ls.map String.toList).flatMap (· ++ ['\n']) ++ [] := by
    rw [String.toList_join, List.flatMap_map, List.flatMap_map, List.append_nil]
    exact List.flatMap_congr fun l _ => String.toList_append
  have hkept : ∀ l ∈ ls, String.ofList (withoutReturn l.toList) = l := by
    intro l hl
    rw [withoutReturn, if_neg (h l hl).unreturned, String.ofList_toList]
  have hunbroken : ∀ l ∈ ls.map String.toList, '\n' ∉ l := by
    simpa using fun l hl => (h l hl).unbroken
  rw [linesOf, hchars, lines_flatMap_append hunbroken, lines, List.append_nil, List.map_map,
    List.map_map]
  exact (List.map_congr_left hkept).trans (List.map_id ls)

/-- A carriage return at the end of a line has no bearing on its words. -/
theorem words_withoutReturn (cs : List Char) : words (withoutReturn cs) = words cs := by
  obtain ⟨tail, hcs, rfl | rfl⟩ := eq_withoutReturn_append cs
  · rw [List.append_nil] at hcs
    rw [← hcs]
  · rw [hcs, words_append_blank (by decide), words_nil, List.append_nil, ← hcs]

end Formulary.Text
