import Formulary.Tree
import Mathlib.Algebra.Ring.Parity
import Mathlib.Data.List.Basic
import Mathlib.Data.List.Induction

/-!
Labels between quotes. Every quote inside a label stands behind an odd number of backslashes and
the one that closes it behind an even number, so a label ends where it should, and what it says
can be read back.
-/

namespace Formulary.Dot

/-- Puts another text in place of a character wherever it stands. -/
def replace (c : Char) (text : List Char) (cs : List Char) : List Char :=
  cs.flatMap fun d => if d = c then text else [d]

/-- Escaping replaces backslashes first, so that no later replacement doubles the backslash of an
earlier one. -/
theorem flatMap_escapeChar (cs : List Char) :
    cs.flatMap escapeChar =
      replace '\n' ['\\', 'n'] (replace '"' ['\\', '"'] (replace '\\' ['\\', '\\'] cs)) := by
  simp only [replace, List.flatMap_assoc]
  refine List.flatMap_congr fun c _ => ?_
  unfold escapeChar
  split_ifs with hslash hquote hfeed <;> simp [*]

theorem toList_escape (text : String) : (escape text).toList = text.toList.flatMap escapeChar := by
  rw [escape, String.toList_ofList]

/-! Reading back. -/

/-- Undoes the backslashes of a label. -/
def unescape : List Char → List Char
  | [] => []
  | '\\' :: 'n' :: cs => '\n' :: unescape cs
  | '\\' :: c :: cs => c :: unescape cs
  | c :: cs => c :: unescape cs

theorem unescape_cons {c : Char} (h : c ≠ '\\') (cs : List Char) :
    unescape (c :: cs) = c :: unescape cs := by
  rw [unescape]
  · rintro _ rfl
    exact absurd rfl h
  · rintro _ _ rfl
    exact absurd rfl h

theorem unescape_flatMap_escapeChar (cs : List Char) :
    unescape (cs.flatMap escapeChar) = cs := by
  induction cs with
  | nil => rfl
  | cons c cs ih =>
    rw [List.flatMap_cons, escapeChar]
    split_ifs with hslash hquote hfeed
    · simp [unescape, ih, hslash]
    · simp [unescape, ih, hquote]
    · simp [unescape, ih, hfeed]
    · rw [List.singleton_append, unescape_cons hslash, ih]

/-! Closing quotes. -/

/-- The number of backslashes at the end of a text. -/
def slashes (cs : List Char) : Nat := (cs.reverse.takeWhile (· = '\\')).length

theorem slashes_append_slash (cs : List Char) : slashes (cs ++ ['\\']) = slashes cs + 1 := by
  simp [slashes]

theorem slashes_append_of_ne {c : Char} (h : c ≠ '\\') (cs : List Char) :
    slashes (cs ++ [c]) = 0 := by
  simp [slashes, h]

/-- Whether a text behind an opening quote is closed after `body`: by the first quote that does not
stand behind an odd number of backslashes. -/
structure Closes (text body after : List Char) : Prop where
  split : text = body ++ '"' :: after
  closing : Even (slashes body)
  inner : ∀ before more, body = before ++ '"' :: more → Odd (slashes before)

/-- A text is closed in one place at most. -/
theorem Closes.unique {text body body' after after' : List Char} (h : Closes text body after)
    (h' : Closes text body' after') : body = body' ∧ after = after' := by
  have hsplit : body ++ '"' :: after = body' ++ '"' :: after' := h.split.symm.trans h'.split
  rcases List.append_eq_append_iff.1 hsplit with ⟨more, hbody, hafter⟩ | ⟨more, hbody, hafter⟩
  · cases more with
    | nil => exact ⟨by simpa using hbody.symm, List.tail_eq_of_cons_eq hafter⟩
    | cons c more =>
      obtain ⟨rfl, -⟩ := List.cons.inj hafter
      exact absurd h.closing (Nat.not_even_iff_odd.2 (h'.inner body more hbody))
  · cases more with
    | nil => exact ⟨by simpa using hbody, (List.tail_eq_of_cons_eq hafter).symm⟩
    | cons c more =>
      obtain ⟨rfl, -⟩ := List.cons.inj hafter
      exact absurd h'.closing (Nat.not_even_iff_odd.2 (h.inner body' more hbody))

/-- The only character that is written with a quote is the quote, behind one backslash. -/
theorem eq_of_escapeChar_eq_append {c : Char} {before more : List Char}
    (h : escapeChar c = before ++ '"' :: more) : before = ['\\'] := by
  have hmem : '"' ∈ escapeChar c := by simp [h]
  obtain rfl : c = '"' := by
    unfold escapeChar at hmem
    split_ifs at hmem with hslash hquote hfeed
    · exact absurd hmem (by decide)
    · exact hquote
    · exact absurd hmem (by decide)
    · exact (List.mem_singleton.1 hmem).symm
  rcases before with _ | ⟨d, _ | ⟨e, before⟩⟩
  · exact absurd (List.cons.inj h).1 (by decide)
  · rw [← (List.cons.inj h).1]
  · exact absurd (congrArg List.length h) (by simp [escapeChar])

theorem even_slashes_append_escapeChar {cs : List Char} (h : Even (slashes cs)) (c : Char) :
    Even (slashes (cs ++ escapeChar c)) := by
  unfold escapeChar
  split_ifs with hslash hquote hfeed
  · rw [← List.singleton_append, ← List.append_assoc, slashes_append_slash, slashes_append_slash]
    exact h.add_one.add_one
  · rw [← List.singleton_append, ← List.append_assoc, slashes_append_of_ne (by decide)]
    exact Even.zero
  · rw [← List.singleton_append, ← List.append_assoc, slashes_append_of_ne (by decide)]
    exact Even.zero
  · rw [slashes_append_of_ne hslash]
    exact Even.zero

theorem even_slashes_flatMap_escapeChar (cs : List Char) :
    Even (slashes (cs.flatMap escapeChar)) := by
  induction cs using List.reverseRecOn with
  | nil => exact Even.zero
  | append_singleton cs c ih =>
    rw [List.flatMap_append, List.flatMap_singleton]
    exact even_slashes_append_escapeChar ih c

/-- Inside an escaped text a quote stands behind an odd number of backslashes. -/
theorem odd_slashes_of_flatMap_escapeChar {cs before more : List Char}
    (h : cs.flatMap escapeChar = before ++ '"' :: more) : Odd (slashes before) := by
  induction cs using List.reverseRecOn generalizing before more with
  | nil => simp at h
  | append_singleton cs c ih =>
    rw [List.flatMap_append, List.flatMap_singleton] at h
    rcases List.append_eq_append_iff.1 h with ⟨within, hbefore, hc⟩ | ⟨within, hcs, hmore⟩
    · rw [eq_of_escapeChar_eq_append hc] at hbefore
      rw [hbefore, slashes_append_slash]
      exact (even_slashes_flatMap_escapeChar cs).add_one
    · cases within with
      | nil =>
        have hc : escapeChar c = [] ++ '"' :: more := hmore.symm
        exact absurd (eq_of_escapeChar_eq_append hc) (by simp)
      | cons d within =>
        obtain ⟨rfl, -⟩ := List.cons.inj hmore
        exact ih hcs

/-- An escaped text is closed by the quote that follows it. -/
theorem closes_escape (text : String) (after : List Char) :
    Closes ((escape text).toList ++ '"' :: after) (escape text).toList after where
  split := rfl
  closing := by
    rw [toList_escape]
    exact even_slashes_flatMap_escapeChar _
  inner before more h := by
    rw [toList_escape] at h
    exact odd_slashes_of_flatMap_escapeChar h

theorem unescape_escape (text : String) : unescape (escape text).toList = text.toList := by
  rw [toList_escape, unescape_flatMap_escapeChar]

theorem escape_injective {s t : String} (h : escape s = escape t) : s = t := by
  rw [← String.toList_inj, ← unescape_escape s, h, unescape_escape]

end Formulary.Dot
