import Formulary.Diagnostics.Record
import Formulary.Proofs.Text.Code
import Mathlib.Tactic.SplitIfs

/-!
Where the text of a point in time ends. Its numbers stand between other characters, and on a clock
the last of them has two digits, so that nothing which is written right behind the text is taken
for a part of it.
-/

namespace Formulary.Timestamp

open Text

variable {t u : Timestamp} {c : Char}

theorem isDigit_of_mem_padded {width n : Nat} (h : c ∈ (padded width n).toList) :
    c.isDigit = true := by
  rw [padded, String.toList_append, String.toList_ofList] at h
  rcases List.mem_append.1 h with h | h
  · rw [List.eq_of_mem_replicate h]
    rfl
  · exact isDigit_of_mem_decimal h

theorem length_padded_two {n : Nat} (h : n < 100) : (padded 2 n).toList.length = 2 := by
  have hle : (decimal n).length ≤ 2 := by
    rw [decimal, String.length_ofList]
    exact (Nat.length_toDigits_le_iff (by decide) (by decide)).2 h
  rw [padded, String.toList_append, String.toList_ofList, List.length_append, List.length_replicate,
    String.length_toList]
  omega

theorem toList_padded_ne_nil (width n : Nat) : (padded width n).toList ≠ [] := by
  rw [padded, String.toList_append]
  exact List.append_ne_nil_of_right_ne_nil _ (toList_decimal_ne_nil n)

theorem mem_of_mem_head?_append {run rest : List Char} (hne : run ≠ [])
    (h : c ∈ (run ++ rest).head?) : c ∈ run := by
  cases run with
  | nil => exact absurd rfl hne
  | cons d run =>
    obtain rfl : d = c := by simpa using h
    exact List.mem_cons_self

/-- Whether characters are neither digits nor slashes. -/
def Marks (cs : List Char) : Prop := ∀ c ∈ cs, c.isDigit = false ∧ c ≠ '/'

theorem marks_monthName (month : Nat) : Marks (monthName month).toList := by
  unfold monthName
  split <;> simp [Marks]

theorem exists_sign (year : Int) :
    ∃ sign, Marks sign ∧ (yearText year).toList = sign ++ (padded 4 year.natAbs).toList := by
  unfold yearText
  split_ifs
  · exact ⟨['-'], by simp [Marks], String.toList_append⟩
  · exact ⟨['+'], by simp [Marks], String.toList_append⟩
  · exact ⟨[], by simp [Marks], (List.nil_append _).symm⟩

/-- A point in time is written as numbers with marks between them. -/
theorem exists_marks (t : Timestamp) :
    ∃ marks, Marks marks ∧ marks ≠ [] ∧ t.text.toList =
      (padded 2 t.day).toList ++ (marks ++ ((padded 4 t.year.natAbs).toList ++
        '-' :: ((padded 2 t.hour).toList ++ ':' :: ((padded 2 t.minute).toList ++
          ':' :: (padded 2 t.second).toList)))) := by
  obtain ⟨sign, hsign, hyear⟩ := exists_sign t.year
  refine ⟨'-' :: ((monthName t.month).toList ++ '-' :: sign), ?_, List.cons_ne_nil _ _, ?_⟩
  · have hdash : '-'.isDigit = false ∧ '-' ≠ '/' := by decide
    refine List.forall_mem_cons.2 ⟨hdash, List.forall_mem_append.2 ⟨marks_monthName _, ?_⟩⟩
    exact List.forall_mem_cons.2 ⟨hdash, hsign⟩
  · simp [text, hyear]

theorem slash_not_mem_text (t : Timestamp) : '/' ∉ t.text.toList := by
  have hdigits (width n : Nat) : '/' ∉ (padded width n).toList := by
    intro h
    exact absurd (isDigit_of_mem_padded h) (by decide)
  obtain ⟨marks, hmarks, -, htext⟩ := t.exists_marks
  have hmark : '/' ∉ marks := fun h => (hmarks '/' h).2 rfl
  simp [htext, hdigits, hmark]

/-- The text of a point in time is told from what is written right behind it. -/
theorem text_cancel {rest rest' : List Char} (ht : t.second < 100) (hu : u.second < 100)
    (h : t.text.toList ++ rest = u.text.toList ++ rest') : t.text = u.text ∧ rest = rest' := by
  obtain ⟨marks, hmarks, hne, htext⟩ := t.exists_marks
  obtain ⟨marks', hmarks', hne', htext'⟩ := u.exists_marks
  have hdigits (width n : Nat) : ∀ c ∈ (padded width n).toList, c.isDigit = true := fun _ =>
    isDigit_of_mem_padded
  have hnumber (width n : Nat) (rest : List Char) :
      ∀ c ∈ ((padded width n).toList ++ rest).head?, (! c.isDigit) = false := by
    intro c hc
    rw [isDigit_of_mem_padded (mem_of_mem_head?_append (toList_padded_ne_nil width n) hc)]
    rfl
  have hmarkRun {marks : List Char} (hmarks : Marks marks) :
      ∀ c ∈ marks, (fun c : Char => ! c.isDigit) c = true := by
    intro c hc
    simp [hmarks c hc]
  have hmark {marks : List Char} (hmarks : Marks marks) (hne : marks ≠ []) (rest : List Char) :
      NoDigit (marks ++ rest) := fun c hc => (hmarks c (mem_of_mem_head?_append hne hc)).1
  have hdash (rest : List Char) : NoDigit ('-' :: rest) := .cons (by decide) rest
  have hcolon (rest : List Char) : NoDigit (':' :: rest) := .cons (by decide) rest
  rw [← String.toList_inj]
  rw [htext, htext'] at h ⊢
  simp only [List.append_assoc, List.cons_append] at h
  obtain ⟨hday, h⟩ := run_cancel (hdigits _ _) (hdigits _ _) (hmark hmarks hne _)
    (hmark hmarks' hne' _) h
  obtain ⟨hmarks, h⟩ := run_cancel (hmarkRun hmarks) (hmarkRun hmarks') (hnumber _ _ _)
    (hnumber _ _ _) h
  obtain ⟨hyear, h⟩ := run_cancel (hdigits _ _) (hdigits _ _) (hdash _) (hdash _) h
  obtain ⟨hhour, h⟩ := run_cancel (hdigits _ _) (hdigits _ _) (hcolon _) (hcolon _)
    (List.cons.inj h).2
  obtain ⟨hminute, h⟩ := run_cancel (hdigits _ _) (hdigits _ _) (hcolon _) (hcolon _)
    (List.cons.inj h).2
  have hlength : (padded 2 t.second).toList.length = (padded 2 u.second).toList.length := by
    rw [length_padded_two ht, length_padded_two hu]
  obtain ⟨hsecond, hrest⟩ := List.append_inj (List.cons.inj h).2 hlength
  exact ⟨by rw [hday, hmarks, hyear, hhour, hminute, hsecond], hrest⟩

end Formulary.Timestamp
