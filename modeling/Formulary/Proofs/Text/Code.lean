import Formulary.Text
import Mathlib.Data.List.TakeWhile

/-!
Texts that tell where they end. A value whose text differs from the beginning of any other value's
text can be read back from in front of whatever follows it; so can a row of such values, up to a
character with which none of their texts begins.
-/

namespace Formulary.Text

variable {α : Type}

/-- Whether a value is known by its text, also in front of other text that may stand there. -/
def Told (follows : List Char → Prop) (write : α → List Char) (x : α) : Prop :=
  ∀ y rest rest', follows rest → follows rest' → write x ++ rest = write y ++ rest' →
    x = y ∧ rest = rest'

/-- A value is known by its text if it can be read back from it. -/
theorem told_of_read {follows : List Char → Prop} {write : α → List Char}
    {read : List Char → Option (α × List Char)}
    (h : ∀ x rest, follows rest → read (write x ++ rest) = some (x, rest)) (x : α) :
    Told follows write x := by
  intro y rest rest' hrest hrest' heq
  have hread := h x rest hrest
  rw [heq, h y rest' hrest', Option.some.injEq, Prod.mk.injEq] at hread
  exact ⟨hread.1.symm, hread.2.symm⟩

/-- The same text in front of all values makes no difference. -/
theorem Told.behind {follows : List Char → Prop} {write : α → List Char} {x : α}
    (h : Told follows write x) (before : List Char) :
    Told follows (fun x => before ++ write x) x := by
  intro y rest rest' hrest hrest' heq
  simp only [List.append_assoc] at heq
  exact h y rest rest' hrest hrest' (List.append_cancel_left heq)

/-- Two values are known one after the other. -/
theorem Told.pair {β : Type} {follows follows' : List Char → Prop} {write : α → List Char}
    {write' : β → List Char} {x : α} {y : β} (hx : Told follows write x)
    (hy : Told follows' write' y)
    (hnext : ∀ y rest, follows' rest → follows (write' y ++ rest)) :
    Told follows' (fun p : α × β => write p.1 ++ write' p.2) (x, y) := by
  rintro ⟨z, w⟩ rest rest' hrest hrest' heq
  simp only [List.append_assoc] at heq
  obtain ⟨rfl, hafter⟩ := hx z _ _ (hnext y rest hrest) (hnext w rest' hrest') heq
  obtain ⟨rfl, rfl⟩ := hy w rest rest' hrest hrest' hafter
  exact ⟨rfl, rfl⟩

/-- Values in a row are known one by one up to the character that ends the row. -/
theorem told_flatMap {follows : List Char → Prop} {write : α → List Char} {stop : Char}
    {xs ys : List α} {rest rest' : List Char} (htold : ∀ x ∈ xs, Told follows write x)
    (hnext : ∀ x more, follows (write x ++ more)) (hlast : ∀ more, follows (stop :: more))
    (hstop : ∀ x more more', write x ++ more ≠ stop :: more')
    (h : xs.flatMap write ++ stop :: rest = ys.flatMap write ++ stop :: rest') :
    xs = ys ∧ rest = rest' := by
  have hfollows (zs : List α) (more : List Char) : follows (zs.flatMap write ++ stop :: more) := by
    cases zs with
    | nil => exact hlast more
    | cons z zs =>
      rw [List.flatMap_cons, List.append_assoc]
      exact hnext z _
  induction xs generalizing ys with
  | nil =>
    cases ys with
    | nil => exact ⟨rfl, List.tail_eq_of_cons_eq h⟩
    | cons y ys =>
      rw [List.flatMap_cons, List.append_assoc] at h
      exact absurd h.symm (hstop y _ rest)
  | cons x xs ih =>
    cases ys with
    | nil =>
      rw [List.flatMap_cons, List.append_assoc] at h
      exact absurd h (hstop x _ rest')
    | cons y ys =>
      obtain ⟨hx, hxs⟩ := List.forall_mem_cons.1 htold
      rw [List.flatMap_cons, List.flatMap_cons, List.append_assoc, List.append_assoc] at h
      obtain ⟨rfl, hmore⟩ := hx y _ _ (hfollows xs rest) (hfollows ys rest') h
      obtain ⟨rfl, rfl⟩ := ih hxs hmore
      exact ⟨rfl, rfl⟩

/-! Numerals. -/

theorem isDigit_of_mem_decimal {n : Nat} {c : Char} (h : c ∈ (decimal n).toList) :
    c.isDigit = true := by
  rw [decimal, String.toList_ofList] at h
  exact Nat.isDigit_of_mem_toDigits (by decide) (by decide) h

theorem toList_decimal_ne_nil (n : Nat) : (decimal n).toList ≠ [] := by
  rw [decimal, String.toList_ofList]
  exact Nat.toDigits_ne_nil

/-- Whether a text does not go on with a digit. -/
def NoDigit (cs : List Char) : Prop := ∀ c ∈ cs.head?, c.isDigit = false

theorem NoDigit.cons {c : Char} (h : c.isDigit = false) (cs : List Char) : NoDigit (c :: cs) := by
  intro d hd
  obtain rfl : c = d := by simpa using hd
  exact h

/-- The characters of one sort at the beginning of a text are those of a run, if no more follow. -/
theorem takeWhile_run {sort : Char → Bool} {run rest : List Char} (hrun : ∀ c ∈ run, sort c = true)
    (hrest : ∀ c ∈ rest.head?, sort c = false) : (run ++ rest).takeWhile sort = run := by
  have hnone : rest.takeWhile sort = [] := by
    cases rest with
    | nil => rfl
    | cons c rest => exact List.takeWhile_cons_of_neg (by simp [hrest c rfl])
  rw [List.takeWhile_append_of_pos hrun, hnone, List.append_nil]

/-- Runs of characters of one sort are told from what follows them. -/
theorem run_cancel {sort : Char → Bool} {run run' rest rest' : List Char}
    (hrun : ∀ c ∈ run, sort c = true) (hrun' : ∀ c ∈ run', sort c = true)
    (hrest : ∀ c ∈ rest.head?, sort c = false) (hrest' : ∀ c ∈ rest'.head?, sort c = false)
    (h : run ++ rest = run' ++ rest') : run = run' ∧ rest = rest' := by
  have hsame : run = run' := by rw [← takeWhile_run hrun hrest, h, takeWhile_run hrun' hrest']
  rw [hsame] at h
  exact ⟨hsame, List.append_cancel_left h⟩

theorem decimal_injective {m n : Nat} (h : decimal m = decimal n) : m = n := by
  have hdigits : Nat.toDigits 10 m = Nat.toDigits 10 n := String.ofList_injective h
  calc
    m = Nat.ofDigitChars 10 (Nat.toDigits 10 m) 0 := Nat.ofDigitChars_ten_toDigits.symm
    _ = Nat.ofDigitChars 10 (Nat.toDigits 10 n) 0 := by rw [hdigits]
    _ = n := Nat.ofDigitChars_ten_toDigits

/-- A number is known by its numeral where no digit follows. -/
theorem told_decimal (n : Nat) : Told NoDigit (fun n => (decimal n).toList) n := by
  intro m rest rest' hrest hrest' h
  simp only at h
  obtain ⟨hdigits, hsame⟩ := run_cancel (fun _ => isDigit_of_mem_decimal)
    (fun _ => isDigit_of_mem_decimal) hrest hrest' h
  exact ⟨decimal_injective (String.toList_inj.1 hdigits), hsame⟩

end Formulary.Text
