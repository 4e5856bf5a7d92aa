import Formulary.Text
import Mathlib.Data.List.Induction
import Mathlib.Data.List.TakeWhile
import Mathlib.Data.Nat.Digits.Defs

/-!
Counts in a text. Reading gives a number exactly where a numeral for it stands between blanks, so
each text holds one count at most.
-/

namespace Formulary.Text

/-- Whether characters are a numeral: one plus sign at most, then at least one digit. -/
def Spells (cs : List Char) (n : Nat) : Prop :=
  ∃ sign digits, cs = sign ++ digits ∧ (sign = [] ∨ sign = ['+']) ∧ digits ≠ [] ∧
    (∀ c ∈ digits, c.isDigit = true) ∧ Nat.ofDigits 10 (digits.reverse.map digitValue) = n

/-- Whether characters are blanks around a numeral of sixty-four bits. -/
def Holds (cs : List Char) (n : Nat) : Prop :=
  ∃ before numeral after, cs = before ++ (numeral ++ after) ∧ (∀ c ∈ before, isBlank c = true) ∧
    (∀ c ∈ after, isBlank c = true) ∧ Spells numeral n ∧ n < 2 ^ 64

/-! Numerals. -/

/-- The last digit counts once, those before it ten times. -/
theorem digitsValue_eq_ofDigits (cs : List Char) :
    digitsValue cs = Nat.ofDigits 10 (cs.reverse.map digitValue) := by
  induction cs using List.reverseRecOn with
  | nil => rfl
  | append_singleton cs c ih =>
    have hlast : digitsValue (cs ++ [c]) = 10 * digitsValue cs + digitValue c := by
      simp [digitsValue]
    rw [hlast, ih, List.reverse_append, List.reverse_singleton, List.singleton_append,
      List.map_cons, Nat.ofDigits_cons]
    simp [Nat.add_comm]

theorem unsigned_of_ne {c : Char} (h : c ≠ '+') (cs : List Char) :
    unsigned (c :: cs) = c :: cs := by
  unfold unsigned
  split
  · next heq =>
    obtain ⟨rfl, -⟩ := List.cons.inj heq
    exact absurd rfl h
  · rfl

theorem unsigned_plus (cs : List Char) : unsigned ('+' :: cs) = cs := rfl

/-- What is left without the sign, with the sign that was there. -/
theorem exists_sign (cs : List Char) :
    ∃ sign, (sign = [] ∨ sign = ['+']) ∧ cs = sign ++ unsigned cs := by
  cases cs with
  | nil => exact ⟨[], .inl rfl, rfl⟩
  | cons c cs =>
    by_cases h : c = '+'
    · subst h
      exact ⟨['+'], .inr rfl, rfl⟩
    · exact ⟨[], .inl rfl, by rw [unsigned_of_ne h, List.nil_append]⟩

theorem ne_plus_of_isDigit {c : Char} (h : c.isDigit = true) : c ≠ '+' := by
  rintro rfl
  exact absurd h (by decide)

theorem unsigned_append {sign digits : List Char} (hsign : sign = [] ∨ sign = ['+'])
    (hdigits : ∀ c ∈ digits, c.isDigit = true) : unsigned (sign ++ digits) = digits := by
  rcases hsign with rfl | rfl
  · cases digits with
    | nil => rfl
    | cons c cs => exact unsigned_of_ne (ne_plus_of_isDigit (hdigits c (by simp))) cs
  · exact unsigned_plus digits

theorem count?_eq_some_iff (cs : List Char) (n : Nat) :
    count? cs = some n ↔ Spells cs n ∧ n < 2 ^ 64 := by
  have hmax : ∀ k, k ≤ maxCount ↔ k < 2 ^ 64 := by
    intro k
    unfold maxCount
    omega
  constructor
  · intro h
    obtain ⟨sign, hsign, hcs⟩ := exists_sign cs
    simp only [count?, Option.ite_none_right_eq_some, Option.some.injEq, List.all_eq_true] at h
    obtain ⟨⟨hne, hdigits, hle⟩, hvalue⟩ := h
    rw [hvalue, hmax] at hle
    rw [digitsValue_eq_ofDigits] at hvalue
    exact ⟨⟨sign, unsigned cs, hcs, hsign, hne, hdigits, hvalue⟩, hle⟩
  · rintro ⟨⟨sign, digits, rfl, hsign, hne, hdigits, hvalue⟩, hlt⟩
    rw [← digitsValue_eq_ofDigits] at hvalue
    have hle : digitsValue digits ≤ maxCount := by rwa [hvalue, hmax]
    have hall : digits.all Char.isDigit = true := List.all_eq_true.2 hdigits
    rw [count?, unsigned_append hsign hdigits, if_pos ⟨hne, hall, hle⟩, hvalue]

/-! Blanks around a numeral. -/

/-- Every text is its trimmed form with blanks around. -/
theorem exists_blanks_around (cs : List Char) :
    ∃ before after, cs = before ++ (trim cs ++ after) ∧ (∀ c ∈ before, isBlank c = true) ∧
      ∀ c ∈ after, isBlank c = true := by
  have hleft : cs = cs.takeWhile isBlank ++ trimLeft cs := List.takeWhile_append_dropWhile.symm
  have hright : trimLeft cs = trim cs ++ ((trimLeft cs).reverse.takeWhile isBlank).reverse := by
    rw [trim, ← List.reverse_append, trimLeft.eq_def (trimLeft cs).reverse,
      List.takeWhile_append_dropWhile, List.reverse_reverse]
  refine ⟨cs.takeWhile isBlank, ((trimLeft cs).reverse.takeWhile isBlank).reverse, ?_, ?_, ?_⟩
  · rw [← hright, ← hleft]
  · exact fun c hc => List.mem_takeWhile_imp hc
  · exact fun c hc => List.mem_takeWhile_imp (List.mem_reverse.1 hc)

theorem trimLeft_append {before cs : List Char} (hbefore : ∀ c ∈ before, isBlank c = true)
    (hcs : ∀ c ∈ cs.head?, isBlank c = false) : trimLeft (before ++ cs) = cs := by
  rw [trimLeft, List.dropWhile_append_of_pos hbefore]
  cases cs with
  | nil => rfl
  | cons c cs =>
    have hc : ¬ isBlank c = true := by simpa using hcs c rfl
    exact List.dropWhile_cons_of_neg hc

/-- Blanks around a text that neither starts nor ends with one are cut off, and no more. -/
theorem trim_eq {before cs after : List Char} (hbefore : ∀ c ∈ before, isBlank c = true)
    (hafter : ∀ c ∈ after, isBlank c = true) (hne : cs ≠ [])
    (hcs : ∀ c ∈ cs, isBlank c = false) : trim (before ++ (cs ++ after)) = cs := by
  have hhead : ∀ c ∈ (cs ++ after).head?, isBlank c = false := by
    obtain ⟨d, ds, rfl⟩ := List.exists_cons_of_ne_nil hne
    simpa using hcs d (by simp)
  have hlast : ∀ c ∈ cs.reverse.head?, isBlank c = false := by
    intro c hc
    exact hcs c (List.mem_reverse.1 (List.mem_of_mem_head? hc))
  have hback : ∀ c ∈ after.reverse, isBlank c = true := fun c hc => hafter c (List.mem_reverse.1 hc)
  rw [trim, trimLeft_append hbefore hhead, List.reverse_append, trimLeft_append hback hlast,
    List.reverse_reverse]

theorem isBlank_eq_false_of_isDigit {c : Char} (h : c.isDigit = true) : isBlank c = false := by
  simp only [Char.isDigit, Bool.and_eq_true, decide_eq_true_eq, ge_iff_le] at h
  have hlow : 48 ≤ c.toNat := h.1
  have hhigh : c.toNat ≤ 57 := h.2
  rw [Bool.eq_false_iff]
  intro hblank
  simp [isBlank, blankRanges] at hblank
  omega

theorem Spells.ne_nil {cs : List Char} {n : Nat} (h : Spells cs n) : cs ≠ [] := by
  obtain ⟨sign, digits, rfl, -, hne, -, -⟩ := h
  simp [hne]

theorem Spells.not_blank {cs : List Char} {n : Nat} (h : Spells cs n) :
    ∀ c ∈ cs, isBlank c = false := by
  obtain ⟨sign, digits, rfl, hsign, -, hdigits, -⟩ := h
  intro c hc
  rcases List.mem_append.1 hc with hc | hc
  · rcases hsign with rfl | rfl
    · simp at hc
    · obtain rfl := List.mem_singleton.1 hc
      decide
  · exact isBlank_eq_false_of_isDigit (hdigits c hc)

/-- A trimmed text is read as a count exactly if the text holds it. -/
theorem count?_trim_eq_some_iff (cs : List Char) (n : Nat) :
    count? (trim cs) = some n ↔ Holds cs n := by
  rw [count?_eq_some_iff]
  constructor
  · rintro ⟨hspells, hlt⟩
    obtain ⟨before, after, hcs, hbefore, hafter⟩ := exists_blanks_around cs
    exact ⟨before, trim cs, after, hcs, hbefore, hafter, hspells, hlt⟩
  · rintro ⟨before, numeral, after, rfl, hbefore, hafter, hspells, hlt⟩
    rw [trim_eq hbefore hafter hspells.ne_nil hspells.not_blank]
    exact ⟨hspells, hlt⟩

end Formulary.Text
