import Formulary.Path

/-!
Text of the system as it is shown. What is UTF-8 is shown as it is. Showing never makes a text
shorter, and a slash that is shown is one.
-/

namespace Formulary.OsText

open Formulary.Path (slash)

variable {bytes rest : List UInt8} {c : Char} {cs : List Char} {s s' : String} {t : OsText}

/-! Bytes of texts. -/

theorem bytes_ofString_append (s s' : String) :
    (ofString (s ++ s')).bytes = (ofString s).bytes ++ (ofString s').bytes := by
  simp [ofString]

theorem bytes_ofString (s : String) : (ofString s).bytes = s.toByteArray.data.toList := by
  rw [← String.utf8Encode_toList, List.utf8Encode, List.data_toByteArray]
  rfl

theorem ofString_injective (h : ofString s = ofString s') : s = s' := by
  have hbytes := congrArg bytes h
  rw [bytes_ofString, bytes_ofString, Array.toList_inj] at hbytes
  exact String.toByteArray_inj.1 (ByteArray.ext hbytes)

theorem bytes_ofString_ne_nil (h : s ≠ "") : (ofString s).bytes ≠ [] := by
  intro hnil
  have hempty : ofString s = ofString "" := OsText.mk.injEq .. ▸ hnil
  exact h (ofString_injective hempty)

theorem eq_ofString_of_text? (h : t.text? = some s) : t = ofString s := by
  rw [text?, String.fromUTF8?] at h
  split at h
  · cases h
    rw [OsText.mk.injEq, bytes_ofString]
    simp [String.fromUTF8, List.data_toByteArray]
  · cases h

/-- A slash is no part of another character. -/
theorem eq_of_slash_mem_utf8EncodeChar (h : slash ∈ String.utf8EncodeChar c) : c = '/' := by
  have hslash : slash.toNat = 47 := rfl
  have hval : c.val.toNat = 47 := by
    rw [String.utf8EncodeChar] at h
    repeat' split at h
    all_goals
      simp only [List.mem_cons, List.not_mem_nil, or_false, ← UInt8.toNat_inj,
        UInt8.toNat_ofNat', hslash] at h
      omega
  exact Char.ext (UInt32.toNat_inj.1 hval)

theorem slash_not_mem_ofString (h : '/' ∉ s.toList) : slash ∉ (ofString s).bytes := by
  intro hmem
  obtain ⟨c, hc, hslash⟩ := List.mem_flatMap.1 hmem
  exact h (eq_of_slash_mem_utf8EncodeChar hslash ▸ hc)

/-! Reading characters. -/

/-- What characters some bytes are read as: either they are a character that is written, or at most
three of them are replaced by one. -/
inductive Reads : List UInt8 → List Char → Prop
  | nil : Reads [] []
  | char (c : Char) {rest : List UInt8} {cs : List Char} (after : Reads rest cs) :
      Reads (String.utf8EncodeChar c ++ rest) (c :: cs)
  | broken {wrong rest : List UInt8} {cs : List Char} (length : wrong.length ≤ 3)
      (after : Reads rest cs) : Reads (wrong ++ rest) (replacement :: cs)

theorem brokenLength_bounds (bytes : List UInt8) :
    1 ≤ brokenLength bytes ∧ brokenLength bytes ≤ 3 := by
  unfold brokenLength
  split
  · split
    · decide
    · split <;> decide
  · decide

theorem readChar_append (c : Char) (rest : List UInt8) :
    readChar (String.utf8EncodeChar c ++ rest) = (c, c.utf8Size) := by
  rw [readChar, List.toByteArray_append, ByteArray.utf8DecodeChar?_utf8EncodeChar_append]

/-- The first of some bytes are a character, or they are broken. -/
theorem readChar_cases (bytes : List UInt8) :
    (∃ c rest, bytes = String.utf8EncodeChar c ++ rest) ∨
      readChar bytes = (replacement, brokenLength bytes) := by
  cases h : bytes.toByteArray.utf8DecodeChar? 0 with
  | none => exact .inr (by rw [readChar, h])
  | some c =>
    obtain ⟨rest, hrest⟩ := ByteArray.exists_of_utf8DecodeChar?_eq_some h
    refine .inl ⟨c, rest.data.toList, ?_⟩
    simpa [List.data_toByteArray] using congrArg (·.data.toList) hrest

theorem readChars_eq_drop (done : Nat) (bytes : List UInt8) :
    readChars done bytes = readChars 0 (bytes.drop done) := by
  induction done generalizing bytes with
  | zero => rfl
  | succ done ih =>
    cases bytes with
    | nil => simp [readChars]
    | cons byte bytes => exact ih bytes

theorem readChars_cons {byte : UInt8} {length : Nat} (h : readChar (byte :: bytes) = (c, length))
    (hlength : 1 ≤ length) :
    readChars 0 (byte :: bytes) = c :: readChars 0 ((byte :: bytes).drop length) := by
  obtain ⟨length, rfl⟩ := Nat.exists_eq_add_of_le' hlength
  rw [readChars, h, List.drop_succ_cons, ← readChars_eq_drop]
  rfl

theorem readChars_append (c : Char) (rest : List UInt8) :
    readChars 0 (String.utf8EncodeChar c ++ rest) = c :: readChars 0 rest := by
  have hread := readChar_append c rest
  have hrest : (String.utf8EncodeChar c ++ rest).drop c.utf8Size = rest :=
    List.drop_left' (String.length_utf8EncodeChar c)
  cases hbytes : String.utf8EncodeChar c ++ rest with
  | nil =>
    have hlength := String.length_utf8EncodeChar c
    have hpos := c.utf8Size_pos
    simp_all
  | cons byte bytes =>
    rw [hbytes] at hread hrest
    rw [readChars_cons hread c.utf8Size_pos, hrest]

theorem reads_readChars (bytes : List UInt8) : Reads bytes (readChars 0 bytes) := by
  induction hn : bytes.length using Nat.strongRecOn generalizing bytes with
  | ind n ih =>
    obtain ⟨c, rest, rfl⟩ | hbroken := readChar_cases bytes
    · rw [readChars_append]
      have hlength := String.length_utf8EncodeChar c
      have hpos := c.utf8Size_pos
      rw [List.length_append] at hn
      exact .char c (ih rest.length (by omega) rest rfl)
    · obtain ⟨hpos, hle⟩ := brokenLength_bounds bytes
      cases bytes with
      | nil => exact .nil
      | cons byte bytes =>
        rw [readChars_cons hbroken hpos]
        have hsplit := List.take_append_drop (brokenLength (byte :: bytes)) (byte :: bytes)
        conv => lhs; rw [← hsplit]
        have hlt : ((byte :: bytes).drop (brokenLength (byte :: bytes))).length < n := by
          rw [List.length_drop, hn, ← hn, List.length_cons]
          omega
        exact .broken (Nat.le_trans (List.length_take_le _ _) hle) (ih _ hlt _ rfl)

theorem Reads.length_le (h : Reads bytes cs) :
    bytes.length ≤ (cs.flatMap String.utf8EncodeChar).length := by
  induction h with
  | nil => exact Nat.le_refl 0
  | char c _ ih => simpa using ih
  | broken hwrong _ ih =>
    have hreplacement : (String.utf8EncodeChar replacement).length = 3 := rfl
    rw [List.flatMap_cons, List.length_append, List.length_append, hreplacement]
    omega

theorem Reads.slash_mem (h : Reads bytes cs) (hslash : '/' ∈ cs) : slash ∈ bytes := by
  induction h with
  | nil => cases hslash
  | char c _ ih =>
    rcases List.mem_cons.1 hslash with rfl | hslash
    · exact List.mem_append_left _ (by decide)
    · exact List.mem_append_right _ (ih hslash)
  | broken _ _ ih =>
    rcases List.mem_cons.1 hslash with hreplacement | hslash
    · exact absurd hreplacement (by decide)
    · exact List.mem_append_right _ (ih hslash)

/-! Shown text. -/

theorem shown_ofString (s : String) : (ofString s).shown = s := by
  rw [shown, ← String.toList_inj, String.toList_ofList, ofString]
  generalize s.toList = cs
  induction cs with
  | nil => rfl
  | cons c cs ih => rw [List.flatMap_cons, readChars_append, ih]

theorem length_le_shown (t : OsText) : t.bytes.length ≤ (ofString t.shown).bytes.length := by
  have hle := (reads_readChars t.bytes).length_le
  rwa [ofString, shown, String.toList_ofList]

theorem slash_not_mem_shown (h : slash ∉ t.bytes) : '/' ∉ t.shown.toList := by
  rw [shown, String.toList_ofList]
  exact fun hslash => h ((reads_readChars t.bytes).slash_mem hslash)

end Formulary.OsText
