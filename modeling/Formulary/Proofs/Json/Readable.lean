import Formulary.Proofs.Text.Code
import Formulary.Report

/-!
Values and their indented text. The text of a value tells where it ends, so no two values have the
same text: quotes inside a text are escaped, numerals end where no digit follows, and the first
character tells what shape a value has.
-/

namespace Formulary.Json

open Text

/-! Text between quotes. -/

def hexValue (c : Char) : Nat := if c.isDigit then c.toNat - '0'.toNat else c.toNat - 'a'.toNat + 10

theorem hexValue_hexDigit : ∀ n < 16, hexValue (hexDigit n) = n := by decide

/-- The character that is written with a letter behind a backslash. -/
def ofLetter (c : Char) : Char :=
  if c = 'n' then '\n' else if c = 'r' then '\r' else if c = 't' then '\t'
  else if c = 'b' then '\x08' else if c = 'f' then '\x0c' else c

/-- Reads a character as it is written between quotes. -/
def readChar : List Char → Option (Char × List Char)
  | '\\' :: 'u' :: '0' :: '0' :: high :: low :: rest =>
    some (Char.ofNat (16 * hexValue high + hexValue low), rest)
  | '\\' :: c :: rest => some (ofLetter c, rest)
  | c :: rest => some (c, rest)
  | [] => none

/-- The characters that are written with a backslash and a letter or themselves. -/
def named : List Char := ['"', '\\', '\n', '\r', '\t', '\x08', '\x0c']

theorem escapeChar_of_not_named {c : Char} (h : c ∉ named) :
    escapeChar c =
      if c.toNat < 0x20 then
        ['\\', 'u', '0', '0', hexDigit (c.toNat / 16), hexDigit (c.toNat % 16)]
      else [c] := by
  simp only [named, List.mem_cons, List.not_mem_nil, or_false, not_or] at h
  simp [escapeChar, h]

theorem readChar_escapeChar (c : Char) (rest : List Char) :
    readChar (escapeChar c ++ rest) = some (c, rest) := by
  by_cases h : c ∈ named
  · simp only [named, List.mem_cons, List.not_mem_nil, or_false] at h
    rcases h with rfl | rfl | rfl | rfl | rfl | rfl | rfl <;> rfl
  · have hslash : c ≠ '\\' := by
      rintro rfl
      exact h (by decide)
    rw [escapeChar_of_not_named h]
    split
    · next hcontrol =>
      have hhigh : c.toNat / 16 < 16 := by omega
      have hlow : c.toNat % 16 < 16 := Nat.mod_lt _ (by decide)
      simp only [List.cons_append, List.nil_append, readChar, hexValue_hexDigit _ hhigh,
        hexValue_hexDigit _ hlow, Nat.div_add_mod, Char.ofNat_toNat]
    · rw [List.singleton_append, readChar]
      · rintro _ _ _ rfl
        exact absurd rfl hslash
      · rintro _ _ rfl
        exact absurd rfl hslash

theorem escapeChar_append_ne (c : Char) (rest rest' : List Char) :
    escapeChar c ++ rest ≠ '"' :: rest' := by
  by_cases h : c ∈ named
  · simp only [named, List.mem_cons, List.not_mem_nil, or_false] at h
    rcases h with rfl | rfl | rfl | rfl | rfl | rfl | rfl <;>
      exact fun heq => absurd (List.cons.inj heq).1 (by decide)
  · rw [escapeChar_of_not_named h]
    split
    · exact fun heq => absurd (List.cons.inj heq).1 (by decide)
    · intro heq
      obtain ⟨rfl, -⟩ := List.cons.inj heq
      exact h (by decide)

theorem toList_quoted (s : String) :
    (quoted s).toList = '"' :: (s.toList.flatMap escapeChar ++ ['"']) := by
  simp [quoted]

/-- A text between quotes ends at the first quote that is not escaped, so anything may follow. -/
theorem told_quoted (s : String) : Told (fun _ => True) (fun s => (quoted s).toList) s := by
  intro t rest rest' _ _ h
  simp only [toList_quoted, List.cons_append, List.append_assoc, List.nil_append] at h
  have htold : ∀ c ∈ s.toList, Told (fun _ => True) escapeChar c :=
    fun c _ => told_of_read (fun c rest _ => readChar_escapeChar c rest) c
  obtain ⟨hchars, hrest⟩ := told_flatMap htold (fun _ _ => trivial) (fun _ => trivial)
    escapeChar_append_ne (List.cons.inj h).2
  exact ⟨String.toList_inj.1 hchars, hrest⟩

/-! Entries between brackets. -/

/-- An entry with the comma and the line feed in front of it. -/
def entry (level : Nat) (text : String) : List Char :=
  ',' :: '\n' :: ((indent (level + 1)).toList ++ text.toList)

theorem intercalate_cons (sep x : List Char) (xs : List (List Char)) :
    sep.intercalate (x :: xs) = x ++ xs.flatMap (sep ++ ·) := by
  induction xs generalizing x with
  | nil => simp
  | cons y xs ih => rw [List.intercalate_cons_cons, ih, List.flatMap_cons]; simp

theorem toList_bracketed (opening closing : String) (level : Nat) (text : String)
    (texts : List String) :
    (bracketed opening closing level (text :: texts)).toList =
      opening.toList ++ ((text :: texts).flatMap (entry level)).tail ++
        '\n' :: ((indent level).toList ++ closing.toList) := by
  have hsep : ",\n".toList = [',', '\n'] := rfl
  have hfeed : "\n".toList = ['\n'] := rfl
  rw [bracketed, if_neg (by simp)]
  simp [hsep, hfeed, String.toList_intercalate, intercalate_cons, entry, List.flatMap_map]
  rfl

section

variable {α : Type} {write : α → String} {level : Nat}

theorem told_entry {x : α} (h : Told NoDigit (fun x => (write x).toList) x) :
    Told NoDigit (fun x => entry level (write x)) x :=
  h.behind (',' :: '\n' :: (indent (level + 1)).toList)

/-- Brackets with nothing in them are closed at once, and no others are. -/
theorem bracketed_nil_ne {opening closing text : String} {c : Char} {texts : List String}
    {rest rest' : List Char} (hclosing : closing.toList = [c]) (hc : c ≠ '\n') :
    (bracketed opening closing level []).toList ++ rest ≠
      (bracketed opening closing level (text :: texts)).toList ++ rest' := by
  intro h
  have hempty : (bracketed opening closing level []).toList = opening.toList ++ [c] := by
    simp [bracketed, hclosing]
  simp only [hempty, toList_bracketed, List.append_assoc] at h
  exact hc (List.cons.inj (List.append_cancel_left h)).1

/-- Brackets are closed behind the last of their entries. With a comma put back in front of the
first one, they are all written alike. -/
theorem bracketed_cancel {opening closing : String} {c : Char} {xs ys : List α}
    {rest rest' : List Char} (hclosing : closing.toList = [c]) (hc : c ≠ '\n')
    (htold : ∀ x ∈ xs, Told NoDigit (fun x => (write x).toList) x)
    (h : (bracketed opening closing level (xs.map write)).toList ++ rest =
      (bracketed opening closing level (ys.map write)).toList ++ rest') :
    xs = ys ∧ rest = rest' := by
  cases xs with
  | nil =>
    cases ys with
    | nil => exact ⟨rfl, List.append_cancel_left h⟩
    | cons y ys => exact absurd h (bracketed_nil_ne hclosing hc)
  | cons x xs =>
    cases ys with
    | nil => exact absurd h.symm (bracketed_nil_ne hclosing hc)
    | cons y ys =>
      have hrow (zs : List α) : zs.flatMap (fun z => entry level (write z)) =
          (zs.map write).flatMap (entry level) := by rw [List.flatMap_map]
      simp only [List.map_cons, toList_bracketed, List.append_assoc] at h
      have hrows : (x :: xs).flatMap (fun z => entry level (write z)) ++
            '\n' :: ((indent level).toList ++ (closing.toList ++ rest)) =
          (y :: ys).flatMap (fun z => entry level (write z)) ++
            '\n' :: ((indent level).toList ++ (closing.toList ++ rest')) := by
        have hentries := congrArg (',' :: ·) (List.append_cancel_left h)
        rw [hrow, hrow]
        simpa [entry] using hentries
      have hcancel := told_flatMap (fun x hx => told_entry (htold x hx))
        (fun _ _ => NoDigit.cons (by decide) _) (fun _ => NoDigit.cons (by decide) _)
        (fun _ _ _ heq => absurd (List.cons.inj heq).1 (by decide)) hrows
      exact ⟨hcancel.1, List.append_cancel_left (List.append_cancel_left hcancel.2)⟩

end

/-! Values. -/

/-- Induction over values, with a hypothesis for each value directly inside. -/
@[elab_as_elim, induction_eliminator]
theorem induct {motive : Json → Prop} (null : motive .null) (number : ∀ n, motive (.number n))
    (text : ∀ s, motive (.text s))
    (list : ∀ items, (∀ j ∈ items, motive j) → motive (.list items))
    (record : ∀ fields, (∀ p ∈ fields, motive p.2) → motive (.record fields))
    (j : Json) : motive j :=
  @Json.rec motive (fun items => ∀ j ∈ items, motive j) (fun fields => ∀ p ∈ fields, motive p.2)
    (fun p => motive p.2) null number text list record (by simp) (by simp_all) (by simp)
    (by simp_all) (by simp_all) j

inductive Shape
  | null
  | number
  | text
  | list
  | record

def shape : Json → Shape
  | null => .null
  | number _ => .number
  | text _ => .text
  | list _ => .list
  | record _ => .record

/-- The shape of the value whose text begins with a character. -/
def Shape.ofChar (c : Char) : Shape :=
  if c = 'n' then .null else if c = '"' then .text else if c = '[' then .list
  else if c = '\x7b' then .record else .number

theorem Shape.ofChar_of_isDigit {c : Char} (h : c.isDigit = true) : ofChar c = .number := by
  unfold ofChar
  split_ifs with hn hq hl hr
  · subst hn; exact absurd h (by decide)
  · subst hq; exact absurd h (by decide)
  · subst hl; exact absurd h (by decide)
  · subst hr; exact absurd h (by decide)
  · rfl

theorem writeItems_eq (level : Nat) (items : List Json) :
    writeItems level items = items.map (write level) := by
  induction items with
  | nil => rfl
  | cons item items ih => rw [writeItems, ih, List.map_cons]

theorem writeFields_eq (level : Nat) (fields : List (String × Json)) :
    writeFields level fields =
      fields.map fun p => quoted p.1 ++ ": " ++ write level p.2 := by
  induction fields with
  | nil => rfl
  | cons p fields ih =>
    obtain ⟨name, value⟩ := p
    rw [writeFields, ih, List.map_cons]

theorem bracketed_head (opening closing : String) (level : Nat) (texts : List String) :
    ∃ cs, (bracketed opening closing level texts).toList = opening.toList ++ cs := by
  cases texts with
  | nil => exact ⟨closing.toList, by simp [bracketed]⟩
  | cons text texts => exact ⟨_, by rw [toList_bracketed, List.append_assoc]⟩

/-- The first character of a value's text tells its shape. -/
theorem write_head (level : Nat) (j : Json) :
    ∃ c cs, (write level j).toList = c :: cs ∧ Shape.ofChar c = j.shape := by
  cases j with
  | null => exact ⟨'n', ['u', 'l', 'l'], by rw [write]; rfl, rfl⟩
  | number n =>
    obtain ⟨c, cs, hdigits⟩ := List.exists_cons_of_ne_nil (toList_decimal_ne_nil n)
    have hc : c.isDigit = true := isDigit_of_mem_decimal (by rw [hdigits]; exact .head cs)
    exact ⟨c, cs, by rw [write, hdigits], Shape.ofChar_of_isDigit hc⟩
  | text s => exact ⟨'"', _, by rw [write, toList_quoted], rfl⟩
  | list items =>
    obtain ⟨cs, hcs⟩ := bracketed_head "[" "]" level (writeItems (level + 1) items)
    exact ⟨'[', cs, by rw [write, hcs]; rfl, rfl⟩
  | record fields =>
    obtain ⟨cs, hcs⟩ := bracketed_head "\x7b" "\x7d" level (writeFields (level + 1) fields)
    exact ⟨'\x7b', cs, by rw [write, hcs]; rfl, rfl⟩

theorem shape_eq {level : Nat} {j k : Json} {rest rest' : List Char}
    (h : (write level j).toList ++ rest = (write level k).toList ++ rest') :
    j.shape = k.shape := by
  obtain ⟨c, cs, hj, hshape⟩ := write_head level j
  obtain ⟨d, ds, hk, hshape'⟩ := write_head level k
  rw [hj, hk, List.cons_append, List.cons_append] at h
  rw [← hshape, ← hshape', (List.cons.inj h).1]

/-- The text of a field is its name between quotes, a colon and the text of its value. -/
theorem told_field {level : Nat} {p : String × Json}
    (h : Told NoDigit (fun j => (write level j).toList) p.2) :
    Told NoDigit (fun p : String × Json => (quoted p.1 ++ ": " ++ write level p.2).toList) p := by
  have hpair := (told_quoted p.1).pair (h.behind [':', ' ']) fun _ _ _ => trivial
  intro q rest rest' hrest hrest' heq
  refine hpair q rest rest' hrest hrest' ?_
  simpa using heq

/-- A value can be told from its text, whatever follows it that is not a digit. -/
theorem told_write (level : Nat) (j : Json) :
    Told NoDigit (fun j => (write level j).toList) j := by
  induction j generalizing level with
  | null =>
    intro k rest rest' hrest hrest' h
    have hshape := shape_eq h
    cases k with
    | null => exact ⟨rfl, List.append_cancel_left h⟩
    | number _ | text _ | list _ | record _ => cases hshape
  | number n =>
    intro k rest rest' hrest hrest' h
    have hshape := shape_eq h
    cases k with
    | number m =>
      simp only [write] at h
      obtain ⟨rfl, hrest⟩ := told_decimal n m rest rest' hrest hrest' h
      exact ⟨rfl, hrest⟩
    | null | text _ | list _ | record _ => cases hshape
  | text s =>
    intro k rest rest' hrest hrest' h
    have hshape := shape_eq h
    cases k with
    | text t =>
      simp only [write] at h
      obtain ⟨rfl, hrest⟩ := told_quoted s t rest rest' trivial trivial h
      exact ⟨rfl, hrest⟩
    | null | number _ | list _ | record _ => cases hshape
  | list items ih =>
    intro k rest rest' hrest hrest' h
    have hshape := shape_eq h
    cases k with
    | list items' =>
      simp only [write, writeItems_eq] at h
      obtain ⟨rfl, hrest⟩ := bracketed_cancel rfl (by decide) (fun j hj => ih j hj (level + 1)) h
      exact ⟨rfl, hrest⟩
    | null | number _ | text _ | record _ => cases hshape
  | record fields ih =>
    intro k rest rest' hrest hrest' h
    have hshape := shape_eq h
    cases k with
    | record fields' =>
      simp only [write, writeFields_eq] at h
      obtain ⟨rfl, hrest⟩ :=
        bracketed_cancel rfl (by decide) (fun p hp => told_field (ih p hp (level + 1))) h
      exact ⟨rfl, hrest⟩
    | null | number _ | text _ | list _ => cases hshape

/-- No two values have the same text. -/
theorem pretty_injective {j k : Json} (h : j.pretty = k.pretty) : j = k := by
  have hno : NoDigit [] := by simp [NoDigit]
  have hchars : (write 0 j).toList ++ [] = (write 0 k).toList ++ [] := congrArg (·.toList ++ []) h
  exact (told_write 0 j k [] [] hno hno hchars).1

end Formulary.Json
