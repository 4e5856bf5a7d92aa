/-!
Texts as lists of characters: their words and lines, doubled backslashes, and decimal numerals.
-/

namespace Formulary.Text

/-! Blank characters and the words between them. Blank means the Unicode White_Space property, not
only its six ASCII members. -/

/-- First and last code point of each run of White_Space characters. -/
def blankRanges : List (Nat × Nat) :=
  [(0x9, 0xD), (0x20, 0x20), (0x85, 0x85), (0xA0, 0xA0), (0x1680, 0x1680), (0x2000, 0x200A),
   (0x2028, 0x2029), (0x202F, 0x202F), (0x205F, 0x205F), (0x3000, 0x3000)]

def isBlank (c : Char) : Bool :=
  blankRanges.any fun (first, last) => first ≤ c.toNat && c.toNat ≤ last

def trimLeft (cs : List Char) : List Char := cs.dropWhile isBlank

def trim (cs : List Char) : List Char := (trimLeft (trimLeft cs).reverse).reverse

/-- Puts a character in front of the first piece of a text. -/
def consFirst (c : Char) : List (List Char) → List (List Char)
  | [] => [[c]]
  | piece :: pieces => (c :: piece) :: pieces

/-- The pieces of a text between its blanks, empty ones included. -/
def pieces : List Char → List (List Char)
  | [] => [[]]
  | c :: cs => if isBlank c then [] :: pieces cs else consFirst c (pieces cs)

/-- The maximal runs of characters that are not blank. -/
def words (cs : List Char) : List (List Char) := (pieces cs).filter (! ·.isEmpty)

theorem words_blank {c : Char} (h : isBlank c) (cs : List Char) : words (c :: cs) = words cs := by
  simp [words, pieces, h]

/-! Lines. A line ends at a line feed, together with one carriage return directly before it; what
follows the last line feed is a line only if it is not empty. -/

def lines : List Char → List (List Char)
  | [] => []
  | '\n' :: cs => [] :: lines cs
  | '\r' :: '\n' :: cs => [] :: lines cs
  | c :: cs => consFirst c (lines cs)

def linesOf (text : String) : List String := (lines text.toList).map String.ofList

/-! Doubled backslashes. Writing doubles every backslash, reading collapses each pair into one. -/

def escape : List Char → List Char
  | [] => []
  | c :: cs => if c = '\\' then '\\' :: '\\' :: escape cs else c :: escape cs

/-- A backslash without a partner stays as it is. -/
def unescape : List Char → List Char
  | [] => []
  | '\\' :: '\\' :: cs => '\\' :: unescape cs
  | c :: cs => c :: unescape cs

theorem unescape_escape (cs : List Char) : unescape (escape cs) = cs := by
  induction cs with
  | nil => rfl
  | cons c cs ih => by_cases h : c = '\\' <;> simp [escape, unescape, h, ih]

/-! Decimal numerals. A count is read from one optional plus sign and at least one digit, and has to
fit into sixty-four bits; it is written with digits alone. A whole number may have a minus sign. -/

/-- The largest count that can be written in a definition or on the command line. -/
def maxCount : Nat := 18446744073709551615

def digitValue (c : Char) : Nat := c.toNat - '0'.toNat

def digitsValue (cs : List Char) : Nat := cs.foldl (fun n c => 10 * n + digitValue c) 0

def unsigned : List Char → List Char
  | '+' :: cs => cs
  | cs => cs

def count? (cs : List Char) : Option Nat :=
  let digits := unsigned cs
  if digits ≠ [] ∧ digits.all Char.isDigit ∧ digitsValue digits ≤ maxCount then
    some (digitsValue digits)
  else
    none

def decimal (n : Nat) : String := String.ofList (Nat.toDigits 10 n)

/-- A whole number with a minus sign in front of it below zero. -/
def signed (n : Int) : String :=
  if n < 0 then "-" ++ decimal n.natAbs else decimal n.natAbs

end Formulary.Text
