/-!
Paths with slashes between their parts. Empty parts and single dots do not count, except for a
slash or a dot at the very start. A path is text of the system, which may be any bytes and most
often is UTF-8.
-/

namespace Formulary

/-- Text as the system gives and takes it. -/
structure OsText where
  bytes : List UInt8
deriving DecidableEq, Repr

namespace OsText

def ofString (text : String) : OsText := ⟨text.toList.flatMap String.utf8EncodeChar⟩

instance : Coe String OsText := ⟨ofString⟩

/-- The text, if it is UTF-8. -/
def text? (t : OsText) : Option String := String.fromUTF8? t.bytes.toByteArray

/-- Whether a byte goes on with a character. -/
def isTail (byte : UInt8) : Bool := 0x80 ≤ byte && byte ≤ 0xBF

/-- Whether two bytes are the beginning of a character of three or four bytes. -/
def beginsLong (first second : UInt8) : Bool :=
  if first = 0xE0 then 0xA0 ≤ second && second ≤ 0xBF
  else if first = 0xED then 0x80 ≤ second && second ≤ 0x9F
  else if first = 0xF0 then 0x90 ≤ second && second ≤ 0xBF
  else if first = 0xF4 then 0x80 ≤ second && second ≤ 0x8F
  else 0xE1 ≤ first && first ≤ 0xF3 && isTail second

/-- The number of bytes that are the beginning of a character without its end, or else one. -/
def brokenLength : List UInt8 → Nat
  | first :: second :: rest =>
    if ! beginsLong first second then 1
    else if first ≥ 0xF0 && rest.head?.any isTail then 3
    else 2
  | _ => 1

/-- Stands for bytes that are not UTF-8. -/
def replacement : Char := '\uFFFD'

/-- The first character of some bytes, and how many of them it stands for. -/
def readChar (bytes : List UInt8) : Char × Nat :=
  match bytes.toByteArray.utf8DecodeChar? 0 with
  | some c => (c, c.utf8Size)
  | none => (replacement, brokenLength bytes)

/-- The characters of some bytes without the first ones, which have been read. -/
def readChars : Nat → List UInt8 → List Char
  | _, [] => []
  | done + 1, _ :: bytes => readChars done bytes
  | 0, byte :: bytes =>
    let (c, length) := readChar (byte :: bytes)
    c :: readChars (length - 1) bytes

/-- The text as it is shown. What is not UTF-8 is replaced, each beginning of a character by one
character. -/
def shown (t : OsText) : String := String.ofList (readChars 0 t.bytes)

instance : Coe OsText String := ⟨shown⟩

end OsText

namespace Path

def slash : UInt8 := '/'.toUInt8
def dot : UInt8 := '.'.toUInt8

/-- The pieces of a path between its slashes, empty ones included. -/
def segments : List UInt8 → List (List UInt8)
  | [] => [[]]
  | b :: bs =>
    if b = slash then [] :: segments bs
    else
      match segments bs with
      | [] => [[b]]
      | segment :: rest => (b :: segment) :: rest

def isIdle (segment : List UInt8) : Bool := segment = [] || segment = [dot]

/-- A path without the slashes and dots at its end that do not count, as its first segment and
those after it. -/
def parts (path : OsText) : List UInt8 × List (List UInt8) :=
  match segments path.bytes with
  | [] => ([], [])
  | first :: rest => (first, (rest.reverse.dropWhile isIdle).reverse)

def joinSegments (first : List UInt8) (rest : List (List UInt8)) : OsText :=
  ⟨first ++ rest.flatMap (slash :: ·)⟩

/-- The last part of a path, unless that is a root, a dot, or two dots. -/
def fileName? (path : OsText) : Option OsText :=
  let (first, rest) := parts path
  let last := rest.getLastD first
  if isIdle last || last = [dot, dot] then none else some ⟨last⟩

/-- Splits a file name at its last dot, unless no character comes before that. -/
def splitName (name : List UInt8) : List UInt8 × Option (List UInt8) :=
  let back := name.reverse
  let extension := (back.takeWhile (· ≠ dot)).reverse
  match back.dropWhile (· ≠ dot) with
  | [] => (name, none)
  | [_] => (name, none)
  | _ :: stem => (stem.reverse, some extension)

def stem? (path : OsText) : Option OsText :=
  (fileName? path).map fun name => ⟨(splitName name.bytes).1⟩

/-- The extension of a file name, if it has one that is UTF-8. -/
def extension? (path : OsText) : Option String :=
  (fileName? path).bind fun name => (splitName name.bytes).2.bind (OsText.text? ⟨·⟩)

/-- The path of the directory that holds a path; empty if that is the working directory. -/
def parent? (path : OsText) : Option OsText :=
  let (first, rest) := parts path
  if rest ≠ [] then
    let above := (rest.dropLast.reverse.dropWhile isIdle).reverse
    if first = [] ∧ above = [] then some ⟨[slash]⟩ else some (joinSegments first above)
  else if first = [] then none
  else some ⟨[]⟩

/-- The directories above a path, from the one that holds it up to the last that has a name. -/
def ancestors (path : OsText) : List OsText := go path.bytes.length path
where
  go : Nat → OsText → List OsText
    | 0, _ => []
    | fuel + 1, path =>
      match parent? path with
      | none => []
      | some parent => if parent.bytes = [] then [] else parent :: go fuel parent

def join (dir path : OsText) : OsText :=
  if path.bytes.head? = some slash then path
  else if dir.bytes = [] ∨ dir.bytes.getLast? = some slash then ⟨dir.bytes ++ path.bytes⟩
  else ⟨dir.bytes ++ slash :: path.bytes⟩

/-- Replaces the extension of the file that a path names. -/
def withExtension (path extension : OsText) : OsText :=
  match stem? path with
  | none => path
  | some stem =>
    let name := stem.bytes ++ dot :: extension.bytes
    let (first, rest) := parts path
    if rest = [] then ⟨name⟩ else joinSegments first (rest.dropLast ++ [name])

end Path

end Formulary
