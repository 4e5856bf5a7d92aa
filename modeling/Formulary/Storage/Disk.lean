import Formulary.Path
import Formulary.Storage.Files

/-!
A storage kept as a value: a tree of directories and files, listed by the names that lead to them
from the root.
-/

namespace Formulary

inductive Entry
  | dir
  | file (bytes : ByteArray)

/-- The names that lead from the root to a directory or file. -/
abbrev Location := List String

structure Disk where
  entries : List (Location × Entry) := []
  /-- Where paths that do not start with a slash begin. -/
  workingDir : Location := []

namespace Disk

def find? (d : Disk) (l : Location) : Option Entry :=
  if l = [] then some .dir else (d.entries.find? (·.1 = l)).map Prod.snd

def put (d : Disk) (l : Location) (e : Entry) : Disk :=
  if (d.find? l).isSome then
    { d with entries := d.entries.map fun (l', e') => if l' = l then (l, e) else (l', e') }
  else
    { d with entries := d.entries ++ [(l, e)] }

/-- The longest name of a directory or file, and the longest path, in bytes. -/
def maxName : Nat := 255
def maxPath : Nat := 4095

/-- Follows names from a place, each of which has to be looked up in a directory. The last one
need not exist. -/
def follow (d : Disk) (here : Location) : List String → Except Cause Location
  | [] => .ok here
  | name :: rest =>
    match d.find? here with
    | none => .error .notFound
    | some (.file _) => .error .notADirectory
    | some .dir =>
      if name = "" ∨ name = "." then d.follow here rest
      else if name = ".." then d.follow here.dropLast rest
      else if name.utf8ByteSize > maxName then .error .nameTooLong
      else d.follow (here ++ [name]) rest

/-- The place that a path starts from, and the names on it. -/
def route (d : Disk) (path : OsText) : Except Cause (Location × List String) :=
  let names := (Path.segments path.bytes).map (OsText.shown ⟨·⟩)
  if path.bytes.contains 0 then .error .nulInPath
  else if path.bytes = [] then .error .notFound
  else if path.bytes.length > maxPath then .error .nameTooLong
  else if path.text?.isNone then .error .illegalBytes
  else .ok (if names.head? = some "" then [] else d.workingDir, names)

def locate (d : Disk) (path : OsText) : Except Cause Location := do
  let (start, names) ← d.route path
  d.follow start names

def read (d : Disk) (path : OsText) : Except Cause ByteArray := do
  match d.find? (← d.locate path) with
  | none => .error .notFound
  | some .dir => .error .isADirectory
  | some (.file bytes) => .ok bytes

/-- The names on a path without the slashes that end it. -/
def trimmed (names : List String) : List String := (names.reverse.dropWhile (· = "")).reverse

/-- Whether a path ends with the name of a directory or file, and not with dots or nothing. -/
def isProper (names : List String) : Bool := names.getLastD "" ∉ ["", ".", ".."]

/-- The place of a file that may be made. The directory it lies in has to exist, and no slash may
end its path. -/
def locateFile (d : Disk) (path : OsText) : Except Cause Location := do
  let (start, names) ← d.route path
  let _ ← d.follow start ((trimmed names).dropLast ++ ["."])
  if isProper names then d.follow start names else .error .isADirectory

/-- Puts a file in place; its contents depend on those of a file that is there already. -/
def update (d : Disk) (path : OsText) (contents : ByteArray → ByteArray) : Except Cause Disk := do
  let l ← d.locateFile path
  match d.find? l with
  | some .dir => .error .isADirectory
  | some (.file bytes) => .ok (d.put l (.file (contents bytes)))
  | none => .ok (d.put l (.file (contents .empty)))

def write (d : Disk) (path : OsText) (contents : String) : Except Cause Disk :=
  d.update path fun _ => contents.toUTF8

def append (d : Disk) (path : OsText) (contents : String) : Except Cause Disk :=
  d.update path (· ++ contents.toUTF8)

def makeDir (d : Disk) (path : OsText) : Except Cause Disk := do
  let (start, names) ← d.route path
  let names := trimmed names
  let _ ← d.follow start (names.dropLast ++ ["."])
  if isProper names then
    let l ← d.follow start names
    if (d.find? l).isSome then .error .alreadyExists else .ok (d.put l .dir)
  else .error .alreadyExists

def isDir (d : Disk) (path : OsText) : Bool :=
  match d.locate path with
  | .error _ => false
  | .ok l => match d.find? l with
    | some .dir => true
    | _ => false

/-- Keeps the disk if a change fails. -/
def change (f : Disk → Except Cause Disk) : StateM Disk (Except Cause Unit) := fun d =>
  match f d with
  | .error cause => (.error cause, d)
  | .ok d' => (.ok (), d')

def storage : Storage (StateM Disk) where
  read path := return (← get).read path
  write path contents := change (·.write path contents)
  append path contents := change (·.append path contents)
  makeDir path := change (·.makeDir path)
  isDir path := return (← get).isDir path

end Disk

end Formulary
