import Formulary.Alphabet.Validate
import Formulary.Formula.Error
import Formulary.Path
import Formulary.Storage.Cause

/-!
Failures of a whole run: what the stages reject and what goes wrong with files, each under a code.
-/

namespace Formulary

inductive FileError
  | read (path : OsText) (cause : Cause)
  | unsupportedExtension (path : OsText)
  | write (path : OsText) (cause : Cause)
deriving DecidableEq, Repr

def FileError.message : FileError → String
  | .read path cause => "failed to read " ++ path.shown ++ ": " ++ cause.message
  | .unsupportedExtension path =>
    "unsupported file extension for " ++ path.shown ++ "; expected a .txt file"
  | .write path cause => "failed to write " ++ path.shown ++ ": " ++ cause.message

/-- What lies below a file error, if it is not the error itself. -/
def FileError.cause? : FileError → Option Cause
  | .read _ cause => some cause
  | .unsupportedExtension _ => none
  | .write _ cause => some cause

inductive ErrorCode
  | cardinality
  | arityFormat
  | duplicate
  | overlap
  | forbidden
  | balance
  | arity
  | sentinel
  | unexpectedToken
  | unexpectedEnd
  | trailingInput
  | tooDeep
  | empty
  | unreadable
  | unsupportedExtension
  | unwritable
deriving DecidableEq, Repr

namespace ErrorCode

def all : List ErrorCode :=
  [.cardinality, .arityFormat, .duplicate, .overlap, .forbidden, .balance, .arity, .sentinel,
   .unexpectedToken, .unexpectedEnd, .trailingInput, .tooDeep, .empty, .unreadable,
   .unsupportedExtension, .unwritable]

def text : ErrorCode → String
  | .cardinality => "E0101"
  | .arityFormat => "E0102"
  | .duplicate => "E0103"
  | .overlap => "E0104"
  | .forbidden => "E0105"
  | .balance => "E0201"
  | .arity => "E0202"
  | .sentinel => "E0203"
  | .unexpectedToken => "E0301"
  | .unexpectedEnd => "E0302"
  | .trailingInput => "E0303"
  | .tooDeep => "E0304"
  | .empty => "E0305"
  | .unreadable => "E0901"
  | .unsupportedExtension => "E0902"
  | .unwritable => "E0903"

def summary : ErrorCode → String
  | .cardinality => "incorrect cardinality"
  | .arityFormat => "predicate arity is not an integer"
  | .duplicate => "duplicate symbol"
  | .overlap => "symbol declared in two classes"
  | .forbidden => "forbidden symbol"
  | .balance => "unbalanced parentheses"
  | .arity => "incorrect predicate arity"
  | .sentinel => "reserved end-of-input symbol"
  | .unexpectedToken => "unexpected token"
  | .unexpectedEnd => "unexpected end of input"
  | .trailingInput => "trailing input"
  | .tooDeep => "formula nested too deeply"
  | .empty => "empty formula"
  | .unreadable => "unreadable input"
  | .unsupportedExtension => "unsupported file extension"
  | .unwritable => "unwritable output"

/-- The kind of failure: of the alphabet, of a formula's structure, of its parse, or of files. -/
def category : ErrorCode → String
  | .cardinality | .arityFormat | .duplicate | .overlap | .forbidden => "alphabet error"
  | .balance | .arity | .sentinel => "formula error"
  | .unexpectedToken | .unexpectedEnd | .trailingInput | .tooDeep | .empty => "parse error"
  | .unreadable | .unsupportedExtension | .unwritable => "input/output error"

/-- Whether a failure can only arise while no parser is running. -/
def isPreParse (c : ErrorCode) : Bool := c.category ≠ "parse error"

end ErrorCode

def AlphabetError.code : AlphabetError → ErrorCode
  | .cardinality .. => .cardinality
  | .arityFormat .. => .arityFormat
  | .duplicate .. => .duplicate
  | .overlap .. => .overlap
  | .forbidden .. => .forbidden

def StructureError.code : StructureError → ErrorCode
  | .balance .. => .balance
  | .arity .. => .arity
  | .sentinel .. => .sentinel

def ParseError.code : ParseError → ErrorCode
  | .expected .. => .unexpectedToken
  | .unexpectedEnd .. => .unexpectedEnd
  | .trailingInput .. => .trailingInput
  | .tooDeep .. => .tooDeep
  | .empty => .empty

def FileError.code : FileError → ErrorCode
  | .read .. => .unreadable
  | .unsupportedExtension _ => .unsupportedExtension
  | .write .. => .unwritable

inductive Failure
  | alphabet (e : AlphabetError)
  | formula (e : StructureError)
  | parse (e : ParseError)
  | file (e : FileError)
deriving DecidableEq, Repr

namespace Failure

def message : Failure → String
  | .alphabet e => e.message
  | .formula e => e.message
  | .parse e => e.message
  | .file e => e.message

def code : Failure → ErrorCode
  | .alphabet e => e.code
  | .formula e => e.code
  | .parse e => e.code
  | .file e => e.code

def format (f : Failure) : String := f.code.text ++ ": " ++ f.message

/-- The message of a failure, followed by that of its cause if it has one. -/
def chain : Failure → String
  | .file e =>
    match e.cause? with
    | some cause => e.message ++ ": " ++ cause.message
    | none => e.message
  | f => f.message

end Failure

end Formulary
