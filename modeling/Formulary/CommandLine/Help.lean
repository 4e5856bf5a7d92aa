import Formulary.CommandLine.Arguments

/-!
The help text of the command line: what the command does, its usage, and a table each for its
argument and its options. The second column of a table starts two places behind its longest form.
-/

namespace Formulary

structure HelpRow where
  form : String
  meaning : String
deriving Repr

namespace HelpRow

/-- The widest of the forms. -/
def width (rows : List HelpRow) : Nat := (rows.map (·.form.length)).foldl max 0

def line (column : Nat) (r : HelpRow) : String :=
  "  " ++ r.form ++ String.ofList (List.replicate (column - r.form.length) ' ') ++ r.meaning ++ "\n"

def table (rows : List HelpRow) : String := String.join (rows.map (line (width rows + 2)))

end HelpRow

def preset (meaning value : String) : String := meaning ++ " [default: " ++ value ++ "]"

def argumentRows : List HelpRow := [⟨"<INPUT>", "Definition file (.txt)"⟩]

def optionRows : List HelpRow := [
  ⟨"    --out-dir <OUT_DIR>",
    preset "Directory for the grammar and parse tree outputs" Arguments.defaultOutDir⟩,
  ⟨"    --log <LOG>", preset "Log file receiving one OK/ERR line per run" Arguments.defaultLog⟩,
  ⟨"    --no-log", "Do not append to the log file"⟩,
  ⟨"    --max-depth <MAX_DEPTH>",
    preset "Maximum formula nesting depth" (Text.decimal defaultLimit)⟩,
  ⟨"    --print", "Echo the grammar and parse tree to stdout"⟩,
  ⟨"    --json", "Also write the result as JSON (needs the `serde` feature)"⟩,
  ⟨"-v, --verbose", "Verbose logging"⟩,
  ⟨"-h, --help", "Print help"⟩]

def helpText : String :=
  "Validate a first-order logic definition file, parse its formula and derive its grammar\n\n" ++
  "Usage: folgram [OPTIONS] <INPUT>\n\n" ++
  "Arguments:\n" ++ HelpRow.table argumentRows ++ "\n" ++
  "Options:\n" ++ HelpRow.table optionRows

namespace UsageError

def stdout : UsageError → String
  | .help => helpText
  | _ => ""

def stderr : UsageError → String
  | .help => ""
  | e => "error: " ++ e.message ++ "\n"

end UsageError

end Formulary
