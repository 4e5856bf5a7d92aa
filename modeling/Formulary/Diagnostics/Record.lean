import Formulary.Text

/-!
Records: one for each outcome, with its time, its input, whether all went well, and a message.
-/

namespace Formulary

open Text (decimal)

structure Timestamp where
  year : Int
  month : Nat
  day : Nat
  hour : Nat
  minute : Nat
  second : Nat
deriving DecidableEq, Repr

namespace Timestamp

/-- A count with zeros in front up to a width. -/
def padded (width n : Nat) : String :=
  String.ofList (List.replicate (width - (decimal n).length) '0') ++ decimal n

def monthName : Nat → String
  | 1 => "Jan"
  | 2 => "Feb"
  | 3 => "Mar"
  | 4 => "Apr"
  | 5 => "May"
  | 6 => "Jun"
  | 7 => "Jul"
  | 8 => "Aug"
  | 9 => "Sep"
  | 10 => "Oct"
  | 11 => "Nov"
  | _ => "Dec"

/-- A year has four digits; one that does not fit is written with a sign. -/
def yearText (year : Int) : String :=
  if year < 0 then "-" ++ padded 4 year.natAbs
  else if year > 9999 then "+" ++ padded 4 year.natAbs
  else padded 4 year.natAbs

def text (t : Timestamp) : String :=
  padded 2 t.day ++ "-" ++ monthName t.month ++ "-" ++ yearText t.year ++ "-" ++
    padded 2 t.hour ++ ":" ++ padded 2 t.minute ++ ":" ++ padded 2 t.second

/-- A time of UTC to the microsecond, as `2024-03-07T09:05:01.000250Z`. -/
def precise (t : Timestamp) (microsecond : Nat) : String :=
  yearText t.year ++ "-" ++ padded 2 t.month ++ "-" ++ padded 2 t.day ++ "T" ++
    padded 2 t.hour ++ ":" ++ padded 2 t.minute ++ ":" ++ padded 2 t.second ++ "." ++
    padded 6 microsecond ++ "Z"

end Timestamp

inductive Status
  | ok
  | err
deriving DecidableEq, Repr

def Status.text : Status → String
  | .ok => "OK"
  | .err => "ERR"

structure Record where
  time : Timestamp
  input : String
  status : Status
  message : String
deriving DecidableEq, Repr

namespace Record

def isError (r : Record) : Bool := r.status = .err

/-- The four parts of a record, separated by tabs. -/
def line (r : Record) : String :=
  r.time.text ++ "\t" ++ r.input ++ "\t" ++ r.status.text ++ "\t" ++ r.message

end Record

end Formulary
