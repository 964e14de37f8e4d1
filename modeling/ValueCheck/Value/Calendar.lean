import ValueCheck.Number.Basic

/-! Moments in text: the calendar date and time of a number of milliseconds. -/

namespace ValueCheck.Calendar

structure Day where
  year : Int
  month : Nat
  day : Nat
  deriving DecidableEq

/-- The day that lies `n` days after the first of January 1970. Years are counted
from March, in eras of 400 years with 146097 days each. -/
def Day.ofNumber (n : Int) : Day :=
  let shifted := n + 719468
  let era := shifted.fdiv 146097
  let dayOfEra := (shifted.fmod 146097).toNat
  let yearOfEra := (dayOfEra - dayOfEra / 1460 + dayOfEra / 36524 - dayOfEra / 146096) / 365
  let dayOfYear := dayOfEra - (365 * yearOfEra + yearOfEra / 4 - yearOfEra / 100)
  let fromMarch := (5 * dayOfYear + 2) / 153
  let day := dayOfYear - (153 * fromMarch + 2) / 5 + 1
  let month := if fromMarch < 10 then fromMarch + 3 else fromMarch - 9
  ⟨yearOfEra + era * 400 + (if month ≤ 2 then 1 else 0), month, day⟩

def firstYear : Int := -262143
def lastYear : Int := 262142

def padded (width : Nat) (n : Nat) : String :=
  let digits := toString n
  String.ofList (List.replicate (width - digits.length) '0') ++ digits

def yearText (year : Int) : String :=
  if 0 ≤ year ∧ year ≤ 9999 then padded 4 year.toNat
  else (if year < 0 then "-" else "+") ++ padded 4 year.natAbs

def millisPerDay : Int := 86400000

def momentText (millis : Int) : Option String :=
  let date := Day.ofNumber (millis.fdiv millisPerDay)
  let rest := (millis.fmod millisPerDay).toNat
  if firstYear ≤ date.year ∧ date.year ≤ lastYear then
    some (yearText date.year ++ "-" ++ padded 2 date.month ++ "-" ++ padded 2 date.day
      ++ "T" ++ padded 2 (rest / 3600000) ++ ":" ++ padded 2 (rest / 60000 % 60)
      ++ ":" ++ padded 2 (rest / 1000 % 60) ++ "." ++ padded 3 (rest % 1000) ++ "Z")
  else none

def dateText : Number → String
  | .finite v => (momentText (v.num.tdiv v.den)).getD "Invalid Date"
  | _ => "Invalid Date"

end ValueCheck.Calendar
