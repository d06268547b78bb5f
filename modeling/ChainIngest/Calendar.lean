/-!
# Calendar

Seconds since the start of 1970 as date and time in the Gregorian calendar,
extended to all years in both directions.
-/

namespace ChainIngest.Calendar

structure Date where
  /-- The year; zero is the year before year one. -/
  year : Int
  /-- The month, from one. -/
  month : Nat
  /-- The day of the month, from one. -/
  day : Nat
deriving DecidableEq, Inhabited

def daySeconds : Int := 86400

/-- The date of a day counted from the first of January 1970.  Years are taken to begin in
March, so that a leap day ends its year, and in cycles of four hundred years. -/
def dateOf (days : Int) : Date :=
  let shifted := days + 719468
  let era := shifted.fdiv 146097
  let dayOfEra := (shifted - era * 146097).toNat
  let yearOfEra :=
    (dayOfEra - dayOfEra / 1460 + dayOfEra / 36524 - dayOfEra / 146096) / 365
  let dayOfYear := dayOfEra - (365 * yearOfEra + yearOfEra / 4 - yearOfEra / 100)
  let fromMarch := (5 * dayOfYear + 2) / 153
  let day := dayOfYear - (153 * fromMarch + 2) / 5 + 1
  let month := if fromMarch < 10 then fromMarch + 3 else fromMarch - 9
  let year := (yearOfEra : Int) + era * 400 + (if month ≤ 2 then 1 else 0)
  ⟨year, month, day⟩

def padded (width n : Nat) : String :=
  let digits := Nat.toDigits 10 n
  String.ofList (List.replicate (width - digits.length) '0' ++ digits)

/-- A year: four digits, with a sign where the year is negative or needs more. -/
def yearText (year : Int) : String :=
  if year < 0 then "-" ++ padded 4 year.natAbs
  else if year > 9999 then "+" ++ padded 5 year.toNat
  else padded 4 year.toNat

def timestampText (seconds : Int) : String :=
  let days := seconds.fdiv daySeconds
  let rest := (seconds - days * daySeconds).toNat
  let date := dateOf days
  yearText date.year ++ "-" ++ padded 2 date.month ++ "-" ++ padded 2 date.day ++ "T" ++
    padded 2 (rest / 3600) ++ ":" ++ padded 2 (rest / 60 % 60) ++ ":" ++ padded 2 (rest % 60) ++ "Z"

/-- The first second of the calendar: the start of the year -262143. -/
def firstSecond : Int := -8334601228800

/-- The last second of the calendar: the end of the year 262142. -/
def lastSecond : Int := 8210266876799

def covers (seconds : Int) : Bool := firstSecond ≤ seconds && seconds ≤ lastSecond

end ChainIngest.Calendar
