/-!
Dates, times of day and both together, with an optional distance from universal time. They occur as
values of configuration files.
-/

namespace MarkdownTree

structure Date where
  year : Nat
  month : Nat
  day : Nat
  deriving DecidableEq, Inhabited

structure TimeOfDay where
  hour : Nat
  minute : Nat
  second : Nat
  microsecond : Nat
  deriving DecidableEq, Inhabited

/-- A date, a time of day, or a date with a time and, if known, the minutes that local time is ahead
of universal time. -/
inductive Moment where
  | date (d : Date)
  | time (t : TimeOfDay)
  | dateTime (d : Date) (t : TimeOfDay) (offset : Option Int)
  deriving DecidableEq, Inhabited

def isLeapYear (year : Nat) : Bool :=
  year % 4 == 0 && (year % 100 != 0 || year % 400 == 0)

def daysInMonth (year month : Nat) : Nat :=
  if month = 2 then (if isLeapYear year then 29 else 28)
  else if month ∈ [4, 6, 9, 11] then 30
  else 31

namespace Moment

def typeName : Moment → String
  | .date _ => "date"
  | .time _ => "time"
  | .dateTime .. => "datetime"

private def timeFields (t : TimeOfDay) : List Nat :=
  [t.hour, t.minute] ++
    (if t.microsecond ≠ 0 then [t.second, t.microsecond]
     else if t.second ≠ 0 then [t.second] else [])

private def commaSeparated (fields : List String) : String :=
  String.intercalate ", " fields

/-- The difference of local from universal time as days and seconds, the seconds not negative. -/
def offsetText (minutes : Int) : String :=
  if minutes = 0 then
    "datetime.timezone.utc"
  else
    let seconds := minutes * 60
    let days := Int.fdiv seconds 86400
    let rest := Int.fmod seconds 86400
    let parts :=
      (if days = 0 then [] else ["days=" ++ toString days]) ++
        (if rest = 0 then [] else ["seconds=" ++ toString rest])
    "datetime.timezone(datetime.timedelta(" ++ commaSeparated parts ++ "))"

/-- A moment as a constructor with its fields; seconds and microseconds are left out where they
are zero. -/
def text : Moment → String
  | .date d =>
    "datetime.date(" ++ commaSeparated ([d.year, d.month, d.day].map toString) ++ ")"
  | .time t => "datetime.time(" ++ commaSeparated ((timeFields t).map toString) ++ ")"
  | .dateTime d t offset =>
    let fields := ([d.year, d.month, d.day] ++ timeFields t).map toString
    let zone := match offset with
      | some minutes => ["tzinfo=" ++ offsetText minutes]
      | none => []
    "datetime.datetime(" ++ commaSeparated (fields ++ zone) ++ ")"

end Moment

end MarkdownTree
