import MarkdownTree.Moment
import MarkdownTree.Toml.Fault

/-!
Dates and times in TOML documents. A date may be followed by a time of day, and that by the distance
from universal time.
-/

namespace MarkdownTree.Toml

def twoDigits? (least most : Nat) : List Char → Option (Nat × List Char)
  | a :: b :: rest =>
    if a.isDigit && b.isDigit then
      let n := 10 * (a.toNat - 48) + (b.toNat - 48)
      if least ≤ n && n ≤ most then some (n, rest) else none
    else
      none
  | _ => none

def after? (c : Char) : List Char → Option (List Char)
  | d :: rest => if d = c then some rest else none
  | [] => none

/-- Reads a date; whether the month has that day is not asked here. -/
def date? (s : List Char) : Option (Date × List Char) := do
  let (century, s) ← twoDigits? 0 99 s
  let (year, s) ← twoDigits? 0 99 s
  let (month, s) ← twoDigits? 1 12 (← after? '-' s)
  let (day, s) ← twoDigits? 1 31 (← after? '-' s)
  some (⟨100 * century + year, month, day⟩, s)

/-- Reads the microseconds after a point; digits beyond the sixth are passed over. -/
def microseconds (s : List Char) : Nat × List Char :=
  match s with
  | '.' :: rest =>
    let digits := rest.takeWhile Char.isDigit
    if digits.isEmpty then (0, s)
    else
      let six := (digits ++ List.replicate 6 '0').take 6
      (six.foldl (fun n c => 10 * n + (c.toNat - 48)) 0, rest.dropWhile Char.isDigit)
  | _ => (0, s)

def time? (s : List Char) : Option (TimeOfDay × List Char) := do
  let (hour, s) ← twoDigits? 0 23 s
  let (minute, s) ← twoDigits? 0 59 (← after? ':' s)
  let (second, s) ← twoDigits? 0 59 (← after? ':' s)
  let (microsecond, s) := microseconds s
  some (⟨hour, minute, second, microsecond⟩, s)

def offset? (s : List Char) : Option (Int × List Char) :=
  match s with
  | 'Z' :: rest | 'z' :: rest => some (0, rest)
  | sign :: rest =>
    if sign = '+' || sign = '-' then do
      let (hours, rest) ← twoDigits? 0 23 rest
      let (minutes, rest) ← twoDigits? 0 59 (← after? ':' rest)
      let distance : Int := (60 * hours + minutes : Nat)
      some (if sign = '-' then -distance else distance, rest)
    else
      none
  | [] => none

def timeAfterDate? : List Char → Option (TimeOfDay × List Char)
  | c :: rest => if c = 'T' || c = 't' || c = ' ' then time? rest else none
  | [] => none

def isDay (d : Date) : Bool :=
  1 ≤ d.year && d.day ≤ daysInMonth d.year d.month

/-- Reads a date, with a time of day if one follows. -/
def dated? (s : List Char) : Option (Reads Moment) := do
  let (d, rest) ← date? s
  if !isDay d then
    some (stop .noSuchMoment s)
  else
    match timeAfterDate? rest with
    | none => some (.ok (.date d, rest))
    | some (t, rest) => match offset? rest with
      | none => some (.ok (.dateTime d t none, rest))
      | some (offset, rest) => some (.ok (.dateTime d t (some offset), rest))

def moment? (s : List Char) : Option (Reads Moment) :=
  (dated? s).or ((time? s).map fun (t, rest) => .ok (.time t, rest))

end MarkdownTree.Toml
