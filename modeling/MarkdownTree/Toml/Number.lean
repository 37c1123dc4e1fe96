import MarkdownTree.Toml.Fault
import MarkdownTree.Value

/-!
Numbers in TOML documents. Digits may be grouped by single low lines; integers may be written with
the base two, eight or sixteen; a fraction or an exponent makes a floating-point number.
-/

namespace MarkdownTree.Toml

/-- The digits that go on a numeral, with single low lines between them, and the text after
them. -/
def moreDigits (isDigit : Char → Bool) : List Char → List Char × List Char
  | '_' :: c :: rest =>
    if isDigit c then
      let (digits, after) := moreDigits isDigit rest
      (c :: digits, after)
    else
      ([], '_' :: c :: rest)
  | c :: rest =>
    if isDigit c then
      let (digits, after) := moreDigits isDigit rest
      (c :: digits, after)
    else
      ([], c :: rest)
  | [] => ([], [])

/-- Digits at the start of a text, at least one, and the text after them. -/
def digits? (isDigit : Char → Bool) : List Char → Option (List Char × List Char)
  | c :: rest =>
    if isDigit c then
      let (digits, after) := moreDigits isDigit rest
      some (c :: digits, after)
    else
      none
  | [] => none

def digitValue (c : Char) : Nat :=
  if c.isDigit then c.toNat - 48
  else if 'a' ≤ c then c.toNat - 87
  else c.toNat - 55

def isDigitOf (base : Nat) (c : Char) : Bool :=
  (c.isDigit || ('a' ≤ c && c ≤ 'f') || ('A' ≤ c && c ≤ 'F')) && digitValue c < base

def valueIn (base : Nat) (digits : List Char) : Nat :=
  digits.foldl (fun n c => base * n + digitValue c) 0

def baseOf? : Char → Option Nat
  | 'x' => some 16
  | 'o' => some 8
  | 'b' => some 2
  | _ => none

def basedInteger? : List Char → Option (Value × List Char)
  | '0' :: letter :: rest => do
    let base ← baseOf? letter
    let (digits, after) ← digits? (isDigitOf base) rest
    some (.int (valueIn base digits), after)
  | _ => none

def signAt : List Char → List Char × List Char
  | '+' :: rest => (['+'], rest)
  | '-' :: rest => (['-'], rest)
  | s => ([], s)

/-- The digits before the fraction: a zero alone, or digits that do not start with a zero. -/
def wholePart? : List Char → Option (List Char × List Char)
  | '0' :: rest => some (['0'], rest)
  | s => digits? Char.isDigit s

def fractionAt (s : List Char) : List Char × List Char :=
  match s with
  | '.' :: rest => match digits? Char.isDigit rest with
    | some (digits, after) => ('.' :: digits, after)
    | none => ([], s)
  | _ => ([], s)

def exponentAt (s : List Char) : List Char × List Char :=
  match s with
  | c :: rest =>
    if c = 'e' || c = 'E' then
      let (sign, rest) := signAt rest
      match digits? Char.isDigit rest with
      | some (digits, after) => ('e' :: sign ++ digits, after)
      | none => ([], s)
    else
      ([], s)
  | [] => ([], s)

def decimal? (s : List Char) : Option (Value × List Char) := do
  let (sign, rest) := signAt s
  let (whole, rest) ← wholePart? rest
  let (fraction, rest) := fractionAt rest
  let (exponent, rest) := exponentAt rest
  if fraction.isEmpty && exponent.isEmpty then
    let n : Int := valueIn 10 whole
    some (.int (if sign = ['-'] then -n else n), rest)
  else
    let x ← Binary64.ofNumeral? (sign ++ whole ++ fraction ++ exponent)
    some (.float x, rest)

/-- The number of digits of an integer in decimal notation that has too many of them. -/
def oversized? (s : List Char) : Option Nat := do
  let (whole, rest) ← wholePart? (signAt s).2
  let (fraction, rest) := fractionAt rest
  if fraction.isEmpty && (exponentAt rest).1.isEmpty && longestInteger < whole.length then
    some whole.length
  else
    none

def special? (s : List Char) : Option (Value × List Char) :=
  let (sign, rest) := signAt s
  match rest with
  | 'i' :: 'n' :: 'f' :: after => some (.float (.infinite (sign = ['-'])), after)
  | 'n' :: 'a' :: 'n' :: after => some (.float .nan, after)
  | _ => none

def number? (s : List Char) : Option (Value × List Char) :=
  (basedInteger? s).or ((decimal? s).or (special? s))

end MarkdownTree.Toml
