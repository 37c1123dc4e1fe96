import MarkdownTree.Value

/-!
Reads JSON texts as values. Numbers without fraction and exponent are integers; `NaN` and infinite
numbers are allowed; of equal names in an object the last one counts.
-/

namespace MarkdownTree.Json

def skipBlanks (s : List Char) : List Char :=
  s.dropWhile fun c => c = ' ' || c = '\t' || c = '\n' || c = '\r'

def hexValue? (c : Char) : Option Nat :=
  if c.isDigit then some (c.toNat - 48)
  else if 'a' ≤ c && c ≤ 'f' then some (c.toNat - 87)
  else if 'A' ≤ c && c ≤ 'F' then some (c.toNat - 55)
  else none

def unit? (a b c d : Char) : Option Nat := do
  some (4096 * (← hexValue? a) + 256 * (← hexValue? b) + 16 * (← hexValue? c) + (← hexValue? d))

/-- Whether two code units belong together. -/
def isPair (high low : Nat) : Bool :=
  0xD800 ≤ high && high < 0xDC00 && 0xDC00 ≤ low && low < 0xE000

/-- The character of a code; half of a pair that stands alone is replaced. -/
def charOf (code : Nat) : Char :=
  if Nat.isValidChar code then Char.ofNat code else '\ufffd'

/-- The characters of codes, of which two may belong together. -/
def joinPairs : List Nat → List Char
  | high :: low :: rest =>
    if isPair high low then
      charOf (0x10000 + (high - 0xD800) * 0x400 + (low - 0xDC00)) :: joinPairs rest
    else
      charOf high :: joinPairs (low :: rest)
  | [code] => [charOf code]
  | [] => []

def escaped? : Char → Option Char
  | '"' => some '"'
  | '\\' => some '\\'
  | '/' => some '/'
  | 'b' => some '\x08'
  | 'f' => some '\x0c'
  | 'n' => some '\n'
  | 'r' => some '\r'
  | 't' => some '\t'
  | _ => none

def before (code : Nat) (read : Option (List Nat × List Char)) : Option (List Nat × List Char) :=
  read.map fun (codes, rest) => (code :: codes, rest)

def readCodes : List Char → Option (List Nat × List Char)
  | '"' :: rest => some ([], rest)
  | '\\' :: 'u' :: a :: b :: c :: d :: rest => do before (← unit? a b c d) (readCodes rest)
  | '\\' :: letter :: rest => do before (← escaped? letter).toNat (readCodes rest)
  | c :: rest => if c.toNat < 0x20 || c = '\\' then none else before c.toNat (readCodes rest)
  | [] => none

def readText (s : List Char) : Option (String × List Char) :=
  (readCodes s).map fun (codes, rest) => (String.ofList (joinPairs codes), rest)

def minusAt : List Char → List Char × List Char
  | '-' :: rest => (['-'], rest)
  | s => ([], s)

/-- The digits before the fraction: a zero alone, or digits that do not start with a zero. -/
def wholePart? (s : List Char) : Option (List Char × List Char) :=
  match s with
  | '0' :: rest => some (['0'], rest)
  | s =>
    let digits := s.takeWhile Char.isDigit
    if digits.isEmpty then none else some (digits, s.dropWhile Char.isDigit)

def fractionAt (s : List Char) : List Char × List Char :=
  match s with
  | '.' :: rest =>
    let digits := rest.takeWhile Char.isDigit
    if digits.isEmpty then ([], s) else ('.' :: digits, rest.dropWhile Char.isDigit)
  | _ => ([], s)

def signAt : List Char → List Char × List Char
  | '+' :: rest => (['+'], rest)
  | '-' :: rest => (['-'], rest)
  | s => ([], s)

def exponentAt (s : List Char) : List Char × List Char :=
  match s with
  | c :: rest =>
    if c = 'e' || c = 'E' then
      let (sign, rest) := signAt rest
      let digits := rest.takeWhile Char.isDigit
      if digits.isEmpty then ([], s) else ('e' :: sign ++ digits, rest.dropWhile Char.isDigit)
    else
      ([], s)
  | [] => ([], s)

def longestInteger : Nat := 4300

def readNumber (s : List Char) : Option (Value × List Char) := do
  let (minus, rest) := minusAt s
  let (whole, rest) ← wholePart? rest
  let (fraction, rest) := fractionAt rest
  let (exponent, rest) := exponentAt rest
  if fraction.isEmpty && exponent.isEmpty then
    if longestInteger < whole.length then none
    else
      let n : Int := Binary64.digitsValue whole
      some (.int (if minus.isEmpty then n else -n), rest)
  else
    let x ← Binary64.ofNumeral? (minus ++ whole ++ fraction ++ exponent)
    some (.float x, rest)

def words : List (List Char × Value) := [
  ("null".toList, .null), ("true".toList, .bool true), ("false".toList, .bool false),
  ("NaN".toList, .float .nan), ("Infinity".toList, .float (.infinite false)),
  ("-Infinity".toList, .float (.infinite true))]

def readWord (s : List Char) : Option (Value × List Char) :=
  words.findSome? fun (word, v) => if word.isPrefixOf s then some (v, s.drop word.length) else none

def readName (s : List Char) : Option (String × List Char) := do
  match skipBlanks s with
  | '"' :: rest =>
    let (name, rest) ← readText rest
    match skipBlanks rest with
    | ':' :: rest => some (name, rest)
    | _ => none
  | _ => none

mutual

def readValue : Nat → List Char → Option (Value × List Char)
  | 0, _ => none
  | fuel + 1, s =>
    match skipBlanks s with
    | '"' :: rest => (readText rest).map fun (t, rest) => (.str t, rest)
    | '[' :: rest =>
      match skipBlanks rest with
      | ']' :: after => some (.list [], after)
      | s => (readItems fuel s).map fun (items, rest) => (.list items, rest)
    | '\x7b' :: rest =>
      match skipBlanks rest with
      | '\x7d' :: after => some (.mapping [], after)
      | s => (readEntries fuel [] s).map fun (entries, rest) => (.mapping entries, rest)
    | s => (readWord s).or (readNumber s)

/-- Reads the items of a list up to its end; there is at least one. -/
def readItems : Nat → List Char → Option (List Value × List Char)
  | 0, _ => none
  | fuel + 1, s =>
    match readValue fuel s with
    | none => none
    | some (v, rest) =>
      match skipBlanks rest with
      | ']' :: after => some ([v], after)
      | ',' :: rest => (readItems fuel rest).map fun (items, rest) => (v :: items, rest)
      | _ => none

/-- Reads the entries of an object up to its end; there is at least one. -/
def readEntries : Nat → Entries → List Char → Option (Entries × List Char)
  | 0, _, _ => none
  | fuel + 1, entries, s =>
    match readName s with
    | none => none
    | some (name, rest) =>
      match readValue fuel rest with
      | none => none
      | some (v, rest) =>
        match skipBlanks rest with
        | '\x7d' :: after => some (entries.put name v, after)
        | ',' :: rest => readEntries fuel (entries.put name v) rest
        | _ => none

end

def read? (text : String) : Option Value :=
  let s := text.toList
  match readValue (2 * s.length + 2) s with
  | some (v, rest) => if (skipBlanks rest).isEmpty then some v else none
  | none => none

end MarkdownTree.Json
