import MarkdownTree.Schema.Refusal

/-!
Records with declared fields, and how given values are read into them. Reading is lenient: texts
stand for numbers and flags where their meaning is plain. All faults of a record are found in one
pass, those of declared fields first, in the order of declaration.
-/

namespace MarkdownTree

inductive FieldType where
  | text
  | integer (least most : Option Int)
  | flag
  | choice (options : List String)
  | listOf (item : FieldType)

namespace FieldType

def isNumeralBlank (c : Char) : Bool :=
  (0x09 ≤ c.toNat && c.toNat ≤ 0x0D) || (0x2000 ≤ c.toNat && c.toNat ≤ 0x200A) ||
    [0x20, 0x85, 0xA0, 0x1680, 0x2028, 0x2029, 0x202F, 0x205F, 0x3000].contains c.toNat

/-- The digits of a numeral without the single low lines that may stand between them. -/
def ungroupDigits : List Char → Option (List Char)
  | [] => none
  | [c] => if c.isDigit then some [c] else none
  | c :: '_' :: rest => if c.isDigit then (ungroupDigits rest).map (c :: ·) else none
  | c :: rest => if c.isDigit then (ungroupDigits rest).map (c :: ·) else none

def dropZeroFraction (s : List Char) : List Char :=
  match s.dropWhile (· != '.') with
  | '.' :: fraction => if fraction.all (· == '0') then s.takeWhile (· != '.') else s
  | _ => s

def longestNumeral : Nat := 4300

/-- Whether a character may follow a zero at the start of a numeral, and is then passed over. -/
def isFiller (c : Char) : Bool :=
  c = '0' || c = '_'

/-- A numeral without the zeros that it starts with, and without the low lines among them, however
many; the last of them stays where no digit would be left. -/
def dropLeadingZeros : List Char → List Char
  | '0' :: rest =>
    let last := (rest.takeWhile isFiller).getLastD '0'
    match rest.dropWhile isFiller with
    | [] => [last]
    | '.' :: fraction => last :: '.' :: fraction
    | s => s
  | s => s

/-- The digits of a numeral after a minus sign; it may begin with a low line, and with a zero only
if that is all. -/
def negativeDigits (s : List Char) : Option (List Char) :=
  let ungrouped := match s with
    | '_' :: rest => ungroupDigits rest
    | s => ungroupDigits s
  match ungrouped with
  | some ('0' :: _ :: _) => none
  | digits => digits

/-- Reads an integer from a text: blanks around it, a sign, low lines between digits and a fraction
of zeros are allowed. -/
def readInteger (s : String) : Except RefusalCause Int :=
  let core := ((s.toList.dropWhile isNumeralBlank).reverse.dropWhile isNumeralBlank).reverse
  if longestNumeral < core.length then
    .error .oversizedInteger
  else
    let (negative, body) := Binary64.takeSign core
    let digits? :=
      if negative then negativeDigits (dropZeroFraction body)
      else ungroupDigits (dropZeroFraction (dropLeadingZeros body))
    match digits? with
    | some digits =>
      let n : Int := Binary64.digitsValue digits
      .ok (if negative then -n else n)
    | none => .error .unreadableInteger

def wordBound : Nat := Nat.pow 2 63

def fitsWord (i : Int) : Bool :=
  -wordBound ≤ i && i < wordBound

/-- The integer that a floating-point number is, if its size is less than a machine word can
hold. -/
def integerOfFloat (x : Binary64) : Except RefusalCause Int :=
  match x with
  | .finite .. =>
    match x.integer? with
    | some i => if i.natAbs < wordBound then .ok i else .error .oversizedInteger
    | none => .error .fractional
  | _ => .error .notFinite

def integerOf : Value → Except RefusalCause Int
  | .int i => .ok i
  | .bool b => .ok (if b then 1 else 0)
  | .float x => integerOfFloat x
  | .str s => readInteger s
  | _ => .error .notInteger

def withinBounds (least most : Option Int) (i : Int) : Except RefusalCause Value :=
  match least, most with
  | some l, some m =>
    if i < l then .error (.below l) else if m < i then .error (.above m) else .ok (.int i)
  | some l, none => if i < l then .error (.below l) else .ok (.int i)
  | none, some m => if m < i then .error (.above m) else .ok (.int i)
  | none, none => .ok (.int i)

def falseWords : List String := ["0", "off", "f", "false", "n", "no"]

def trueWords : List String := ["1", "on", "t", "true", "y", "yes"]

def readFlag (s : String) : Except RefusalCause Bool :=
  let word := s.map Char.toLower
  if falseWords.contains word then .ok false
  else if trueWords.contains word then .ok true
  else .error .unreadableFlag

def flagOfInteger (i : Int) : Except RefusalCause Bool :=
  if i = 0 then .ok false else if i = 1 then .ok true else .error .unreadableFlag

def flagOf : Value → Except RefusalCause Bool
  | .bool b => .ok b
  | .str s => readFlag s
  | .int i => if fitsWord i then flagOfInteger i else .error .notFlag
  | .float x =>
    match integerOfFloat x with
    | .ok i => flagOfInteger i
    | .error _ => .error .notFlag
  | _ => .error .notFlag

/-- Turns the cause of a refusal into the refusal of a value at this place. -/
def here (input : Value) : Except RefusalCause Value → Except (List Refusal) Value
  | .ok v => .ok v
  | .error cause => .error [⟨[], cause, input⟩]

/-- Collects the results for the items of a list, or all the refusals among them. -/
def collect : Nat → List (Except (List Refusal) Value) → Except (List Refusal) (List Value)
  | _, [] => .ok []
  | i, result :: rest =>
    match result, collect (i + 1) rest with
    | .ok v, .ok vs => .ok (v :: vs)
    | .ok _, .error es => .error es
    | .error es, .ok _ => .error (es.map (·.within (toString i)))
    | .error es, .error fs => .error (es.map (·.within (toString i)) ++ fs)

def read : FieldType → Value → Except (List Refusal) Value
  | .text, v => here v (match v with | .str s => .ok (.str s) | _ => .error .notText)
  | .integer least most, v => here v ((integerOf v).bind (withinBounds least most))
  | .flag, v => here v ((flagOf v).map .bool)
  | .choice options, v =>
    here v (match v with
      | .str s => if options.contains s then .ok (.str s) else .error (.notChoice options)
      | _ => .error (.notChoice options))
  | .listOf item, v =>
    match v with
    | .list vs => (collect 0 (vs.map item.read)).map .list
    | _ => .error [⟨[], .notList, v⟩]

end FieldType

/-- A declared field. A given value is first prepared, then read, then checked. -/
structure Field where
  name : String
  type : FieldType
  default : Option Value
  prepare : Value → Value := id
  check : Value → Except String Value := .ok

def Field.read (field : Field) (given : Value) : Except (List Refusal) Value :=
  match field.type.read (field.prepare given) with
  | .error es => .error es
  | .ok v =>
    match field.check v with
    | .ok v => .ok v
    | .error reason => .error [⟨[], .unacceptable reason, given⟩]

def Field.readFrom (field : Field) (given : Entries) : Except (List Refusal) Value :=
  match given.get? field.name with
  | some v => match field.read v with
    | .ok v => .ok v
    | .error es => .error (es.map (·.within field.name))
  | none => match field.default with
    | some v => .ok v
    | none => .error [⟨[field.name], .missing, .mapping given⟩]

def collectFields : List (String × Except (List Refusal) Value) → Except (List Refusal) Entries
  | [] => .ok []
  | (name, result) :: rest =>
    match result, collectFields rest with
    | .ok v, .ok vs => .ok ((name, v) :: vs)
    | .ok _, .error es => .error es
    | .error es, .ok _ => .error es
    | .error es, .error fs => .error (es ++ fs)

def refuseUnknown (names : List String) (given : Entries) : List Refusal :=
  (given.filter fun entry => !names.contains entry.1).map fun entry =>
    ⟨[entry.1], .unknownField, entry.2⟩

/-- Adds to the fields that were collected for a record the refusals of undeclared ones. -/
def closeRecord (collected : Except (List Refusal) Entries) (names : List String)
    (given : Entries) : Except (List Refusal) Entries :=
  match collected, refuseUnknown names given with
  | .ok vs, [] => .ok vs
  | .ok _, unknown => .error unknown
  | .error es, unknown => .error (es ++ unknown)

def readRecord (fields : List Field) (given : Entries) : Except (List Refusal) Entries :=
  closeRecord (collectFields (fields.map fun field => (field.name, field.readFrom given)))
    (fields.map (·.name)) given

end MarkdownTree
