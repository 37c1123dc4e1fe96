import MarkdownTree.Value

/-!
Why a record cannot be built from given values: one refusal for each value at fault, with the place
of the value, the cause, and the value itself.
-/

namespace MarkdownTree

/-- Why a value is refused. -/
inductive RefusalCause where
  | missing
  | unknownField
  | frozen
  | notText
  | notInteger
  | notFinite
  | fractional
  | unreadableInteger
  | oversizedInteger
  | below (least : Int)
  | above (most : Int)
  | notFlag
  | unreadableFlag
  | notChoice (options : List String)
  | notList
  | notRecord (name : String)
  | unacceptable (reason : String)
  deriving DecidableEq

namespace RefusalCause

def code : RefusalCause → String
  | .missing => "missing"
  | .unknownField => "extra_forbidden"
  | .frozen => "frozen_instance"
  | .notText => "string_type"
  | .notInteger => "int_type"
  | .notFinite => "finite_number"
  | .fractional => "int_from_float"
  | .unreadableInteger => "int_parsing"
  | .oversizedInteger => "int_parsing_size"
  | .below _ => "greater_than_equal"
  | .above _ => "less_than_equal"
  | .notFlag => "bool_type"
  | .unreadableFlag => "bool_parsing"
  | .notChoice _ => "literal_error"
  | .notList => "list_type"
  | .notRecord _ => "model_type"
  | .unacceptable _ => "value_error"

/-- Alternatives as an enumeration: commas between all but the last two. -/
def enumerate : List String → String
  | [] => ""
  | [a] => a
  | [a, b] => a ++ " or " ++ b
  | a :: rest => a ++ ", " ++ enumerate rest

def message : RefusalCause → String
  | .missing => "Field required"
  | .unknownField => "Extra inputs are not permitted"
  | .frozen => "Instance is frozen"
  | .notText => "Input should be a valid string"
  | .notInteger => "Input should be a valid integer"
  | .notFinite => "Input should be a finite number"
  | .fractional => "Input should be a valid integer, got a number with a fractional part"
  | .unreadableInteger =>
    "Input should be a valid integer, unable to parse string as an integer"
  | .oversizedInteger => "Unable to parse input string as an integer, exceeded maximum size"
  | .below least => "Input should be greater than or equal to " ++ toString least
  | .above most => "Input should be less than or equal to " ++ toString most
  | .notFlag => "Input should be a valid boolean"
  | .unreadableFlag => "Input should be a valid boolean, unable to interpret input"
  | .notChoice options => "Input should be " ++ enumerate (options.map Text.quoted)
  | .notList => "Input should be a valid list"
  | .notRecord name => "Input should be a valid dictionary or instance of " ++ name
  | .unacceptable reason => "Value error, " ++ reason

end RefusalCause

/-- A refused value and its place, from the outermost field inwards. -/
structure Refusal where
  path : List String
  cause : RefusalCause
  input : Value

def Refusal.within (name : String) (r : Refusal) : Refusal :=
  { r with path := name :: r.path }

/-- All refusals of an attempt to build a record. -/
structure Invalid where
  title : String
  refusals : List Refusal

namespace Invalid

/-- The longest text of a value that is shown whole, in bytes. -/
def shownWhole : Nat := 50

def startWithin (size : Nat) : List Char → List Char
  | [] => []
  | c :: rest => if c.utf8Size ≤ size then c :: startWithin (size - c.utf8Size) rest else []

/-- The text of a value, with its middle left out if it is long. -/
def abridge (s : String) : String :=
  if s.utf8ByteSize ≤ shownWhole then s
  else
    let cs := s.toList
    String.ofList (startWithin 25 cs ++ ['.', '.', '.'] ++ (startWithin 24 cs.reverse).reverse)

def placePart (part : String) : String :=
  if part.toList.contains '.' then "`" ++ part ++ "`" else part

/-- One refusal over two lines: the place, then what was wrong with the value. -/
def refusalText (r : Refusal) : String :=
  String.intercalate "." (r.path.map placePart) ++ "\n  " ++ r.cause.message ++
    " [type=" ++ r.cause.code ++ ", input_value=" ++ abridge (r.input.text fun _ => "Node") ++
    ", input_type=" ++ r.input.typeName ++ "]"

def report (e : Invalid) : String :=
  let count := e.refusals.length
  toString count ++ " validation error" ++ (if count = 1 then "" else "s") ++ " for " ++ e.title ++
    String.join (e.refusals.map fun r => "\n" ++ refusalText r)

end Invalid

end MarkdownTree
