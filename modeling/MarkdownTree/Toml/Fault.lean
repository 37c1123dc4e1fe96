import MarkdownTree.Text.Quoted

/-!
Faults of TOML documents. A fault is found where reading stops; the place is kept as the number of
characters that are left there, and reported as a line and a column.
-/

namespace MarkdownTree.Toml

/-- The name of a value: a key for each table on the way, and its own. -/
abbrev Key := List String

def Key.text (key : Key) : String :=
  match key with
  | [part] => "(" ++ Text.quoted part ++ ",)"
  | parts => "(" ++ String.intercalate ", " (parts.map Text.quoted) ++ ")"

/-- What is wrong with a document. -/
inductive Cause where
  | noStatement
  | noLineEnd
  | expected (text : String)
  | invalidCharacter (c : Char)
  | illegalCharacter (c : Char)
  | declaredTwice (key : Key)
  | redefined (key : Key)
  | immutable (key : Key)
  | overwritten
  | repeatedInline (part : String)
  | openTable
  | openTableList
  | openArray
  | openInlineTable
  | noEquals
  | noKey
  | noValue
  | loneBackslash
  | noHexDigits
  | notACharacter
  | unterminated
  | noSuchMoment
  | oversizedInteger (digits : Nat)
  deriving DecidableEq

def longestInteger : Nat := 4300

def Cause.message : Cause → String
  | .noStatement => "Invalid statement"
  | .noLineEnd => "Expected newline or end of document after a statement"
  | .expected text => "Expected " ++ Text.quoted text
  | .invalidCharacter c => "Found invalid character " ++ Text.quoted (String.singleton c)
  | .illegalCharacter c => "Illegal character " ++ Text.quoted (String.singleton c)
  | .declaredTwice key => "Cannot declare " ++ key.text ++ " twice"
  | .redefined key => "Cannot redefine namespace " ++ key.text
  | .immutable key => "Cannot mutate immutable namespace " ++ key.text
  | .overwritten => "Cannot overwrite a value"
  | .repeatedInline part => "Duplicate inline table key " ++ Text.quoted part
  | .openTable => "Expected ']' at the end of a table declaration"
  | .openTableList => "Expected ']]' at the end of an array declaration"
  | .openArray => "Unclosed array"
  | .openInlineTable => "Unclosed inline table"
  | .noEquals => "Expected '=' after a key in a key/value pair"
  | .noKey => "Invalid initial character for a key part"
  | .noValue => "Invalid value"
  | .loneBackslash => "Unescaped '\\' in a string"
  | .noHexDigits => "Invalid hex value"
  | .notACharacter => "Escaped character is not a Unicode scalar value"
  | .unterminated => "Unterminated string"
  | .noSuchMoment => "Invalid date or datetime"
  | .oversizedInteger digits =>
    "Exceeds the limit (" ++ toString longestInteger ++
      " digits) for integer string conversion: " ++
      "value has " ++ toString digits ++
      " digits; use sys.set_int_max_str_digits() to increase the limit"

/-- Whether a cause is that of reading a number, which tells no place. -/
def Cause.isPlaceless : Cause → Bool
  | .oversizedInteger _ => true
  | _ => false

/-- A cause, and the number of characters that are left where it shows. -/
structure Fault where
  cause : Cause
  left : Nat
  deriving DecidableEq

def lineAndColumn (before : List Char) : Nat × Nat :=
  before.foldl (fun (line, column) c => if c = '\n' then (line + 1, 1) else (line, column + 1))
    (1, 1)

def place (source : List Char) (left : Nat) : String :=
  if left = 0 then "end of document"
  else
    let (line, column) := lineAndColumn (source.take (source.length - left))
    "line " ++ toString line ++ ", column " ++ toString column

def Fault.text (source : List Char) (e : Fault) : String :=
  if e.cause.isPlaceless then e.cause.message
  else e.cause.message ++ " (at " ++ place source e.left ++ ")"

/-- The result of reading something from the start of a text, and the text after it. -/
abbrev Reads (α : Type) := Except Fault (α × List Char)

def stop {α : Type} (cause : Cause) (rest : List Char) : Except Fault α :=
  .error ⟨cause, rest.length⟩

end MarkdownTree.Toml
