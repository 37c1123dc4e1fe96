import MarkdownTree.Toml.Text
import MarkdownTree.Value

/-!
Writes tables as TOML documents. In each table the values that fit on a line come first, then the
tables in it, each under its full name; an empty line stands before a table that is not the first
thing in its surroundings. Before a list of tables it stands if the list was not the first thing to
be added. A table that holds nothing but tables needs no line of its own.
-/

namespace MarkdownTree.Toml

/-- A value of this type cannot be written. -/
structure Unwritable where
  type : String

def Unwritable.message (e : Unwritable) : String :=
  "Unable to convert an object of <class '" ++ e.type ++ "'> to a TOML item"

def unwritable (v : Value) : Unwritable :=
  match v with
  | .node _ => ⟨"doctree.markdown.tree.Node"⟩
  | v => ⟨v.typeName⟩

/-- Whether a part of a key can stand without quotation marks. -/
def isBarePart (part : String) : Bool :=
  part != "" && part.toList.all fun c => c.isAlphanum || c = '-' || c = '_'

def partText (part : String) : String :=
  if isBarePart part then part else quote part

def isTable : Value → Bool
  | .mapping _ => true
  | _ => false

mutual

def inlineText : Value → Except Unwritable String
  | .bool b => .ok (if b then "true" else "false")
  | .int i => .ok (toString i)
  | .float x => .ok x.text
  | .str s => .ok (quote s)
  | .list items => do .ok ("[" ++ String.intercalate ", " (← inlineTexts items) ++ "]")
  | .mapping entries => do
    let (tables, others) := (← inlinePairs entries).partition (·.1)
    .ok ("\x7b" ++ String.intercalate ", " ((others ++ tables).map (·.2)) ++ "\x7d")
  | v => .error (unwritable v)
termination_by structural v => v

def inlineTexts : List Value → Except Unwritable (List String)
  | [] => .ok []
  | v :: rest => do .ok ((← inlineText v) :: (← inlineTexts rest))

/-- Entries on a line, and whether each is a table. -/
def inlinePairs : List (String × Value) → Except Unwritable (List (Bool × String))
  | [] => .ok []
  | (part, v) :: rest => do
    let text ← inlineText v
    .ok ((isTable v, partText part ++ " = " ++ text) :: (← inlinePairs rest))

end

/-- What stands under a part of a key: a value on a line, a table, or a list of tables. -/
inductive Item where
  | line (text : String)
  | table (entries : List (String × Item))
  | tables (items : List (List (String × Item)))
  deriving Inhabited

def tablesLast (entries : List (String × Item)) : List (String × Item) :=
  let (tables, others) := entries.partition fun (_, item) => match item with
    | .table _ => true
    | _ => false
  others ++ tables

mutual

/-- The item of a value: lists of tables are written as such, other lists on a line. The entries of
a table that are tables are added last. -/
def itemOf : Value → Except Unwritable Item
  | .mapping entries => (itemsOf entries).map fun items => .table (tablesLast items)
  | .list items =>
    if items.isEmpty || !items.all isTable then (inlineText (.list items)).map .line
    else (tablesOf items).map .tables
  | v => (inlineText v).map .line
termination_by structural v => v

def itemsOf : List (String × Value) → Except Unwritable (List (String × Item))
  | [] => .ok []
  | (part, v) :: rest => do
    let item ← itemOf v
    .ok ((part, item) :: (← itemsOf rest))

def tablesOf : List Value → Except Unwritable (List (List (String × Item)))
  | [] => .ok []
  | v :: rest => do
    let tables ← tablesOf rest
    match ← itemOf v with
    | .table entries => .ok (entries :: tables)
    | _ => .ok tables

end

def linesText (entries : List (String × Item)) : String :=
  String.join (entries.map fun (part, item) => match item with
    | .line text => partText part ++ " = " ++ text ++ "\n"
    | _ => "")

def hasLine (entries : List (String × Item)) : Bool :=
  entries.any fun (_, item) => match item with
    | .line _ => true
    | _ => false

def nameBelow (path part : String) : String :=
  if path = "" then partText part else path ++ "." ++ partText part

def spacing (due : Bool) : String :=
  if due then "\n" else ""

mutual

def itemText (path : String) (spaced : Bool) : Item → String
  | .line _ => ""
  | .table entries =>
    spacing spaced ++
    (if entries.isEmpty || hasLine entries then "[" ++ path ++ "]\n" else "") ++
    linesText entries ++ tablesText path (hasLine entries) false entries
  | .tables items => listText path spaced items
termination_by structural item => item

/-- The tables of a table; `spaced` tells whether something stands before them, `added` whether
something was added before them. -/
def tablesText (path : String) (spaced added : Bool) : List (String × Item) → String
  | [] => ""
  | (_, .line _) :: rest => tablesText path spaced true rest
  | (part, .tables items) :: rest =>
    listText (nameBelow path part) added items ++ tablesText path true true rest
  | (part, item) :: rest =>
    itemText (nameBelow path part) spaced item ++ tablesText path true true rest

def listText (path : String) (spaced : Bool) : List (List (String × Item)) → String
  | [] => ""
  | entries :: rest =>
    spacing spaced ++ "[[" ++ path ++ "]]\n" ++
    linesText entries ++ tablesText path (hasLine entries) false entries ++ listText path true rest

end

/-- The items of a document: its tables keep their order, and so do the entries of each. -/
def sectionsOf : List (String × Value) → Except Unwritable (List (String × Item))
  | [] => .ok []
  | (part, .mapping entries) :: rest => do
    let items ← itemsOf entries
    .ok ((part, .table items) :: (← sectionsOf rest))
  | (part, v) :: rest => do
    let item ← itemOf v
    .ok ((part, item) :: (← sectionsOf rest))

def documentText (entries : Entries) : Except Unwritable String := do
  let items ← sectionsOf entries
  .ok (linesText items ++ tablesText "" (hasLine items) false items)

end MarkdownTree.Toml
