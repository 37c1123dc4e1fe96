import MarkdownTree.Toml.Fault
import MarkdownTree.Value

/-!
The tables of a TOML document. A table is found by its key, and made on the way if it is not there;
a list of tables stands for its last one. Some keys may not be used again: those of tables that
were declared, and everything inside of values that were written in one piece.
-/

namespace MarkdownTree.Toml

def changeLast (change : Entries → Option Entries) : List Value → Option (List Value)
  | [] => none
  | [.mapping table] => (change table).map fun table => [.mapping table]
  | [_] => none
  | item :: rest => (changeLast change rest).map (item :: ·)

/-- Changes the table of a key, which is made if it is not there. Fails if another value is found on
the way, or a list of tables where `throughLists` does not hold. -/
def changeTable (throughLists : Bool) (change : Entries → Option Entries) :
    Key → Entries → Option Entries
  | [], table => change table
  | part :: rest, table =>
    let inside := changeTable throughLists change rest
    match table.get? part with
    | none => (inside []).map fun inner => table.put part (.mapping inner)
    | some (.mapping inner) => (inside inner).map fun inner => table.put part (.mapping inner)
    | some (.list items) =>
      if throughLists then (changeLast inside items).map fun items => table.put part (.list items)
      else none
    | some _ => none

def addEntry (part : String) (v : Value) (table : Entries) : Option Entries :=
  if table.has part then none else some (table.put part v)

/-- Appends an empty table to a list of tables, which is made if it is not there. -/
def appendTable (part : String) (table : Entries) : Option Entries :=
  match table.get? part with
  | none => some (table.put part (.list [.mapping []]))
  | some (.list items) => some (table.put part (.list (items ++ [.mapping []])))
  | some _ => none

/-- Keys of tables that were declared, and of values that were written in one piece. -/
structure Marks where
  declared : List Key
  frozen : List Key

namespace Marks

def none : Marks := ⟨[], []⟩

def isDeclared (marks : Marks) (key : Key) : Bool :=
  marks.declared.contains key

/-- Whether a key lies in a value that was written in one piece. -/
def isFrozen (marks : Marks) (key : Key) : Bool :=
  marks.frozen.any (·.isPrefixOf key)

def declare (marks : Marks) (key : Key) : Marks :=
  { marks with declared := key :: marks.declared }

def freeze (marks : Marks) (key : Key) : Marks :=
  { marks with frozen := key :: marks.frozen }

def release (marks : Marks) (key : Key) : Marks :=
  ⟨marks.declared.filter (!key.isPrefixOf ·), marks.frozen.filter (!key.isPrefixOf ·)⟩

end Marks

def isNested : Value → Bool
  | .mapping _ | .list _ => true
  | _ => false

end MarkdownTree.Toml
