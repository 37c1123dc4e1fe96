import MarkdownTree.Forest.Fault
import MarkdownTree.Forest.Traversal

/-!
The rows of tables. The sections of a table, its header and its bodies, hold the rows; here the
rows are taken together, the one of the header first.
-/

namespace MarkdownTree.Forest

def checkTable (f : Forest) (n : NodeId) : Except TreeFault Unit :=
  if (f.kind n).isA .table then .ok () else .error (.notATable (f.kind n))

def rowsOf (f : Forest) (table : NodeId) : List NodeId :=
  (f.children table).flatMap f.children

def tableRows (f : Forest) (table : NodeId) : Except TreeFault (List NodeId) := do
  f.checkTable table
  .ok (f.rowsOf table)

def rowCount (f : Forest) (table : NodeId) : Nat :=
  (f.rowsOf table).length

/-- The number of cells of the widest row; rows need not have the same width. -/
def columnCount (f : Forest) (table : NodeId) : Nat :=
  ((f.rowsOf table).map fun row => (f.children row).length).foldl max 0

/-- A size that can be asked of a table. -/
inductive Dimension where
  | both | rows | columns
  deriving DecidableEq

/-- The dimension that a value names: one for the rows, two for the columns. -/
def dimension? (v : Value) : Except TreeFault Dimension :=
  match v with
  | .null => .ok .both
  | v =>
    if v.agrees (.int 1) then .ok .rows
    else if v.agrees (.int 2) then .ok .columns
    else .error (.noSuchDimension v)

def tableSize (f : Forest) (table : NodeId) (dimension : Value) : Except TreeFault (List Nat) := do
  let d ← dimension? dimension
  f.checkTable table
  match d with
  | .both => .ok [f.rowCount table, f.columnCount table]
  | .rows => .ok [f.rowCount table]
  | .columns => .ok [f.columnCount table]

/-- A place in the rows of a table that may change between two steps: the section that is being
read with the index of its next row, and the index of the next section. -/
structure RowCursor where
  table : NodeId
  reading? : Option (NodeId × Nat)
  nextSection : Nat
  ended : Bool
  deriving DecidableEq, Inhabited

def rowCursor (f : Forest) (table : NodeId) : Except TreeFault RowCursor := do
  f.checkTable table
  .ok ⟨table, none, 0, false⟩

def firstRow (f : Forest) (cursor : RowCursor) (index : Nat) :
    List NodeId → Option NodeId × RowCursor
  | [] => (none, { cursor with reading? := none, nextSection := index, ended := true })
  | s :: rest =>
    match f.children s with
    | row :: _ => (some row, { cursor with reading? := some (s, 1), nextSection := index + 1 })
    | [] => f.firstRow cursor (index + 1) rest

/-- The next row, as the table is now. A section that was left is not looked at again, and the end
is final. -/
def nextRow (f : Forest) (cursor : RowCursor) : Option NodeId × RowCursor :=
  if cursor.ended then
    (none, cursor)
  else
    match cursor.reading?.bind fun (s, i) => ((f.children s)[i]?).map fun row => (row, s, i) with
    | some (row, s, i) => (some row, { cursor with reading? := some (s, i + 1) })
    | none =>
      f.firstRow cursor cursor.nextSection ((f.children cursor.table).drop cursor.nextSection)

end MarkdownTree.Forest
