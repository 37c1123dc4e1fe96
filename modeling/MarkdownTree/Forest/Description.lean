import MarkdownTree.Forest.Traversal
import MarkdownTree.Text.Lines

/-!
Descriptions of nodes for people: the kind, the fields, the number of children and the names of the
metadata, on lines that are indented by the depth in the tree. The fields are set down by a writer
that is given; a value that it refuses has no description.
-/

namespace MarkdownTree.Forest

/-- A node on one line: its element and the number of its children. -/
def shortTextWithin (f : Forest) : Nat → NodeId → String
  | 0, _ => "Node"
  | depth + 1, n =>
    "Node(" ++ (f.element n).info (shortTextWithin f depth) ++ ", " ++
      toString (f.children n).length ++ " children)"

def shortText (f : Forest) (n : NodeId) : String :=
  f.shortTextWithin (f.size + 1) n

variable {δ : Type}

/-- The lines on which the fields of a node are set down; there are none without fields. -/
def fieldLines (dump : Entries → Except δ String) (f : Forest) (n : NodeId) :
    Except δ (List String) :=
  let entries := (f.element n).ownEntries
  if entries.isEmpty then .ok [] else (dump entries).map Text.lines

/-- The description of a node, indented by a number of levels. -/
def describe (dump : Entries → Except δ String) (f : Forest) (indent : Int) (n : NodeId) :
    Except δ String := do
  let margin := String.ofList (List.replicate (2 * indent.toNat) ' ')
  let line (s : String) := margin ++ s ++ "\n"
  let head := line ((f.kind n).name ++ " node" ++ if f.isRoot n then " (root)" else "")
  let fields := (← f.fieldLines dump n).map fun s => line ("  " ++ s)
  let children :=
    if (f.children n).isEmpty then []
    else [line ("Has " ++ toString (f.children n).length ++ " children")]
  let metadata :=
    if (f.metadata n).isEmpty then []
    else [line ("Metadata keys: " ++ String.intercalate ", " (f.metadata n).names)]
  .ok (String.join (head :: (fields ++ children ++ metadata)))

/-- How many steps lie between a node and a root above it, or the root of its tree. -/
def depthBelow (f : Forest) (root n : NodeId) : Nat :=
  let line := f.lineage n
  min (line.takeWhile (· != root)).length (line.length - 1)

/-- The descriptions of all nodes of a tree in pre-order, indented by their depth. -/
def describeTree (dump : Entries → Except δ String) (f : Forest) (root : NodeId) :
    Except δ (List String) :=
  (collect (f.preorder root) (fun _ => true) id).mapM fun n =>
    f.describe dump (f.depthBelow root n) n

end MarkdownTree.Forest
