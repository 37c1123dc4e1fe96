import MarkdownTree.Forest.Attach

/-!
Assignments to elements and metadata in place, and the content of a tree as one nested value. Fields
take any value; nothing is validated here.
-/

namespace MarkdownTree

def Value.push (v item : Value) : Except TreeFault Value :=
  match v with
  | .list items => .ok (.list (items ++ [item]))
  | v => .error (.noMember v.typeName "append")

namespace Forest

/-- Assigns a field of the element of a node. A name that begins with a low line is none of a field,
and is passed over. -/
def assignField (n : NodeId) (name : String) (value : Value) : Edit Unit := do
  let f ← get
  match (f.element n).set? name value with
  | some e => change fun f => f.updateElement n e
  | none =>
    if name.toList.head? = some '_' then pure () else throw (.noField (f.kind n) name)

/-- Adds an item to a field of the element of a node that holds a list. -/
def appendToField (n : NodeId) (name : String) (item : Value) : Edit Unit := do
  let f ← get
  match (f.element n).get? name with
  | none => throw (.noMember (f.kind n).name name)
  | some v => assignField n name (← v.push item)

def setEntry (n : NodeId) (name : String) (value : Value) : Edit Unit :=
  change fun f => f.updateMetadata n fun m => m.put name value

/-- Adds an item to an entry of the metadata of a node that holds a list. -/
def appendToEntry (n : NodeId) (name : String) (item : Value) : Edit Unit := do
  match ((← get).metadata n).get? name with
  | none => throw (.noEntry name)
  | some v => setEntry n name (← v.push item)

/-- A tree as nested dictionaries, down to a depth. -/
def asValueWithin (f : Forest) : Nat → NodeId → Value
  | 0, _ => .null
  | depth + 1, n => .mapping [
      ("element", .mapping (f.element n).dump),
      ("meta", .mapping (f.metadata n)),
      ("children", .list ((f.children n).map (asValueWithin f depth)))]

/-- A tree as nested dictionaries of elements, metadata and children. -/
def asValue (f : Forest) (n : NodeId) : Value :=
  f.asValueWithin (f.size + 1) n

end Forest

end MarkdownTree
