import MarkdownTree.Forest.Assign
import MarkdownTree.Forest.Copy
import MarkdownTree.Forest.Sequence
import MarkdownTree.Forest.Traversal

/-!
Lists and dictionaries as objects. A forest holds a list or a dictionary as a value, wherever it
stands. On a heap each of them also has a handle that tells which object it is, so that one object
may stand in several places: what is put into it shows in all of them. A copy of a tree is made of
new objects. What is met twice on the way through the metadata of one node becomes one of them.
-/

namespace MarkdownTree

/-- Which object a value is, and which objects its parts are. A value without parts is none. -/
inductive Handle where
  | plain
  | object (number : Nat) (parts : List Handle)

namespace Value

def hasParts : Value → Bool
  | .list _ | .mapping _ | .record _ _ => true
  | _ => false

def parts : Value → List Value
  | .list items => items
  | .mapping entries | .record _ entries => entries.map (·.2)
  | _ => []

def withParts (v : Value) (parts : List Value) : Value :=
  match v with
  | .list _ => .list parts
  | .mapping entries => .mapping ((Entries.names entries).zip parts)
  | .record type fields => .record type ((Entries.names fields).zip parts)
  | v => v

end Value

namespace Handle

def parts : Handle → List Handle
  | .plain => []
  | .object _ parts => parts

mutual

/-- The numbers of all objects that a handle tells of. -/
def numbers : Handle → List Nat
  | .plain => []
  | .object number parts => number :: numbersOf parts
termination_by structural h => h

def numbersOf : List Handle → List Nat
  | [] => []
  | h :: rest => numbers h ++ numbersOf rest

end

mutual

/-- A handle fits a value if it tells an object for each value with parts in it, and for no other. -/
def Fits : Handle → Value → Prop
  | .plain, v => v.hasParts = false
  | .object _ parts, v => v.hasParts = true ∧ FitAll parts v.parts
termination_by structural h => h

def FitAll : List Handle → List Value → Prop
  | [], [] => True
  | h :: rest, v :: values => Fits h v ∧ FitAll rest values
  | _, _ => False

end

mutual

/-- The same handle with numbers from a new range. -/
def renew (base : Nat) : Handle → Handle
  | .plain => .plain
  | .object number parts => .object (base + number) (renewAll base parts)
termination_by structural h => h

def renewAll (base : Nat) : List Handle → List Handle
  | [] => []
  | h :: rest => renew base h :: renewAll base rest

end

mutual

/-- A handle after an object has got other parts. -/
def fill (number : Nat) (parts : List Handle) : Handle → Handle
  | .plain => .plain
  | .object other inner =>
    .object other (if other = number then parts else fillAll number parts inner)
termination_by structural h => h

def fillAll (number : Nat) (parts : List Handle) : List Handle → List Handle
  | [] => []
  | h :: rest => fill number parts h :: fillAll number parts rest

end

mutual

/-- A value of this handle after an object has got another content. -/
def fillValue (number : Nat) (content : Value) : Handle → Value → Value
  | .plain, v => v
  | .object other inner, v =>
    if other = number then content else v.withParts (fillValues number content inner v.parts)
termination_by structural h => h

def fillValues (number : Nat) (content : Value) : List Handle → List Value → List Value
  | h :: rest, v :: values => fillValue number content h v :: fillValues number content rest values
  | _, values => values

end

/-- The handles of entries after a value was put under a name. -/
def put (names : List String) (handles : List Handle) (name : String) (handle : Handle) :
    List Handle :=
  match names, handles with
  | key :: names, old :: handles =>
    if key == name then handle :: handles else old :: put names handles name handle
  | _, _ => [handle]

def under (names : List String) (handles : List Handle) (name : String) : Handle :=
  match names, handles with
  | key :: names, handle :: handles =>
    if key == name then handle else under names handles name
  | _, _ => .plain

end Handle

/-- The handles of the fields of all elements, and of all metadata dictionaries. Objects that are
still to be made have numbers from `next` on. -/
structure Handles where
  elements : Array (List Handle)
  records : Array Handle
  next : Nat

namespace Handles

def ofElement (l : Handles) (key : Nat) : List Handle :=
  l.elements[key]?.getD []

def ofRecord (l : Handles) (key : Nat) : Handle :=
  l.records[key]?.getD .plain

/-- No number of these handles is new any longer. -/
def nextAfter (next : Nat) (handles : List Handle) : Nat :=
  (Handle.numbersOf handles).foldl (fun next number => max next (number + 1)) next

def add (l : Handles) (fields : List Handle) (dictionary : Handle) : Handles where
  elements := l.elements.push fields
  records := l.records.push dictionary
  next := nextAfter l.next (dictionary :: fields)

def assign (l : Handles) (key : Nat) (fields : List Handle) : Handles where
  elements := l.elements.setIfInBounds key fields
  records := l.records
  next := nextAfter l.next fields

def fill (l : Handles) (number : Nat) (parts : List Handle) : Handles where
  elements := l.elements.map (Handle.fillAll number parts)
  records := l.records.map (Handle.fill number parts)
  next := nextAfter l.next parts

/-- Adds copies of elements and of dictionaries that are made of new objects. An object that stands
in several of them becomes one new object. -/
def addCopies (l : Handles) (elements records : List Nat) : Handles where
  elements := l.elements ++
    (elements.map fun key => Handle.renewAll l.next (l.ofElement key)).toArray
  records := l.records ++ (records.map fun key => (l.ofRecord key).renew l.next).toArray
  next := l.next + l.next

/-- The entries of a dictionary after an object got another content. -/
def fillEntries (number : Nat) (content : Value) (handle : Handle) (entries : Entries) : Entries :=
  match Handle.fillValue number content handle (.mapping entries) with
  | .mapping filled => filled
  | _ => entries

/-- A forest that has these handles, after an object got another content. -/
def fillForest (l : Handles) (number : Nat) (content : Value) (f : Forest) : Forest where
  nodes := f.nodes
  elements := f.elements.mapIdx fun key e => { e with
    fields := e.fields.names.zip
      (Handle.fillValues number content (l.ofElement key) (e.fields.map (·.2))) }
  records := f.records.mapIdx fun key entries =>
    fillEntries number content (l.ofRecord key) entries

end Handles

/-- A forest with the handles of its lists and dictionaries. -/
structure Heap where
  forest : Forest
  handles : Handles

namespace Heap

/-- Makes an element whose fields have these handles, and a dictionary. No node has them yet. -/
def make (element : Element) (fields : List Handle) (metadata : Entries) (dictionary : Handle)
    (h : Heap) : Heap where
  forest := (h.forest.addElement element).addRecord metadata
  handles := h.handles.add fields dictionary

/-- Makes a node with an element whose fields have these handles, and with a dictionary of metadata,
which is not copied. -/
def newNode (element : Element) (fields : List Handle) (children : Sequence) (metadata : Entries)
    (dictionary : Handle) (h : Heap) : Except TreeFault NodeId × Heap :=
  let (answer, f) := (Forest.newNodeBy element children metadata).run.run h.forest
  (answer, ⟨f, h.handles.add fields dictionary⟩)

/-- Gives the element of a node other fields, in place. -/
def assignElement (n : NodeId) (element : Element) (fields : List Handle) (h : Heap) : Heap where
  forest := h.forest.updateElement n element
  handles := h.handles.assign (h.forest.elementKey n) fields

/-- Gives an object another content, in place: it shows wherever the object stands. Nothing is put
into itself. -/
def fill (number : Nat) (content : Value) (parts : List Handle) (h : Heap) : Heap where
  forest := h.handles.fillForest number content h.forest
  handles := h.handles.fill number parts

def setEntry (n : NodeId) (name : String) (v : Value) (handle : Handle) (h : Heap) : Heap :=
  let entries := h.forest.metadata n
  match h.handles.ofRecord (h.forest.recordKey n) with
  | .object number parts =>
    h.fill number (.mapping (entries.put name v)) (Handle.put entries.names parts name handle)
  | .plain => h

def assignField (n : NodeId) (name : String) (v : Value) (handle : Handle) (h : Heap) : Heap :=
  let e := h.forest.element n
  match e.set? name v with
  | some e' => h.assignElement n e'
    (Handle.put e.fields.names (h.handles.ofElement (h.forest.elementKey n)) name handle)
  | none => h

/-- Adds an item at the end of a list, which is the object that the first handle tells. -/
def append (v : Value) (list : Handle) (item : Value) (handle : Handle) (h : Heap) :
    Except TreeFault Heap := do
  let content ← v.push item
  match list with
  | .object number parts => .ok (h.fill number content (parts ++ [handle]))
  | .plain => .ok h

/-- Adds an item to an entry of the metadata of a node that holds a list. -/
def appendToEntry (n : NodeId) (name : String) (item : Value) (handle : Handle) (h : Heap) :
    Except TreeFault Heap :=
  let entries := h.forest.metadata n
  match entries.get? name with
  | none => .error (.noEntry name)
  | some v =>
    let parts := (h.handles.ofRecord (h.forest.recordKey n)).parts
    h.append v (Handle.under entries.names parts name) item handle

/-- Adds an item to a field of the element of a node that holds a list. -/
def appendToField (n : NodeId) (name : String) (item : Value) (handle : Handle) (h : Heap) :
    Except TreeFault Heap :=
  let e := h.forest.element n
  match e.get? name with
  | none => .error (.noMember e.kind.name name)
  | some v =>
    let parts := h.handles.ofElement (h.forest.elementKey n)
    h.append v (Handle.under e.fields.names parts name) item handle

/-- Copies a dictionary of metadata with all that it leads to. -/
def copyRecord (record : Nat) (h : Heap) : Heap :=
  let f := h.forest
  let nodes := f.reach (Value.nodesEntries (f.records[record]?.getD []))
  let elements := (nodes.map f.elementKey).eraseDups
  let records := (record :: nodes.map f.recordKey).eraseDups
  ⟨(f.copyRecord record).2, h.handles.addCopies elements records⟩

def copyElement (key : Nat) (h : Heap) : Heap :=
  ⟨h.forest.addElement (h.forest.elements[key]?.getD default), h.handles.addCopies [key] []⟩

/-- Copies the metadata of a node and then its element. -/
def copyPayload (h : Heap) (n : NodeId) : Heap :=
  (h.copyRecord (h.forest.recordKey n)).copyElement (h.forest.elementKey n)

/-- Copies the tree below a node: the payloads of its nodes in pre-order, and new nodes for them. -/
def copyTree (n : NodeId) (h : Heap) : Except TreeFault (NodeId × Heap) :=
  match (Forest.copyTree n).run.run h.forest with
  | (.error e, _) => .error e
  | (.ok c, f) => .ok (c, ⟨f, ((h.forest.preorder n).foldl copyPayload h).handles⟩)

end Heap

end MarkdownTree
