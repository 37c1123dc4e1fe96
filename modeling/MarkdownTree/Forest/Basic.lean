import MarkdownTree.Element.Basic

/-!
Forests of document nodes. A forest keeps each node under a number that never changes: its element,
its parent, the ordered list of its children, and its metadata. Elements and metadata records are
kept apart, since several nodes may share one. Parent and children are separate records of one
relation; `Forest.WellFormed` says when they agree.
-/

namespace MarkdownTree

/-- What a forest knows about a node: the number of its element, its links, and the number of its
metadata record. -/
structure Node where
  element : Nat
  parent : Option NodeId
  children : List NodeId
  record : Nat
  deriving Inhabited

/-- A forest: its nodes, the elements and the metadata records, each numbered from zero. -/
structure Forest where
  nodes : Array Node
  elements : Array Element
  records : Array Entries
  deriving Inhabited

namespace Forest

def empty : Forest := ⟨#[], #[], #[]⟩

def size (f : Forest) : Nat :=
  f.nodes.size

def children (f : Forest) (n : NodeId) : List NodeId :=
  match f.nodes[n]? with
  | some node => node.children
  | none => []

/-- The parent of a node; a root has none. -/
def parent? (f : Forest) (n : NodeId) : Option NodeId :=
  f.nodes[n]?.bind (·.parent)

def elementKey (f : Forest) (n : NodeId) : Nat :=
  match f.nodes[n]? with
  | some node => node.element
  | none => 0

def recordKey (f : Forest) (n : NodeId) : Nat :=
  match f.nodes[n]? with
  | some node => node.record
  | none => 0

def element (f : Forest) (n : NodeId) : Element :=
  f.elements[f.elementKey n]?.getD default

def kind (f : Forest) (n : NodeId) : Kind :=
  (f.element n).kind

def kindAt (f : Forest) (key : Nat) : Kind :=
  (f.elements[key]?.getD default).kind

def metadata (f : Forest) (n : NodeId) : Entries :=
  f.records[f.recordKey n]?.getD []

def isRoot (f : Forest) (n : NodeId) : Bool :=
  (f.parent? n).isNone

def updateNode (f : Forest) (n : NodeId) (change : Node → Node) : Forest :=
  { f with nodes := f.nodes.modify n change }

/-- Assigns the list of children; no parent changes. -/
def setChildren (f : Forest) (n : NodeId) (children : List NodeId) : Forest :=
  f.updateNode n ({ · with children })

/-- Assigns the parent; no list of children changes. -/
def setParent (f : Forest) (n : NodeId) (parent : Option NodeId) : Forest :=
  f.updateNode n ({ · with parent })

/-- Adds a root without children that has the element and the metadata record with the given
numbers. -/
def addRoot (f : Forest) (element record : Nat) : NodeId × Forest :=
  (f.nodes.size, { f with nodes := f.nodes.push ⟨element, none, [], record⟩ })

def addElement (f : Forest) (element : Element) : Forest :=
  { f with elements := f.elements.push element }

/-- Adds a metadata record; no node has it yet. -/
def addRecord (f : Forest) (metadata : Entries) : Forest :=
  { f with records := f.records.push metadata }

/-- Adds a root without children that has an element and metadata of its own. -/
def addNode (f : Forest) (element : Element) (metadata : Entries) : NodeId × Forest :=
  ((f.addElement element).addRecord metadata).addRoot f.elements.size f.records.size

def setElement (f : Forest) (n : NodeId) (element : Element) : Forest :=
  { f.updateNode n ({ · with element := f.elements.size }) with
    elements := f.elements.push element }

/-- Changes the element of a node in place, for all nodes that share it. -/
def updateElement (f : Forest) (n : NodeId) (element : Element) : Forest :=
  { f with elements := f.elements.setIfInBounds (f.elementKey n) element }

/-- Changes the metadata of a node in place, for all nodes that share the record. -/
def updateMetadata (f : Forest) (n : NodeId) (change : Entries → Entries) : Forest :=
  { f with records := f.records.modify (f.recordKey n) change }

theorem children_updateNode (f : Forest) (n m : NodeId) (g : Node → Node) :
    (f.updateNode n g).children m =
      match f.nodes[m]? with
      | some node => if n = m then (g node).children else node.children
      | none => [] := by
  simp only [updateNode, children, Array.getElem?_modify]
  cases f.nodes[m]? <;> by_cases h : n = m <;> simp [h]

theorem parent?_updateNode (f : Forest) (n m : NodeId) (g : Node → Node) :
    (f.updateNode n g).parent? m =
      match f.nodes[m]? with
      | some node => if n = m then (g node).parent else node.parent
      | none => none := by
  simp only [updateNode, parent?, Array.getElem?_modify]
  cases f.nodes[m]? <;> by_cases h : n = m <;> simp [h]

theorem parent?_setChildren (f : Forest) (n m : NodeId) (cs : List NodeId) :
    (f.setChildren n cs).parent? m = f.parent? m := by
  rw [setChildren, parent?_updateNode, parent?]
  cases f.nodes[m]? <;> simp

theorem children_setParent (f : Forest) (n m : NodeId) (p : Option NodeId) :
    (f.setParent n p).children m = f.children m := by
  rw [setParent, children_updateNode, children]
  cases f.nodes[m]? <;> simp

theorem elementKey_updateNode (f : Forest) (n m : NodeId) (g : Node → Node)
    (hg : ∀ node, (g node).element = node.element) :
    (f.updateNode n g).elementKey m = f.elementKey m := by
  simp only [updateNode, elementKey, Array.getElem?_modify]
  cases f.nodes[m]? <;> by_cases h : n = m <;> simp [h, hg]

theorem recordKey_updateNode (f : Forest) (n m : NodeId) (g : Node → Node)
    (hg : ∀ node, (g node).record = node.record) :
    (f.updateNode n g).recordKey m = f.recordKey m := by
  simp only [updateNode, recordKey, Array.getElem?_modify]
  cases f.nodes[m]? <;> by_cases h : n = m <;> simp [h, hg]

theorem children_setChildren (f : Forest) (n m : NodeId) (cs : List NodeId) :
    (f.setChildren n cs).children m = if n = m ∧ m < f.size then cs else f.children m := by
  rw [setChildren, children_updateNode, children, size]
  rcases Nat.lt_or_ge m f.nodes.size with h | h
  · by_cases hn : n = m <;> simp [h, hn]
  · simp [Nat.not_lt.2 h]

theorem parent?_setParent (f : Forest) (n m : NodeId) (p : Option NodeId) :
    (f.setParent n p).parent? m = if n = m ∧ m < f.size then p else f.parent? m := by
  rw [setParent, parent?_updateNode, parent?, size]
  rcases Nat.lt_or_ge m f.nodes.size with h | h
  · by_cases hn : n = m <;> simp [h, hn]
  · simp [Nat.not_lt.2 h]

@[simp] theorem size_setChildren (f : Forest) (n : NodeId) (cs : List NodeId) :
    (f.setChildren n cs).size = f.size := by
  simp [setChildren, updateNode, size]

@[simp] theorem size_setParent (f : Forest) (n : NodeId) (p : Option NodeId) :
    (f.setParent n p).size = f.size := by
  simp [setParent, updateNode, size]

/-- A node followed by its ancestors, as many as the fuel allows. -/
def lineageWithin (f : Forest) : Nat → NodeId → List NodeId
  | 0, _ => []
  | fuel + 1, n =>
    n :: match f.parent? n with
      | some p => lineageWithin f fuel p
      | none => []

/-- A node followed by its ancestors. A lineage without repetition is no longer than the forest. -/
def lineage (f : Forest) (n : NodeId) : List NodeId :=
  f.lineageWithin (f.size + 1) n

def isAncestorOf (f : Forest) (a n : NodeId) : Bool :=
  (f.lineage n).contains a

end Forest

end MarkdownTree
