import MarkdownTree.Forest.Attach
import MarkdownTree.Forest.Callback

/-!
Copies of trees. A copy is made of new nodes only, the nodes among the metadata included: with a
node that metadata refers to, everything is copied that can be reached from it, its ancestors too,
so that nothing below the copy is shared with the source.
-/

namespace MarkdownTree

/-- What a node of a copy gets as its element: the element of the source node itself, which both
then share; an element of its own; or a value that is no element, which makes the copy fail. -/
inductive Payload where
  | shared
  | own (element : Element)
  | invalid (type : String)

namespace Forest

/-- The nodes that can be reached in one step from a node: its parent, its children, and those that
its metadata refers to. -/
def neighbours (f : Forest) (n : NodeId) : List NodeId :=
  (f.parent? n).toList ++ f.children n ++ Value.nodesEntries (f.metadata n)

/-- Adds to the nodes seen so far all that can be reached from a frontier in so many steps. -/
def reachWithin (f : Forest) : Nat → List NodeId → List NodeId → List NodeId
  | 0, seen, _ => seen
  | steps + 1, seen, frontier =>
    let new := (frontier.filter (!seen.contains ·)).eraseDups
    if new.isEmpty then seen
    else reachWithin f steps (seen ++ new) (new.flatMap f.neighbours)

def reach (f : Forest) (start : List NodeId) : List NodeId :=
  f.reachWithin (f.size + 1) [] start

/-- The number that replaces one of the listed numbers when the list is renumbered from `base`
on; others stay. -/
def renumber (listed : List Nat) (base : Nat) (n : Nat) : Nat :=
  match listed.findIdx? (· == n) with
  | some i => base + i
  | none => n

/-- Copies a metadata record with all that it leads to, and answers the number of the copy. Nodes
and elements that are met twice are copied once; so is the record itself if one of those nodes
has it. -/
def copyRecord (f : Forest) (record : Nat) : Nat × Forest :=
  let entries := f.records[record]?.getD []
  let nodes := f.reach (Value.nodesEntries entries)
  let elements := (nodes.map f.elementKey).eraseDups
  let records := (record :: nodes.map f.recordKey).eraseDups
  let newNode := renumber nodes f.nodes.size
  let newElement := renumber elements f.elements.size
  let newRecord := renumber records f.records.size
  let copyNode (n : NodeId) : Node :=
    ⟨newElement (f.elementKey n), (f.parent? n).map newNode, (f.children n).map newNode,
      newRecord (f.recordKey n)⟩
  let copyEntries (r : Nat) : Entries :=
    Value.mapNodesEntries newNode (f.records[r]?.getD [])
  (newRecord record,
    { nodes := f.nodes ++ (nodes.map copyNode).toArray
      elements := f.elements ++ (elements.map fun e => f.elements[e]?.getD default).toArray
      records := f.records ++ (records.map copyEntries).toArray })

/-- The nodes of a copy that are not in the forest yet: for each of them the numbers of an element
and of a metadata record, and the drafts of its children. Nobody can reach them before the whole
copy is made. -/
inductive Draft where
  | node (element record : Nat) (children : List Draft)

mutual
/-- Adds the nodes of a draft to the forest, children first, and answers the root. -/
def plant : Draft → Forest → NodeId × Forest
  | .node element record children, f =>
    let (nodes, f) := plantAll children f
    let (n, f) := f.addRoot element record
    (n, adopt n nodes (f.setChildren n nodes))

/-- Adds the nodes of drafts one after the other, and answers their roots. -/
def plantAll : List Draft → Forest → List NodeId × Forest
  | [], f => ([], f)
  | d :: rest, f =>
    let (n, f) := plant d f
    let (nodes, f) := plantAll rest f
    (n :: nodes, f)
end

/-- How the elements of a copy are chosen: for each node, in pre-order. -/
abbrev PayloadMap (σ ε : Type) := Callback σ ε Payload

/-- Why copying a tree fails: a fault of the tree, a failure of the choice of elements, or a tree
that grew by too much meanwhile. -/
inductive CopyFailure (ε : Type) where
  | fault (e : TreeFault)
  | choice (e : ε)
  | exhausted

/-- The result of copying: an answer or a failure, the forest, and the state of the choice. -/
abbrev Copying (σ ε α : Type) := Asking σ (CopyFailure ε) α

/-- The kind of the element that a payload stands for, where `key` numbers the element of the
source. -/
def payloadKind (f : Forest) (key : Nat) : Payload → Kind
  | .shared => f.kindAt key
  | .own element => element.kind
  | .invalid _ => .element

/-- Whether a payload may stand below an element of the given kind. -/
def checkPayload (f : Forest) (parent : Option Kind) (key : Nat) (payload : Payload) :
    Except TreeFault Unit :=
  match payload, parent with
  | .invalid type, _ => .error (.mappedToValue type)
  | _, none => .ok ()
  | p, some k => checkKinds k (f.payloadKind key p)

/-- Copies the metadata of `n` and adds the element of a payload, unless it is there already;
answers the numbers of the element and of the record. -/
def addPayload (key : Nat) (n : NodeId) (payload : Payload) (f : Forest) : (Nat × Nat) × Forest :=
  let (record, f) := f.copyRecord (f.recordKey n)
  match payload with
  | .own element => ((f.elements.size, record), f.addElement element)
  | _ => ((key, record), f)

variable {σ ε : Type}

/-- Chooses the element of the copy of `n`, below an element of the given kind if there is one;
answers the kind and the numbers of the element and of the record. -/
def choosePayload (choose : PayloadMap σ ε) (parent : Option Kind) (n : NodeId) :
    Copying σ ε (Kind × Nat × Nat) := do
  let key := (← Asking.forest).elementKey n
  let payload ← choose.ask .choice n
  let f ← Asking.forest
  match f.checkPayload parent key payload with
  | .error e => throw (.fault e)
  | .ok () =>
    let keys ← Asking.change (addPayload key n payload)
    pure (f.payloadKind key payload, keys)

/-- Drafts of the children of a node from an index on, as they are listed when their turn comes. -/
def draftFrom (draftOne : NodeId → Copying σ ε Draft) (n : NodeId) :
    Nat → Nat → Copying σ ε (List Draft)
  | 0, _ => throw .exhausted
  | turns + 1, i => do
    match ((← Asking.forest).children n)[i]? with
    | none => pure []
    | some c => do
      let d ← draftOne c
      let rest ← draftFrom draftOne n turns (i + 1)
      pure (d :: rest)

/-- A draft of the tree below a node, down to a depth. `extra` says by how many children a list may
grow meanwhile. -/
def draftWithin (choose : PayloadMap σ ε) (extra : Nat) :
    Nat → Option Kind → NodeId → Copying σ ε Draft
  | 0, _, _ => throw .exhausted
  | depth + 1, parent, n => do
    let (kind, element, record) ← choosePayload choose parent n
    let width := ((← Asking.forest).children n).length
    let children ← draftFrom (draftWithin choose extra depth (some kind)) n (width + 1 + extra) 0
    pure (.node element record children)

/-- Copies the tree below a node with chosen elements, and answers the root of the copy. A choice
that changes the forest may make the tree deeper and its lists longer by so much. -/
def copyTreeWith (choose : PayloadMap σ ε) (extra : Nat) (n : NodeId) : Copying σ ε NodeId := do
  let size := (← Asking.forest).size
  let d ← draftWithin choose extra (size + 1 + extra) none n
  Asking.change (plant d)

def copyTree (n : NodeId) : Edit NodeId := do
  let f ← get
  let choose : PayloadMap Unit TreeFault := fun m f s => (.ok (.own (f.element m)), f, s)
  let (result, f', _) := (copyTreeWith choose 0 n).run.run (f, ())
  set f'
  match result with
  | .ok c => pure c
  | .error (.fault e) | .error (.choice e) => throw e
  | .error .exhausted => throw .outOfSteps

end Forest

end MarkdownTree
