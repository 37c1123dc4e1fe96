import MarkdownTree.Forest.Sibling

/-!
Attaching and detaching nodes. A node that is attached somewhere first leaves its former parent, so
that it has one parent at most. What may not be attached is refused before anything changes: a value
that is no node, an element that may not stand below its new parent, and a node that contains the
place where it should go.
-/

namespace MarkdownTree

/-- A change of a forest that may fail. What was done before the failure stays done. -/
abbrev Edit (α : Type) := ExceptT TreeFault (StateM Forest) α

namespace Forest

def change (g : Forest → Forest) : Edit Unit :=
  modifyGet fun f => ((), g f)

/-- Fails unless the kind of a child may stand below the kind of a parent. -/
def checkKinds (parent child : Kind) : Except TreeFault Unit :=
  if parent.canContain child then .ok () else .error (.illegalChild parent child)

def checkAttach (f : Forest) (p : NodeId) : Value → Except TreeFault NodeId
  | .node c => do
    checkKinds (f.kind p) (f.kind c)
    if f.isAncestorOf c p then .error (.cycle (f.kind p) (f.kind c)) else .ok c
  | v => .error (.notANode v.typeName)

/-- The position in a list of `length` items that an index stands for: negative indices count from
the end, and all are moved to the nearest position. -/
def position (length : Nat) (i : Int) : Nat :=
  if i < 0 then (i + length).toNat else min i.toNat length

/-- Inserts an item so that it ends at the position of an index, or as near as possible. -/
def insertAt (nodes : List NodeId) (i : Int) (n : NodeId) : List NodeId :=
  nodes.insertIdx (position nodes.length i) n

/-- Detaches `c` from `p`; it keeps its own children. -/
def removeChild (p : NodeId) (c : Value) : Edit Unit := do
  let f ← get
  match c with
  | .node c =>
    if (f.children p).contains c then
      change fun f => (f.setChildren p ((f.children p).erase c)).setParent c none
    else
      throw .notAChild
  | _ => throw .notAChild

def unlink (n : NodeId) : Edit Unit := do
  match (← get).parent? n with
  | some p => removeChild p (.node n)
  | none => pure ()

/-- Whether an index fits into a machine word; a list takes no other. -/
def isIndex (i : Int) : Bool :=
  -9223372036854775808 ≤ i && i < 9223372036854775808

/-- What an index becomes when `c` leaves `p`: a child that stands before it moves it back by
one. -/
def indexWithout (f : Forest) (p c : NodeId) (i : Int) : Except TreeFault Int :=
  if f.parent? c = some p then do
    let old ← indexOf (f.children p) c
    .ok (if (old : Int) < i then i - 1 else i)
  else
    .ok i

/-- Attaches `child` below `p` at an index that is meant for the children at the time of the
call. The parent is recorded before the list is asked whether it takes the index. -/
def attachAt (takes : Int → Bool) (p : NodeId) (i : Int) (child : Value) : Edit Unit := do
  let f ← get
  let c ← f.checkAttach p child
  let i ← f.indexWithout p c i
  unlink c
  change fun f => f.setParent c (some p)
  if takes i then
    change fun f => f.setChildren p (insertAt (f.children p) i c)
  else
    throw .indexTooLarge

def insertChild (p : NodeId) (i : Int) (child : Value) : Edit Unit :=
  attachAt isIndex p i child

/-- Attaches `child` as the last child of `p`. The number of children is an index of every list. -/
def appendChild (p : NodeId) (child : Value) : Edit Unit := do
  attachAt (fun _ => true) p ((← get).children p).length child

def prependChild (p : NodeId) (child : Value) : Edit Unit :=
  insertChild p 0 child

/-- Attaches `sibling` next to `n`, the given number of places after it. -/
def insertSibling (n : NodeId) (sibling : Value) (offset : Nat) : Edit Unit := do
  let f ← get
  match f.parent? n with
  | none =>
    match sibling with
    | .node s => throw (.siblingOfRoot (f.kind s))
    | v => throw (.noMember v.typeName "element")
  | some p =>
    let s ← f.checkAttach p sibling
    if s = n then
      pure ()
    else
      unlink s
      let index ← indexOf ((← get).children p) n
      change fun f => f.setChildren p (insertAt (f.children p) (index + offset) s)
      change fun f => f.setParent s (some p)

def insertBefore (n : NodeId) (sibling : Value) : Edit Unit :=
  insertSibling n sibling 0

def insertAfter (n : NodeId) (sibling : Value) : Edit Unit :=
  insertSibling n sibling 1

/-- The nodes that may take the place of a child of `p` together, or the first fault among them. -/
def checkReplacement (f : Forest) (p : NodeId) (seen : List NodeId) :
    List Value → Except TreeFault (List NodeId)
  | [] => .ok []
  | v :: rest => do
    let c ← f.checkAttach p v
    if seen.contains c then
      .error (.insertedTwice (f.kind p) (f.kind c))
    else
      let cs ← checkReplacement f p (c :: seen) rest
      .ok (c :: cs)

def unlinkAll : List NodeId → Edit Unit
  | [] => pure ()
  | n :: rest => do
    unlink n
    unlinkAll rest

def adopt (p : NodeId) (nodes : List NodeId) (f : Forest) : Forest :=
  nodes.foldl (fun f n => f.setParent n (some p)) f

/-- A list with the item at an index replaced by other items. -/
def spliceAt (nodes : List NodeId) (index : Nat) (new : List NodeId) : List NodeId :=
  nodes.take index ++ new ++ nodes.drop (index + 1)

/-- Puts nodes in the place of `child` among the children of `p`, and answers the position of the
first of them. They may come from anywhere, `child` itself included. -/
def replaceChild (p : NodeId) (child : Value) (new : List Value) : Edit Nat := do
  let f ← get
  match child with
  | .node c =>
    let _ ← indexOf (f.children p) c
    let nodes ← f.checkReplacement p [] new
    unlinkAll (nodes.filter (· != c))
    let index ← indexOf ((← get).children p) c
    change fun f =>
      adopt p nodes ((f.setParent c none).setChildren p (spliceAt (f.children p) index nodes))
    pure index
  | _ => throw .notAChild

def newRoot (element : Element) (metadata : Entries) : Edit NodeId :=
  modifyGet fun f => f.addNode element metadata

/-- Attaches values as the last children of `p`, one after the other. -/
def appendAll (p : NodeId) : List Value → Edit Unit
  | [] => pure ()
  | v :: rest => do
    appendChild p v
    appendAll p rest

/-- Makes a node with an element, children and metadata. -/
def newNode (element : Element) (children : List Value) (metadata : Entries) : Edit NodeId := do
  let n ← newRoot element metadata
  appendAll n children
  pure n

end Forest

end MarkdownTree
