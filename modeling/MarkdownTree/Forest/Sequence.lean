import MarkdownTree.Forest.Attach

/-!
Nodes that are handed over together. A sequence of its own stays as it is while its nodes are moved.
The list in which a node keeps its children may be handed over, too: it loses each node that is
taken from it, so what goes through it by position passes over the next one, and where nodes are put
into the very list that they are read from, there is no end.
-/

namespace MarkdownTree

/-- A sequence as an argument: its own items, or the list in which a node keeps its children. -/
inductive Sequence where
  | own (items : List Value)
  | childrenOf (n : NodeId)

def Sequence.items (f : Forest) : Sequence → List Value
  | .own items => items
  | .childrenOf n => (f.children n).map .node

namespace Forest

/-- Goes through the children of `n` from an index on, while they change, and detaches each but
`child`. The list does not grow, so as many rounds as it has nodes are enough. -/
def unlinkAlong (n child : NodeId) : Nat → Nat → Edit Unit
  | 0, _ => pure ()
  | rounds + 1, i => do
    match ((← get).children n)[i]? with
    | none => pure ()
    | some m =>
      if m = child then pure () else unlink m
      unlinkAlong n child rounds (i + 1)

/-- Goes through the children of `n` from an index on, while they change, and lists each among the
children of `p`, one after the other. Answers whether the end came within so many rounds. -/
def insertAlong (p n : NodeId) (index : Nat) : Nat → Nat → Edit Bool
  | 0, offset => do pure ((← get).children n)[offset]?.isNone
  | rounds + 1, offset => do
    match ((← get).children n)[offset]? with
    | none => pure true
    | some m =>
      change fun f => f.setParent m (some p)
      change fun f => f.setChildren p (insertAt (f.children p) (index + offset : Nat) m)
      insertAlong p n index rounds (offset + 1)

/-- Puts the children of `n`, read from their own list all along, in the place of `child` among the
children of `p`. Answers the position of the first of them, unless the rounds are used up before the
list comes to an end. -/
def replaceByChildren (rounds : Nat) (p : NodeId) (child : Value) (n : NodeId) :
    Edit (Option Nat) := do
  let f ← get
  match child with
  | .node c =>
    let _ ← indexOf (f.children p) c
    let _ ← f.checkReplacement p [] ((f.children n).map .node)
    unlinkAlong n c (f.children n).length 0
    let index ← indexOf ((← get).children p) c
    change fun f => (f.setChildren p (spliceAt (f.children p) index [])).setParent c none
    let ended ← insertAlong p n index rounds 0
    pure (if ended then some index else none)
  | _ => throw .notAChild

/-- Puts a sequence of nodes in the place of `child` among the children of `p`, and answers the
position of the first of them, unless the rounds are used up before. -/
def replaceChildBy (rounds : Nat) (p : NodeId) (child : Value) :
    Sequence → Edit (Option Nat)
  | .own items => do pure (some (← replaceChild p child items))
  | .childrenOf n => replaceByChildren rounds p child n

/-- Goes through the children of `m` from an index on, while they change, and attaches each as the
last child of `n`. The list of another node does not grow, so as many rounds as it has nodes are
enough. -/
def appendAlong (n m : NodeId) : Nat → Nat → Edit Unit
  | 0, _ => pure ()
  | rounds + 1, i => do
    match ((← get).children m)[i]? with
    | none => pure ()
    | some c =>
      appendChild n (.node c)
      appendAlong n m rounds (i + 1)

/-- Makes a node with an element, a sequence of children and metadata. -/
def newNodeBy (element : Element) (children : Sequence) (metadata : Entries) : Edit NodeId :=
  match children with
  | .own items => newNode element items metadata
  | .childrenOf m => do
    let n ← newRoot element metadata
    appendAlong n m ((← get).children m).length 0
    pure n

end Forest

end MarkdownTree
