import MarkdownTree.Forest.Attach
import MarkdownTree.Forest.Callback
import MarkdownTree.Revision.Answer

/-!
Revising a tree in one pass from the root down. A visitor is asked about each node and decides what
stands in its place. The pass keeps a stack of places: a node and the index of its next child. When
nodes are taken out of the children of a node on the stack, from before its place, the place moves
back with the children that are still to come, so that none of them is missed.

Each node is offered to the visitor at most once. A node that was put in the place of another counts
as offered. Final nodes are passed over with all that is below them.
-/

namespace MarkdownTree.Revision

abbrev Visitor (σ ε : Type) := Callback σ ε Answer

/-- Why a pass stops early: a fault of the tree, a failure of the visitor, or too many steps. -/
inductive Stop (ε : Type) where
  | fault (e : TreeFault)
  | visitor (e : ε)
  | exhausted

/-- A part of a pass: an answer or the reason to stop, with the forest and the state of the
visitor. -/
abbrev Pass (σ ε α : Type) := Asking σ (Stop ε) α

/-- A place in a tree: a node, and the index of the next of its children. -/
structure Frame where
  node : NodeId
  next : Nat
  deriving DecidableEq

/-- How far a pass has come: the places that are open, innermost first, the nodes that were offered
to the visitor, and the final nodes. -/
structure Progress where
  stack : List Frame
  offered : List NodeId
  final : List NodeId

variable {σ ε : Type}

def edit {α : Type} (e : Edit α) : Pass σ ε α := fun (f, s) =>
  match e.run.run f with
  | (.ok a, f') => (.ok a, f', s)
  | (.error e, f') => (.error (.fault e), f', s)

def attempt {α : Type} : Except TreeFault α → Pass σ ε α
  | .ok a => pure a
  | .error e => throw (.fault e)

/-- Asks the visitor about a node, unless it was offered already, and answers the action and the
nodes that are offered by now. -/
def consult (visit : Visitor σ ε) (n : NodeId) (offered : List NodeId) :
    Pass σ ε (Action × List NodeId) := do
  if offered.contains n then
    pure (.keep, offered)
  else
    let answer ← visit.ask .visitor n
    let action ← attempt (answer.toAction n)
    pure (action, n :: offered)

/-- Where nodes leave from when values are put in the place of `child`: for each node that has a
parent, the parent and the index there. -/
def departures (f : Forest) (child : NodeId) :
    List Value → Except TreeFault (List (NodeId × Nat))
  | [] => .ok []
  | .node n :: rest =>
    if n = child then
      departures f child rest
    else
      match f.parent? n with
      | none => departures f child rest
      | some p => do
        let index ← Forest.indexOf (f.children p) n
        let others ← departures f child rest
        .ok ((p, index) :: others)
  | v :: _ => .error (.noMember v.typeName "parent")

/-- Moves each place back by the number of departures from before it, all counted as the places
stood before any departure. The places are given outermost first; of several at one node the
outermost moves. -/
def shiftOutward (left : List (NodeId × Nat)) : List Frame → List Frame
  | [] => []
  | frame :: rest =>
    let before := left.countP fun (n, index) => n == frame.node && index < frame.next
    { frame with next := frame.next - before } ::
      shiftOutward (left.filter fun (n, _) => n != frame.node) rest

def shift (left : List (NodeId × Nat)) (stack : List Frame) : List Frame :=
  (shiftOutward left stack.reverse).reverse

def setNext (next : Nat) : List Frame → List Frame
  | [] => []
  | frame :: rest => { frame with next } :: rest

def descendInto (f : Forest) (n : NodeId) (stack : List Frame) : List Frame :=
  if (f.children n).isEmpty then stack else ⟨n, 0⟩ :: stack

/-- Puts values in the place of a child, and answers the stack with its places moved back and the
index of the first of the new children. -/
def substitute (parent child : NodeId) (values : List Value) (stack : List Frame) :
    Pass σ ε (List Frame × Nat) := do
  let left ← attempt (departures (← Asking.forest) child values)
  let index ← edit (Forest.replaceChild parent (.node child) values)
  pure (shift left stack, index)

/-- Does what was decided about the child at the innermost place. -/
def carryOut (p : Progress) (place : Frame) (child : NodeId) : Action → Pass σ ε Progress
  | .keep => do
    let f ← Asking.forest
    pure { p with stack := descendInto f child (setNext (place.next + 1) p.stack) }
  | .replace node descend => do
    let (stack, index) ← substitute place.node child [node] p.stack
    let stack := setNext (index + 1) stack
    let f ← Asking.forest
    let news := nodesAmong [node]
    pure { p with
      offered := news ++ p.offered
      stack := if descend then news.foldr (descendInto f) stack else stack }
  | .splice nodes final => do
    let (stack, index) ← substitute place.node child nodes p.stack
    let finals := (nodesAmong nodes).filter (final.nodes nodes).contains
    pure { p with final := finals ++ p.final, stack := setNext index stack }
  | .delete => do
    let index ← edit (Forest.replaceChild place.node (.node child) [])
    pure { p with stack := setNext index p.stack }

def handleChild (visit : Visitor σ ε) (p : Progress) (place : Frame) (child : NodeId) :
    Pass σ ε Progress := do
  if p.final.contains child then
    pure { p with stack := setNext (place.next + 1) p.stack }
  else
    let (action, offered) ← consult visit child p.offered
    carryOut { p with offered } place child action

/-- One step of a pass: the innermost place is closed at the end of the children, or else the child
there is handled. -/
def step (visit : Visitor σ ε) (p : Progress) : Pass σ ε Progress := do
  match p.stack with
  | [] => pure p
  | place :: rest =>
    match ((← Asking.forest).children place.node)[place.next]? with
    | none => pure { p with stack := rest }
    | some child => handleChild visit p place child

/-- Takes steps until no place is open. -/
def finish (visit : Visitor σ ε) : Nat → Progress → Pass σ ε Unit
  | 0, p => if p.stack.isEmpty then pure () else throw .exhausted
  | steps + 1, p => if p.stack.isEmpty then pure () else do finish visit steps (← step visit p)

/-- The node that takes the place of the root, and whether to go on below it. -/
def rootAction (f : Forest) (root : NodeId) : Action → Except TreeFault (Value × Bool)
  | .keep => .ok (.node root, true)
  | .replace node descend => .ok (node, descend)
  | .splice [node] final =>
    .ok (node, !(nodesAmong [node]).any (final.nodes [node]).contains)
  | .splice .. | .delete => .error (.rootReplacement (f.kind root))

/-- Puts `new` in the place of the root, and answers the nodes that are offered by then. -/
def takePlace (root new : NodeId) (offered : List NodeId) : Pass σ ε (List NodeId) := do
  if new = root then
    pure offered
  else
    edit (Forest.unlink new)
    pure (new :: offered)

/-- Puts `new` in the place of the root, goes on below it if that is wanted, and answers it. -/
def reviseAt (visit : Visitor σ ε) (steps : Nat) (root new : NodeId) (descend : Bool)
    (offered : List NodeId) : Pass σ ε NodeId := do
  let offered ← takePlace root new offered
  if descend then
    finish visit steps ⟨[⟨new, 0⟩], offered, []⟩
  pure new

/-- Revises the tree below `root` in at most so many steps, and answers the root of the result. -/
def revise (visit : Visitor σ ε) (steps : Nat) (root : NodeId) : Pass σ ε NodeId := do
  let (action, offered) ← consult visit root []
  let (node, descend) ← attempt (rootAction (← Asking.forest) root action)
  match node with
  | .node new => reviseAt visit steps root new descend offered
  | v => throw (.fault (.noMember v.typeName "unlink"))

end MarkdownTree.Revision
