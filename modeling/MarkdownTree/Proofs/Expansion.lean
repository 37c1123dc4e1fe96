import MarkdownTree.Proofs.PanelContent
import MarkdownTree.Proofs.Subtrees
import MarkdownTree.Tabs.Interleaved

/-!
What tabs are turned into, as a recursion over lists of children: the definition that the pass is
measured by. It looks at the forest as it was and makes no changes; a forest in which the result
stands is told by `Shown`.
-/

namespace MarkdownTree.Tabs

open Forest Interleaved

/-- A part of an expanded list: a piece of markup, or a node of the forest with what is expanded
below it. -/
inductive Piece where
  | marker (m : Marker)
  | node (n : NodeId) (below : List Piece)

/-- Whether a node is an admonition of the category that a heading divides. -/
def divided (f : Forest) (category : Value) (n : NodeId) : Bool :=
  isTabs f category n && hasHeading f n

/-- A child that stays, or adjacent children that share a container. -/
inductive Group where
  | kept (n : NodeId)
  | run (members : List NodeId)

/-- Puts a divided child in front of groups: into the first if that is a run and runs are merged. -/
def joinRun (grouped : Bool) (n : NodeId) : List Group → List Group
  | .run members :: more =>
    if grouped then .run (n :: members) :: more else .run [n] :: .run members :: more
  | more => .run [n] :: more

/-- Children as groups: the longest runs of divided ones if they are to be merged, or else each on
its own. -/
def groups (f : Forest) (category : Value) (grouped : Bool) : List NodeId → List Group
  | [] => []
  | n :: rest =>
    if divided f category n then joinRun grouped n (groups f category grouped rest)
    else .kept n :: groups f category grouped rest

/-- The markup of a set of tabs around the expanded content of its panels. -/
def markup (labels : List String) (contents : List (List Piece)) : List Piece :=
  [.marker .containerOpen, .marker .labelsOpen] ++
    ((labels.zipIdx 1).map fun (l, i) => .marker (.button i l)) ++ [.marker .close] ++
    ((contents.zipIdx 1).flatMap fun (pieces, j) =>
      .marker (.panelOpen j) :: pieces ++ [.marker .close]) ++
    [.marker .close]

/-- A group expanded, where `expandBelow` expands the lists of children further down. -/
def expandGroup (f : Forest) (expandBelow : List NodeId → Except TreeFault (List Piece)) :
    Group → Except TreeFault (List Piece)
  | .kept n => do
    let below ← expandBelow (f.children n)
    .ok [.node n below]
  | .run members => do
    let (labels, panels) ← gather f members
    let contents ← allOk (panels.map expandBelow)
    .ok (markup labels contents)

/-- A list of children expanded, down to a depth. -/
def expandWithin (f : Forest) (category : Value) (grouped : Bool) :
    Nat → List NodeId → Except TreeFault (List Piece)
  | 0, _ => .ok []
  | depth + 1, list => do
    let parts ← allOk ((groups f category grouped list).map
      (expandGroup f (expandWithin f category grouped depth)))
    .ok parts.flatten

def expand (f : Forest) (category : Value) (grouped : Bool) (list : List NodeId) :
    Except TreeFault (List Piece) :=
  expandWithin f category grouped (f.size + 1) list

/-- `Shown f g pieces nodes` says that the nodes stand in `g` for what was made of a list of nodes
of `f`: a piece of markup is a new node of its own, a node is the same as it was, and the children
show what is below it. -/
inductive Shown (f g : Forest) : List Piece → List NodeId → Prop
  | nil : Shown f g [] []
  | marker {m : Marker} {k : NodeId} {pieces : List Piece} {nodes : List NodeId}
      (hnew : f.size ≤ k) (helement : g.element k = Element.html m.text)
      (hmetadata : g.metadata k = []) (hchildren : g.children k = []) (h : Shown f g pieces nodes) :
      Shown f g (.marker m :: pieces) (k :: nodes)
  | node {n : NodeId} {below pieces : List Piece} {nodes : List NodeId} (hold : n < f.size)
      (helement : g.element n = f.element n) (hmetadata : g.metadata n = f.metadata n)
      (hbelow : Shown f g below (g.children n)) (h : Shown f g pieces nodes) :
      Shown f g (.node n below :: pieces) (n :: nodes)

end MarkdownTree.Tabs
