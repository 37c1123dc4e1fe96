import MarkdownTree.Forest.Basic

/-!
The nodes of a tree in pre-order and in post-order, and the selections and folds over them. The
depth of the recursion is bounded by the size of the forest, which no path without repetition
exceeds.
-/

namespace MarkdownTree.Forest

/-- A node followed by the subtrees of its children, down to a depth. -/
def preorderWithin (f : Forest) : Nat → NodeId → List NodeId
  | 0, _ => []
  | depth + 1, n => n :: (f.children n).flatMap (preorderWithin f depth)

/-- The subtrees of the children of a node followed by the node, down to a depth. -/
def postorderWithin (f : Forest) : Nat → NodeId → List NodeId
  | 0, _ => []
  | depth + 1, n => (f.children n).flatMap (postorderWithin f depth) ++ [n]

def preorder (f : Forest) (n : NodeId) : List NodeId :=
  f.preorderWithin (f.size + 1) n

def postorder (f : Forest) (n : NodeId) : List NodeId :=
  f.postorderWithin (f.size + 1) n

/-- Whether the element of a node is of one of some kinds or families. -/
def isOfKind (f : Forest) (kinds : List Kind) (n : NodeId) : Bool :=
  kinds.any (f.kind n).isA

/-- The images of the nodes that a filter keeps, in the order of a traversal. -/
def collect {α : Type} (order : List NodeId) (keep : NodeId → Bool) (image : NodeId → α) : List α :=
  (order.filter keep).map image

/-- The nodes of a tree of one of some kinds that a filter keeps, in pre-order. -/
def select (f : Forest) (root : NodeId) (kinds : List Kind) (keep : NodeId → Bool) : List NodeId :=
  collect (f.preorder root) (fun n => f.isOfKind kinds n && keep n) id

def selectWithEntry (f : Forest) (root : NodeId) (name : String) (kinds : List Kind) :
    List NodeId :=
  f.select root kinds fun n => (f.metadata n).has name

/-- Threads an accumulator through the nodes of a traversal. -/
def fold {α : Type} (order : List NodeId) (step : α → NodeId → α) (start : α) : α :=
  order.foldl step start

def countNodes (f : Forest) (root : NodeId) : Nat :=
  fold (f.postorder root) (fun count _ => count + 1) 0

end MarkdownTree.Forest
