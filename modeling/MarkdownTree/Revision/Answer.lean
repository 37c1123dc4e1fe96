import MarkdownTree.Forest.Fault

/-!
What the visitor of a pass may answer about a node, and the action that an answer stands
for.
-/

namespace MarkdownTree.Revision

/-- The nodes of a splice that are not to be visited. -/
inductive Finality where
  | noNode
  | allNodes
  | these (nodes : List Value)

/-- What is done with a visited node: keep it and go on below it; put another node in its place
and perhaps go on below that one; put a sequence of nodes in its place and visit those that are not
final; or remove it. -/
inductive Action where
  | keep
  | replace (node : Value) (descend : Bool)
  | splice (nodes : List Value) (final : Finality)
  | delete

/-- The answer of a visitor: an action, or a value that stands for one. -/
inductive Answer where
  | action (a : Action)
  | value (v : Value)

/-- The action of an answer about `n`. The node itself is kept, another node replaces it, a list is
spliced, and nothing deletes it; any other value is a fault. -/
def Answer.toAction (n : NodeId) : Answer → Except TreeFault Action
  | .action a => .ok a
  | .value .null => .ok .delete
  | .value (.node m) => .ok (if m = n then .keep else .replace (.node m) true)
  | .value (.list nodes) => .ok (.splice nodes .noNode)
  | .value v => .error (.unknownAnswer v.typeName)

def nodesAmong (values : List Value) : List NodeId :=
  values.filterMap fun
    | .node n => some n
    | _ => none

def Finality.nodes (spliced : List Value) : Finality → List NodeId
  | .noNode => []
  | .allNodes => nodesAmong spliced
  | .these nodes => nodesAmong nodes

end MarkdownTree.Revision
