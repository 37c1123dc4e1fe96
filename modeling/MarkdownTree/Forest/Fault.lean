import MarkdownTree.Element.Basic

/-!
What can go wrong with a document tree: a combination of elements that the kinds do not allow, an
argument of the wrong kind, or one outside its domain.
-/

namespace MarkdownTree

/-- Why an operation on a tree fails. -/
inductive TreeFault where
  /-- The kind of the child may not stand below the kind of the parent. -/
  | illegalChild (parent child : Kind)
  /-- A node would become its own ancestor. -/
  | cycle (parent child : Kind)
  /-- A node occurs twice among the new children. -/
  | insertedTwice (parent child : Kind)
  /-- A sibling was to be added to a root. -/
  | siblingOfRoot (sibling : Kind)
  /-- The root of a pass was to be replaced by other than one node. -/
  | rootReplacement (root : Kind)
  /-- A node is not among the children of the given parent. -/
  | notAChild
  /-- An index is beyond what a list takes. -/
  | indexTooLarge
  /-- A value was to be attached that is no node. -/
  | notANode (type : String)
  /-- A node was to be made of a value that is no element. -/
  | notAnElement (type : String)
  /-- The element of a copied node was mapped to a value that is no element. -/
  | mappedToValue (type : String)
  /-- A visitor answered with a value that stands for no action. -/
  | unknownAnswer (type : String)
  /-- A table was expected. -/
  | notATable (kind : Kind)
  /-- Settings of the tabs were expected. -/
  | notSettings (type : String)
  /-- A table has no such dimension. -/
  | noSuchDimension (dimension : Value)
  /-- A value was used as an object with a member that it does not have. -/
  | noMember (type member : String)
  /-- An element has no field of this name. -/
  | noField (kind : Kind) (field : String)
  /-- A metadata record has no entry of this name. -/
  | noEntry (name : String)
  /-- A pass took all the steps it was allowed. -/
  | outOfSteps
  /-- A text to be joined is no text. -/
  | joinedNonText (position : Nat) (type : String)

namespace TreeFault

def message : TreeFault → String
  | .illegalChild parent child => child.name ++ " is not a legal child of " ++ parent.name
  | .cycle .. => "A node cannot be attached to itself or to one of its descendants"
  | .insertedTwice .. => "The same node cannot be inserted twice"
  | .siblingOfRoot _ => "Cannot add a sibling to a root node"
  | .rootReplacement _ => "rewrite: the root node can only be replaced by a single node"
  | .notAChild => "Node is not a child of the given parent"
  | .indexTooLarge => "Python int too large to convert to C ssize_t"
  | .notANode type => "Only nodes can be attached to a tree, got " ++ type
  | .notAnElement type => "A node requires an element payload, got " ++ type
  | .mappedToValue type => "copy_tree: the map function must return an element, got " ++ type
  | .unknownAnswer type =>
    "rewrite: unrecognized return value of the visit function: " ++ type
  | .notATable kind => "needs a Table node, got " ++ kind.name
  | .notSettings _ => "transform_document: invalid settings object"
  | .noSuchDimension dimension =>
    "dimension out of range: " ++ dimension.display (fun _ => "Node") ++ " (must be 1 or 2)"
  | .noMember type member =>
    "'" ++ type ++ "' object has no attribute '" ++ member ++ "'"
  | .noField kind field => "\"" ++ kind.name ++ "\" object has no field \"" ++ field ++ "\""
  | .noEntry name => Text.quoted name
  | .outOfSteps => "rewrite: too many steps"
  | .joinedNonText position type =>
    "sequence item " ++ toString position ++ ": expected str instance, " ++ type ++ " found"

def kinds? : TreeFault → Option (Option Kind × Option Kind)
  | .illegalChild parent child | .cycle parent child | .insertedTwice parent child =>
    some (some parent, some child)
  | .siblingOfRoot child | .rootReplacement child => some (none, some child)
  | _ => none

def mismatch? : TreeFault → Option (String × String)
  | .notANode type => some ("Node", type)
  | .notAnElement type | .mappedToValue type => some ("element", type)
  | .unknownAnswer type => some ("Action, Node, sequence of nodes, or None", type)
  | .notATable kind => some ("Table", kind.name)
  | .notSettings type => some ("Settings or TabsSettings", type)
  | _ => none

end TreeFault

/-- Steps one after the other succeed if the first does and the next does with what it made. -/
theorem bind_eq_ok_iff {ε α β : Type} {r : Except ε α} {next : α → Except ε β} {b : β} :
    r >>= next = .ok b ↔ ∃ a, r = .ok a ∧ next a = .ok b := by
  cases r <;> simp [bind, Except.bind]

def needMember (v : Value) (name : String) : Except TreeFault Value :=
  match v.member? name with
  | some inner => .ok inner
  | none => .error (.noMember v.typeName name)

end MarkdownTree
