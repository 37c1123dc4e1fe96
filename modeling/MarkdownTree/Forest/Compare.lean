import MarkdownTree.Forest.Traversal

/-!
Comparison of trees by structure and content: the same elements in the same places, and equal
metadata if that is asked for. Nodes that are metadata values are compared as trees.
-/

namespace MarkdownTree.Forest

/-- Whether the metadata of two nodes agree, given how trees are compared: the same names, and
under each of them equal trees or equal values. -/
def metadataAgree (trees : NodeId → NodeId → Bool) (first second : Entries) : Bool :=
  first.length == second.length && first.all fun (name, v) =>
    match second.get? name with
    | none => false
    | some w => match v, w with
      | .node a, .node b => trees a b
      | _, _ => v.agrees w

def listsAgree (trees : NodeId → NodeId → Bool) : List NodeId → List NodeId → Bool
  | [], [] => true
  | a :: as, b :: bs => trees a b && listsAgree trees as bs
  | _, _ => false

/-- Whether two trees agree, down to a depth of steps to children and to metadata. -/
def agreeWithin (f : Forest) (withMetadata : Bool) : Nat → NodeId → NodeId → Bool
  | 0, _, _ => true
  | depth + 1, a, b =>
    (f.element a).agrees (f.element b) &&
      (!withMetadata || metadataAgree (agreeWithin f withMetadata depth) (f.metadata a)
        (f.metadata b)) &&
      listsAgree (agreeWithin f withMetadata depth) (f.children a) (f.children b)

def agree (f : Forest) (withMetadata : Bool) (a b : NodeId) : Bool :=
  f.agreeWithin withMetadata (f.size + 1) a b

end MarkdownTree.Forest
