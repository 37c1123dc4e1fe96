import MarkdownTree.Forest.Basic
import MarkdownTree.Forest.Fault

/-!
The place of a node among its siblings, and the siblings beside it. A root has none; a node that its
parent does not list has no place, which is a fault.
-/

namespace MarkdownTree.Forest

def indexOf (nodes : List NodeId) (n : NodeId) : Except TreeFault Nat :=
  match nodes.findIdx? (· == n) with
  | some i => .ok i
  | none => .error .notAChild

/-- The place of a node among the children of its parent, `none` for a root. -/
def indexInParent (f : Forest) (n : NodeId) : Except TreeFault (Option Nat) :=
  match f.parent? n with
  | none => .ok none
  | some p => do
    let i ← indexOf (f.children p) n
    .ok (some i)

def laterSiblings (f : Forest) (n : NodeId) : Except TreeFault (List NodeId) :=
  match f.parent? n with
  | none => .ok []
  | some p => do
    let i ← indexOf (f.children p) n
    .ok ((f.children p).drop (i + 1))

/-- The sibling after a node, `none` for a root or a last child. -/
def nextSibling (f : Forest) (n : NodeId) : Except TreeFault (Option NodeId) := do
  let later ← f.laterSiblings n
  .ok later.head?

/-- The sibling before a node, `none` for a root or a first child. -/
def previousSibling (f : Forest) (n : NodeId) : Except TreeFault (Option NodeId) :=
  match f.parent? n with
  | none => .ok none
  | some p => do
    let i ← indexOf (f.children p) n
    .ok (if i = 0 then none else (f.children p)[i - 1]?)

end MarkdownTree.Forest
