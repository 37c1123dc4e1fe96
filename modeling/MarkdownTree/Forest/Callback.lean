import MarkdownTree.Forest.Basic

/-!
Functions that are handed to an operation on trees and called about one node after the other: the
visitor of a pass, the map of a copy.
-/

namespace MarkdownTree

/-- A function that is called about nodes. It has a state of its own, may change the forest, and may
fail. -/
abbrev Callback (σ ε α : Type) := NodeId → Forest → σ → Except ε α × Forest × σ

/-- A part of an operation that calls a function: an answer or a failure, the forest, and the state
of the function. -/
abbrev Asking (σ φ α : Type) := ExceptT φ (StateM (Forest × σ)) α

variable {σ ε φ α : Type}

/-- Calls a function about a node; its failure is a failure of the operation. -/
def Callback.ask (callback : Callback σ ε α) (failure : ε → φ) (n : NodeId) : Asking σ φ α :=
  fun (f, s) =>
    match callback n f s with
    | (.ok a, f', s') => (.ok a, f', s')
    | (.error e, f', s') => (.error (failure e), f', s')

def Asking.forest : Asking σ φ Forest := fun (f, s) => (.ok f, f, s)

/-- Makes a change of the forest, and answers what it answers. -/
def Asking.change (g : Forest → α × Forest) : Asking σ φ α := fun (f, s) =>
  (.ok (g f).1, (g f).2, s)

end MarkdownTree
