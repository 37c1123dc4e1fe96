import MarkdownTree.Forest.Sequence
import MarkdownTree.Revision.Pass

/-!
Passes whose visitors may also answer with the list in which a node keeps its children. Such a list
is not copied: the nodes that leave and those that become final are read from it before and after
the replacement, which changes it. Everything else is done as in a pass over answers of their own.
-/

namespace MarkdownTree.Revision

/-- The reply of a visitor: an answer, or a splice of the list in which a node keeps its
children. -/
inductive Reply where
  | answer (a : Answer)
  | children (n : NodeId) (final : Finality)

/-- What is done with a visited node: an action, or a splice of the children of a node. -/
inductive Decision where
  | act (a : Action)
  | spliceChildren (n : NodeId) (final : Finality)

def Reply.toDecision (n : NodeId) : Reply → Except TreeFault Decision
  | .answer a => do .ok (.act (← a.toAction n))
  | .children m final => .ok (.spliceChildren m final)

def Decision.settle (f : Forest) : Decision → Action
  | .act a => a
  | .spliceChildren n final => .splice (Sequence.items f (.childrenOf n)) final

abbrev Responder (σ ε : Type) := Callback σ ε Reply

variable {σ ε : Type}

def answering (visit : Visitor σ ε) : Responder σ ε := fun n f s =>
  let (answer, g, t) := visit n f s
  (answer.map .answer, g, t)

namespace Live

/-- Asks the visitor about a node, unless it was offered already, and answers the decision and the
nodes that are offered by now. -/
def consult (visit : Responder σ ε) (n : NodeId) (offered : List NodeId) :
    Pass σ ε (Decision × List NodeId) := do
  if offered.contains n then
    pure (.act .keep, offered)
  else
    let reply ← visit.ask .visitor n
    let decision ← attempt (reply.toDecision n)
    pure (decision, n :: offered)

def spliceChildren (rounds : Nat) (p : Progress) (place : Frame) (child n : NodeId)
    (final : Finality) : Pass σ ε Progress := do
  let values := Sequence.items (← Asking.forest) (.childrenOf n)
  let left ← attempt (departures (← Asking.forest) child values)
  match ← edit (Forest.replaceByChildren rounds place.node (.node child) n) with
  | none => throw .exhausted
  | some index =>
    let finals := ((← Asking.forest).children n).filter (final.nodes values).contains
    pure { p with final := finals ++ p.final, stack := setNext index (shift left p.stack) }

/-- Does what was decided about the child at the innermost place. -/
def carryOut (rounds : Nat) (p : Progress) (place : Frame) (child : NodeId) :
    Decision → Pass σ ε Progress
  | .act a => Revision.carryOut p place child a
  | .spliceChildren n final => spliceChildren rounds p place child n final

def handleChild (visit : Responder σ ε) (rounds : Nat) (p : Progress) (place : Frame)
    (child : NodeId) : Pass σ ε Progress := do
  if p.final.contains child then
    pure { p with stack := setNext (place.next + 1) p.stack }
  else
    let (decision, offered) ← consult visit child p.offered
    carryOut rounds { p with offered } place child decision

def step (visit : Responder σ ε) (rounds : Nat) (p : Progress) : Pass σ ε Progress := do
  match p.stack with
  | [] => pure p
  | place :: rest =>
    match ((← Asking.forest).children place.node)[place.next]? with
    | none => pure { p with stack := rest }
    | some child => handleChild visit rounds p place child

/-- Takes steps until no place is open. -/
def finish (visit : Responder σ ε) (rounds : Nat) : Nat → Progress → Pass σ ε Unit
  | 0, p => if p.stack.isEmpty then pure () else throw .exhausted
  | steps + 1, p =>
    if p.stack.isEmpty then pure () else do finish visit rounds steps (← step visit rounds p)

/-- Puts `new` in the place of the root, goes on below it if that is wanted, and answers it. -/
def reviseAt (visit : Responder σ ε) (rounds steps : Nat) (root new : NodeId) (descend : Bool)
    (offered : List NodeId) : Pass σ ε NodeId := do
  let offered ← takePlace root new offered
  if descend then
    finish visit rounds steps ⟨[⟨new, 0⟩], offered, []⟩
  pure new

/-- Revises the tree below `root` in at most so many steps, with at most so many rounds through a
list of children that is spliced, and answers the root of the result. -/
def revise (visit : Responder σ ε) (rounds steps : Nat) (root : NodeId) : Pass σ ε NodeId := do
  let (decision, offered) ← consult visit root []
  let f ← Asking.forest
  let (node, descend) ← attempt (rootAction f root (decision.settle f))
  match node with
  | .node new => reviseAt visit rounds steps root new descend offered
  | v => throw (.fault (.noMember v.typeName "unlink"))

end Live

end MarkdownTree.Revision
