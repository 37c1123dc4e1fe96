import MarkdownTree.Forest.Description
import MarkdownTree.Log.Message
import MarkdownTree.Revision.Pass
import MarkdownTree.Tabs.Markup
import MarkdownTree.Tabs.Panels

/-!
Tabs as markup between the nodes of their content. Each admonition with headings gives way to a flat
run of markup and content; the content nodes are moved as they are. Adjacent admonitions may be
merged into one set of tabs. Admonitions without headings stay.
-/

namespace MarkdownTree.Tabs

namespace Interleaved

/-- What a pass remembers: admonitions whose content went to the container of an earlier one, how
many admonitions and containers there were, and the messages so far. -/
structure State where
  absorbed : List NodeId
  admonitions : Nat
  containers : Nat
  messages : List Log.Message

def State.start : State := ⟨[], 0, 0, []⟩

/-- Whether a node is to be turned into tabs; fails if a label is no text. -/
def isDivided (f : Forest) (category : Value) (n : NodeId) : Except TreeFault Bool :=
  if isTabs f category n then do
    .ok (← panels? f n).isSome
  else
    .ok false

/-- The siblings to be merged among those that follow, up to the first that is not. -/
def following (f : Forest) (category : Value) : List NodeId → Except TreeFault (List NodeId)
  | [] => .ok []
  | n :: rest => do
    if ← isDivided f category n then
      .ok (n :: (← following f category rest))
    else
      .ok []

/-- The admonitions that share a container with `n`, itself first. -/
def run (f : Forest) (category : Value) (grouped : Bool) (n : NodeId) :
    Except TreeFault (List NodeId) := do
  if grouped then
    .ok (n :: (← following f category (← f.laterSiblings n)))
  else
    .ok [n]

def gather (f : Forest) : List NodeId → Except TreeFault (List String × List (List NodeId))
  | [] => .ok ([], [])
  | n :: rest => do
    let own ← panels? f n
    let (labels, panels) ← gather f rest
    match own with
    | some (ls, ps) => .ok (ls ++ labels, ps ++ panels)
    | none => .ok (labels, panels)

/-- What is said about an admonition without headings. -/
def unchangedMessage (f : Forest) (n : NodeId) : Log.Message :=
  ⟨.warning, "Tabs admonition '" ++
    (((f.element n).get? "title").getD .null).display f.shortText ++
    "' contains no heading to use as tab label. Left unchanged."⟩

def visit (category : Value) (grouped : Bool) : Revision.Visitor State TreeFault := fun n f s =>
  if s.absorbed.contains n then
    (.ok (.action .delete), f, s)
  else if !isTabs f category n then
    (.ok (.action .keep), f, s)
  else
    match panels? f n with
    | .error e => (.error e, f, s)
    | .ok none =>
      (.ok (.action .keep), f, { s with messages := s.messages ++ [unchangedMessage f n] })
    | .ok (some _) =>
      match (do let members ← run f category grouped n; .ok (members, ← gather f members)) with
      | .error e => (.error e, f, s)
      | .ok (members, labels, panels) =>
        let s := { s with
          absorbed := members.drop 1 ++ s.absorbed
          admonitions := s.admonitions + members.length
          containers := s.containers + 1 }
        let ((nodes, made), f) := realize f (layout labels panels)
        (.ok (.action (.splice (nodes.map .node) (.these (made.map .node)))), f, s)

/-- What is said at the end, if there was anything to transform. -/
def summary (s : State) : List Log.Message :=
  if s.admonitions = 0 then []
  else [⟨.info, "Transformed " ++ toString s.admonitions ++ " tabs admonition(s) into " ++
    toString s.containers ++ " tab container(s)."⟩]

end Interleaved

/-- A number of steps that no pass over a forest exceeds which meets each node once and adds a few
pieces of markup for each. -/
def stepLimit (f : Forest) : Nat :=
  16 * ((f.size + 1) * (f.size + 1))

def stopFault : Revision.Stop TreeFault → TreeFault
  | .fault e | .visitor e => e
  | .exhausted => .outOfSteps

/-- Turns the tabs of a category into markup between the nodes of their content; answers the root of
the result, and the messages. -/
def interleave (category : Value) (grouped : Bool) (root : NodeId) (f : Forest) :
    Except TreeFault NodeId × List Log.Message × Forest :=
  let pass := Revision.revise (Interleaved.visit category grouped) (stepLimit f) root
  match pass.run.run (f, .start) with
  | (.ok new, f', s) => (.ok new, s.messages ++ Interleaved.summary s, f')
  | (.error stop, f', s) => (.error (stopFault stop), s.messages, f')

end MarkdownTree.Tabs
