import MarkdownTree.Forest.Attach

/-!
The markup of a set of tabs: pieces of raw markup that open and close a container, its labels and
its panels, with the content of the panels between them.
-/

namespace MarkdownTree.Tabs

/-- A piece of markup. Buttons and panels are numbered from one. -/
inductive Marker where
  | containerOpen
  | labelsOpen
  | button (index : Nat) (label : String)
  | panelOpen (index : Nat)
  | close
  deriving DecidableEq

namespace Marker

def text : Marker → String
  | containerOpen => "<div class=\"doc-tabs\">"
  | labelsOpen => "<div class=\"doc-tabs__labels\">"
  | button index label =>
    "<button class=\"doc-tabs__label\" data-tab=\"" ++ toString index ++ "\">" ++ label ++
      "</button>"
  | panelOpen index =>
    "<div class=\"doc-tabs__panel\" data-tab=\"" ++ toString index ++ "\">"
  | close => "</div>"

end Marker

/-- A part of a set of tabs: markup to be made, or content that exists. -/
inductive Part where
  | marker (m : Marker)
  | content (n : NodeId)
  deriving DecidableEq

def buttons (index : Nat) : List String → List Part
  | [] => []
  | l :: rest => .marker (.button index l) :: buttons (index + 1) rest

/-- The panels, numbered from an index on, each between markup that opens and closes it. -/
def panelParts (index : Nat) : List (List NodeId) → List Part
  | [] => []
  | p :: rest =>
    .marker (.panelOpen index) :: p.map .content ++
      .marker .close :: panelParts (index + 1) rest

def layout (labels : List String) (panels : List (List NodeId)) : List Part :=
  [.marker .containerOpen, .marker .labelsOpen] ++ buttons 1 labels ++
    [.marker .close] ++ panelParts 1 panels ++ [.marker .close]

/-- Makes nodes of the markup; answers all nodes in order, and those that were made. -/
def realize (f : Forest) : List Part → (List NodeId × List NodeId) × Forest
  | [] => (([], []), f)
  | .content n :: rest =>
    let ((nodes, made), f) := realize f rest
    ((n :: nodes, made), f)
  | .marker m :: rest =>
    let (n, f) := f.addNode (Element.html m.text) []
    let ((nodes, made), f) := realize f rest
    ((n :: nodes, n :: made), f)

/-- Makes the nodes of a set of tabs; answers all of them in order, and the markup alone. -/
def buildMarkup (labels : List String) (panels : List (List NodeId)) :
    Edit (List NodeId × List NodeId) :=
  modifyGet fun f => realize f (layout labels panels)

end MarkdownTree.Tabs
