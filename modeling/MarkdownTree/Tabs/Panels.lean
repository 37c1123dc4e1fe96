import MarkdownTree.Forest.Content
import MarkdownTree.Tabs.Escape

/-!
Tabs are written as an admonition of a given category in which headings divide the content. The text
of each heading is the label of a panel; what precedes the first heading belongs to the first
panel.
-/

namespace MarkdownTree.Tabs

def defaultCategory : Value := .str "tabs"

def isTabs (f : Forest) (category : Value) (n : NodeId) : Bool :=
  (f.kind n).isA .admonition && (((f.element n).get? "category").getD .null).agrees category

def isHeading (f : Forest) (n : NodeId) : Bool :=
  (f.kind n).isA .heading

def hasHeading (f : Forest) (n : NodeId) : Bool :=
  (f.children n).any (isHeading f)

def needText (purpose : String) : Value → Except TreeFault String
  | .str s => .ok s
  | v => .error (.noMember v.typeName purpose)

/-- The label under a heading: its text, escaped for markup. -/
def label (f : Forest) (heading : NodeId) : Except TreeFault String := do
  let v ← f.plainText heading
  let s ← needText "replace" v
  .ok (Markup.escape s)

/-- The labels and panels that are complete so far, and the content of the open panel. -/
structure Split where
  labels : List String
  panels : List (List NodeId)
  current : List NodeId
  started : Bool

/-- Takes up one more child: a heading ends the open panel unless it is the first. -/
def Split.add (f : Forest) (s : Split) (child : NodeId) : Except TreeFault Split :=
  if isHeading f child then do
    let l ← label f child
    if s.started then
      .ok { s with labels := s.labels ++ [l], panels := s.panels ++ [s.current], current := [] }
    else
      .ok { s with labels := s.labels ++ [l], started := true }
  else
    .ok { s with current := s.current ++ [child] }

def Split.addAll (f : Forest) (s : Split) : List NodeId → Except TreeFault Split
  | [] => .ok s
  | c :: rest => do
    let s ← s.add f c
    s.addAll f rest

/-- The labels and the panels of an admonition, or `none` if it has no heading. -/
def panels? (f : Forest) (n : NodeId) :
    Except TreeFault (Option (List String × List (List NodeId))) := do
  let s ← Split.addAll f ⟨[], [], [], false⟩ (f.children n)
  if s.started then .ok (some (s.labels, s.panels ++ [s.current])) else .ok none

end MarkdownTree.Tabs
