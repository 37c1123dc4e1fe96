import MarkdownTree.Forest.Fault
import MarkdownTree.Forest.Traversal
import MarkdownTree.Text.Blank

/-!
The textual content of a tree: the text of its text and code elements in order. Fields may have been
assigned values that are no texts; joining those fails.
-/

namespace MarkdownTree.Forest

def ownText? (e : Element) : Option Value :=
  match e.kind with
  | .text => some ((e.get? "text").getD .null)
  | .code => some ((e.get? "code").getD .null)
  | _ => none

/-- The text of an element on one line: breaks are spaces. -/
def inlineText? (e : Element) : Option Value :=
  match e.kind with
  | .softBreak | .lineBreak => some (.str " ")
  | _ => ownText? e

def joinTexts (position : Nat) : List Value → Except TreeFault String
  | [] => .ok ""
  | .str s :: rest => do
    let more ← joinTexts (position + 1) rest
    .ok (s ++ more)
  | v :: _ => .error (.joinedNonText position v.typeName)

/-- Turns a list of results into the result of a list; the first failure wins. -/
def allOk {α : Type} : List (Except TreeFault α) → Except TreeFault (List α)
  | [] => .ok []
  | r :: rest => do
    let a ← r
    let as ← allOk rest
    .ok (a :: as)

/-- The content of a tree down to a depth, where `own` gives the text of an element itself: below an
element with a text of its own nothing is looked at. -/
def contentWithin (f : Forest) (own : Element → Option Value) :
    Nat → NodeId → Except TreeFault Value
  | 0, _ => .ok (.str "")
  | depth + 1, n =>
    match own (f.element n) with
    | some v => .ok v
    | none => do
      let parts ← allOk ((f.children n).map (contentWithin f own depth))
      let text ← joinTexts 0 parts
      .ok (.str text)

def plainText (f : Forest) (n : NodeId) : Except TreeFault Value :=
  f.contentWithin ownText? (f.size + 1) n

def lineText (f : Forest) (n : NodeId) : Except TreeFault Value :=
  f.contentWithin inlineText? (f.size + 1) n

/-- The texts of the headings and paragraphs of a tree that a filter keeps, without the empty ones,
joined by a separator and trimmed. -/
def collectText (f : Forest) (root : NodeId) (separator : String) (keep : NodeId → Bool) :
    Except TreeFault String := do
  let texts ← allOk (collect (f.preorder root)
    (fun n => f.isOfKind [.heading, .paragraph] n && keep n) f.lineText)
  let parts := texts.filter (·.isTruthy)
  let _ ← joinTexts 0 parts
  .ok (Text.trimmed (String.intercalate separator (parts.filterMap fun
    | .str s => some s
    | _ => none)))

end MarkdownTree.Forest
