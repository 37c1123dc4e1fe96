import MarkdownTree.Forest.Copy
import MarkdownTree.Tabs.Identifier
import MarkdownTree.Tabs.Interleaved

/-!
Tabs as single blocks of markup. Each admonition gives way to one block that holds the markup of
one tab, and in its metadata a copy of the content. Adjacent tabs may share a group.
-/

namespace MarkdownTree.Tabs

namespace Stash

/-- What a pass remembers: how many tabs and groups there were. -/
structure State where
  tabs : Nat
  groups : Nat

def markup (title identifier group : String) (checked : Bool) : String :=
  "<div class=\"doc-tabs\" data-tab-group=\"" ++ group ++ "\">\n" ++
  "  <input class=\"doc-tabs-input\" type=\"radio\" name=\"" ++ group ++ "\" id=\"" ++
    identifier ++ "\"" ++ (if checked then " checked" else "") ++ ">\n" ++
  "  <label class=\"doc-tabs-label\" for=\"" ++ identifier ++ "\">" ++ Markup.escape title ++
    "</label>\n" ++
  "  <div class=\"doc-tabs-content\" data-tab-id=\"" ++ identifier ++ "\">\n" ++
  "    <!-- Tab content will be rendered here -->\n" ++
  "  </div>\n" ++
  "</div>"

/-- Copies trees one after the other and attaches the copies below `p`. -/
def copyBelow (p : NodeId) : List NodeId → Edit Unit
  | [] => pure ()
  | n :: rest => do
    let c ← Forest.copyTree n
    Forest.appendChild p (.node c)
    copyBelow p rest

/-- Makes the block for an admonition: its metadata are the title, the identifier, the group, and a
block quote with a copy of the content. -/
def makeBlock (n : NodeId) (group : Value) (checked : Bool) : Edit NodeId := do
  let f ← get
  let title := ((f.element n).get? "title").getD .null
  let s ← needText "lower" title
  let block ← Forest.newRoot
    (Element.html (markup s (identifier s) (group.display f.shortText) checked)) []
  let content ← Forest.newRoot Element.blockQuote []
  copyBelow content (f.children n)
  Forest.change fun f => f.updateMetadata block fun _ => [
    ("tab_title", title), ("tab_id", .str (identifier s)), ("tab_group", group),
    ("content", .node content)]
  pure block

def joinedGroup (f : Forest) (grouped : Bool) (n : NodeId) : Except TreeFault (Option Value) := do
  match ← f.previousSibling n with
  | some p => .ok (if grouped then (f.metadata p).get? "tab_group" else none)
  | none => .ok none

def visit (category : Value) (grouped : Bool) : Revision.Visitor State TreeFault := fun n f s =>
  if !isTabs f category n then
    (.ok (.action .keep), f, s)
  else
    match joinedGroup f grouped n with
    | .error e => (.error e, f, s)
    | .ok joined =>
      let groups := if joined.isSome then s.groups else s.groups + 1
      let group := joined.getD (.str ("tabs-group-" ++ toString groups))
      let s : State := ⟨s.tabs + 1, groups⟩
      match (makeBlock n group joined.isNone).run.run f with
      | (.ok block, f') => (.ok (.action (.replace (.node block) false)), f', s)
      | (.error e, f') => (.error e, f', s)

/-- What is said at the end, if there was anything to transform. -/
def summary (s : State) : List Log.Message :=
  if s.tabs = 0 then []
  else [⟨.info, "Transformed " ++ toString s.tabs ++ " tabs admonition(s) into " ++
    toString s.groups ++ " tab group(s)."⟩]

end Stash

/-- Turns the tabs of a category into blocks of markup with their content in the metadata; answers
the root of the result, and the messages. -/
def stash (category : Value) (grouped : Bool) (root : NodeId) (f : Forest) :
    Except TreeFault NodeId × List Log.Message × Forest :=
  let pass := Revision.revise (Stash.visit category grouped) (stepLimit f) root
  match pass.run.run (f, ⟨0, 0⟩) with
  | (.ok new, f', s) => (.ok new, Stash.summary s, f')
  | (.error stop, f', _) => (.error (stopFault stop), [], f')

def stashedContent? (f : Forest) (n : NodeId) : Option NodeId :=
  if (f.kind n).isA .htmlBlock then
    match (f.metadata n).get? "content" with
    | some (.node content) => some content
    | _ => none
  else
    none

end MarkdownTree.Tabs
