import MarkdownTree.Element.Kind
import MarkdownTree.Schema.Validation

/-!
Elements: the payload of the nodes of a document. An element has a kind and the values of the fields
that are declared for it. Elements are built from valid values only; fields can be assigned anything
later.
-/

namespace MarkdownTree

/-- An element. Its fields are the declared ones, in the order of declaration. -/
structure Element where
  kind : Kind
  fields : Entries
  deriving Inhabited

namespace Element

def alignments : List String := ["left", "center", "right", "default"]

def textField (name : String) : Field :=
  { name, type := .text, default := some (.str "") }

def requiredText (name : String) : Field :=
  { name, type := .text, default := none }

/-- The tag by which a kind is told apart; it has one possible value. -/
def tagField (tag : String) : Field :=
  { name := "type", type := .choice [tag], default := some (.str tag) }

def ownFields : Kind → List Field
  | .heading => [{ name := "level", type := .integer (some 1) (some 6), default := some (.int 1) }]
  | .codeBlock => [textField "info", textField "code"]
  | .admonition => [requiredText "category", textField "title"]
  | .htmlBlock | .htmlInline => [textField "html"]
  | .list => [
      { name := "list_type", type := .choice ["bullet", "ordered"],
        default := some (.str "bullet") },
      { name := "tight", type := .flag, default := some (.bool true) }]
  | .footnoteDefinition | .footnoteLink => [requiredText "id"]
  | .displayMath | .inlineMath => [textField "math"]
  | .table => [{ name := "spec", type := .listOf (.choice alignments), default := some (.list []) }]
  | .tableCell => [
      { name := "align", type := .choice alignments, default := some (.str "default") },
      { name := "header", type := .flag, default := some (.bool false) },
      { name := "column", type := .integer (some 0) none, default := some (.int 0) }]
  | .text => [textField "text"]
  | .code => [textField "code"]
  | .link | .image => [textField "destination", textField "title"]
  | _ => []

/-- The tag of a kind; families have none. -/
def tag? : Kind → Option String
  | .element | .block | .blockContainer | .inlineContentBlock | .inlineElement | .inlineContainer
  | .tableElement => none
  | k => some (k.name.map Char.toLower)

def declaredFields (k : Kind) : List Field :=
  ownFields k ++ (match tag? k with | some tag => [tagField tag] | none => [])

def build (k : Kind) (given : Entries) : Except Invalid Element :=
  match readRecord (declaredFields k) given with
  | .ok fields => .ok ⟨k, fields⟩
  | .error refusals => .error ⟨k.name, refusals⟩

/-- An element whose fields are given directly, with the tag added. -/
def ofFields (k : Kind) (fields : Entries) : Element :=
  ⟨k, fields ++ (match tag? k with | some tag => [("type", .str tag)] | none => [])⟩

def html (markup : String) : Element :=
  ofFields .htmlBlock [("html", .str markup)]

def blockQuote : Element :=
  ofFields .blockQuote []

def get? (e : Element) (name : String) : Option Value :=
  e.fields.get? name

/-- Assigns a field that is declared for the element, without regard to its type. -/
def set? (e : Element) (name : String) (value : Value) : Option Element :=
  if e.fields.has name then some { e with fields := e.fields.put name value } else none

/-- The fields, with dictionaries in the place of records. -/
def dump (e : Element) : Entries :=
  Value.plainEntries e.fields

def ownEntries (e : Element) : Entries :=
  e.dump.without "type"

/-- Two elements are equal if their kinds are and all their fields have equal values. -/
def agrees (a b : Element) : Bool :=
  a.kind == b.kind && Value.agrees (.mapping a.fields) (.mapping b.fields)

def info (nodeText : NodeId → String) (e : Element) : String :=
  if e.ownEntries.isEmpty then e.kind.name
  else
    e.kind.name ++ "(" ++
      String.intercalate ", " (Value.textEntries nodeText "=" false e.ownEntries) ++ ")"

end Element

end MarkdownTree
