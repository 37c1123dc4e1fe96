/-!
The closed set of element kinds of a document, the families they belong to, and which kinds may
stand directly below which. Blocks make up the structure of a document, inlines the text inside a
block, and the parts of a table have fixed places of their own.
-/

namespace MarkdownTree

/-- The kind of an element. The first group are the families, of which bare elements can be made
too; then come the blocks, the parts of a table, and the inlines. -/
inductive Kind where
  | element | block | blockContainer | inlineContentBlock | inlineElement | inlineContainer
  | tableElement
  | document | heading | paragraph | codeBlock | admonition | blockQuote | htmlBlock
  | thematicBreak | list | item | footnoteDefinition | displayMath | table
  | tableHeader | tableBody | tableRow | tableCell
  | text | code | emph | strong | link | image | htmlInline | inlineMath | footnoteLink
  | lineBreak | softBreak | backslash
  deriving DecidableEq, Inhabited, Repr

namespace Kind

def all : List Kind := [
  element, block, blockContainer, inlineContentBlock, inlineElement, inlineContainer,
  tableElement,
  document, heading, paragraph, codeBlock, admonition, blockQuote, htmlBlock,
  thematicBreak, list, item, footnoteDefinition, displayMath, table,
  tableHeader, tableBody, tableRow, tableCell,
  text, code, emph, strong, link, image, htmlInline, inlineMath, footnoteLink,
  lineBreak, softBreak, backslash]

theorem mem_all (k : Kind) : k ∈ all := by
  cases k <;> decide

def name : Kind → String
  | element => "ElementBase"
  | block => "BlockElement"
  | blockContainer => "BlockContainer"
  | inlineContentBlock => "InlineContentBlock"
  | inlineElement => "InlineElement"
  | inlineContainer => "InlineContainer"
  | tableElement => "TableElement"
  | document => "Document"
  | heading => "Heading"
  | paragraph => "Paragraph"
  | codeBlock => "CodeBlock"
  | admonition => "Admonition"
  | blockQuote => "BlockQuote"
  | htmlBlock => "HTMLBlock"
  | thematicBreak => "ThematicBreak"
  | list => "List"
  | item => "Item"
  | footnoteDefinition => "FootnoteDefinition"
  | displayMath => "DisplayMath"
  | table => "Table"
  | tableHeader => "TableHeader"
  | tableBody => "TableBody"
  | tableRow => "TableRow"
  | tableCell => "TableCell"
  | text => "Text"
  | code => "Code"
  | emph => "Emph"
  | strong => "Strong"
  | link => "Link"
  | image => "Image"
  | htmlInline => "HTMLInline"
  | inlineMath => "InlineMath"
  | footnoteLink => "FootnoteLink"
  | lineBreak => "LineBreak"
  | softBreak => "SoftBreak"
  | backslash => "Backslash"

def ofName? (s : String) : Option Kind :=
  all.find? (·.name == s)

def family? : Kind → Option Kind
  | element => none
  | block | inlineElement | tableElement => some element
  | blockContainer | inlineContentBlock => some block
  | inlineContainer => some inlineElement
  | document | admonition | blockQuote | item | footnoteDefinition => some blockContainer
  | heading | paragraph => some inlineContentBlock
  | codeBlock | htmlBlock | thematicBreak | list | displayMath | table => some block
  | tableHeader | tableBody | tableRow | tableCell => some tableElement
  | emph | strong | link | image => some inlineContainer
  | text | code | htmlInline | inlineMath | footnoteLink | lineBreak | softBreak | backslash =>
    some inlineElement

/-- Whether a kind is, or belongs to, another one. Families are nested three deep at most. -/
def isA (k target : Kind) : Bool :=
  k == target ||
    match k.family? with
    | none => false
    | some f => f == target ||
      match f.family? with
      | none => false
      | some g => g == target || g.family? == some target

def isBlock (k : Kind) : Bool :=
  k.isA block

def isInline (k : Kind) : Bool :=
  k.isA inlineElement

def isContainer (k : Kind) : Bool :=
  k.isA blockContainer || k.isA inlineContentBlock || k.isA inlineContainer ||
    k.isA tableElement || k == list || k == table

/-- Whether an element of one kind may have a direct child of another. -/
def canContain (parent child : Kind) : Bool :=
  match parent with
  | list => child == item
  | table => child == tableHeader || child == tableBody
  | tableHeader | tableBody => child == tableRow
  | tableRow => child == tableCell
  | tableCell => child.isInline
  | k =>
    if k.isA blockContainer then child.isBlock
    else if k.isA inlineContentBlock || k.isA inlineContainer then child.isInline
    else false

theorem isContainer_of_canContain {parent child : Kind} (h : parent.canContain child = true) :
    parent.isContainer = true := by
  revert h
  cases parent <;> cases child <;> decide

end Kind

end MarkdownTree
