import MarkdownTree.Proofs.Expansion

/-!
Markup of tabs read back. A list of children is a flat sequence of nodes and of pieces of markup, of
which some open a block and others close one; those that close all look the same. The reader goes
through the sequence once. It keeps the blocks that are open, and closes the innermost of them, so
it succeeds exactly on a properly nested sequence.
-/

namespace MarkdownTree.Tabs

/-- A child in a sequence: a node, or a piece of markup with its text. -/
inductive Item where
  | node (n : NodeId)
  | markup (text : String)

/-- What is read of a sequence: a node, a piece of markup on its own, or a block between the markup
that opens it and the markup that closes it. -/
inductive Block where
  | node (n : NodeId)
  | tag (text : String)
  | block (opening : String) (inside : List Block)

def front (text : String) : List Char :=
  text.toList.take 4

def isOpening (text : String) : Bool :=
  front text == ['<', 'd', 'i', 'v']

def closing : String := "</div>"

/-- How far a sequence was read: the blocks at the innermost level, and for each open block its
opening with the blocks before it, innermost first. -/
structure Reading where
  blocks : List Block
  around : List (String × List Block)

namespace Reading

def start : Reading := ⟨[], []⟩

def add (r : Reading) (blocks : List Block) : Reading :=
  { r with blocks := r.blocks ++ blocks }

/-- Reads one more child; nothing can be closed where no block is open. -/
def take (r : Reading) : Item → Option Reading
  | .node n => some (r.add [.node n])
  | .markup text =>
    if text = closing then
      match r.around with
      | [] => none
      | (opening, before) :: around => some ⟨before ++ [.block opening r.blocks], around⟩
    else if isOpening text then
      some ⟨[], (text, r.blocks) :: r.around⟩
    else
      some (r.add [.tag text])

end Reading

def readBlocks (items : List Item) : Option (List Block) :=
  match items.foldlM Reading.take .start with
  | some ⟨blocks, []⟩ => some blocks
  | _ => none

variable {items more inside : List Item} {blocks blocks' : List Block} {opening : String}

/-- Wherever a sequence stands, it is read as some blocks at the level that is open there. -/
def ReadsTo (items : List Item) (blocks : List Block) : Prop :=
  ∀ r : Reading, items.foldlM Reading.take r = some (r.add blocks)

namespace ReadsTo

theorem readBlocks_eq (h : ReadsTo items blocks) : readBlocks items = some blocks := by
  rw [readBlocks, h .start]
  rfl

theorem nil : ReadsTo [] [] := by
  intro r
  show some r = some (r.add [])
  rw [Reading.add, List.append_nil]

theorem append (h : ReadsTo items blocks) (h' : ReadsTo more blocks') :
    ReadsTo (items ++ more) (blocks ++ blocks') := by
  intro r
  rw [List.foldlM_append, h r]
  show more.foldlM Reading.take (r.add blocks) = _
  rw [h' (r.add blocks), Reading.add, Reading.add, Reading.add, List.append_assoc]

theorem of_take {item : Item} {block : Block}
    (h : ∀ r : Reading, r.take item = some (r.add [block])) : ReadsTo [item] [block] := by
  intro r
  rw [List.foldlM_cons, h r]
  rfl

theorem node (n : NodeId) : ReadsTo [.node n] [.node n] :=
  of_take fun _ => rfl

theorem tag {text : String} (hopening : isOpening text = false) (hclosing : text ≠ closing) :
    ReadsTo [.markup text] [.tag text] := by
  apply of_take
  intro r
  rw [Reading.take, if_neg hclosing, hopening, if_neg Bool.false_ne_true]

/-- What stands between an opening and the next closing at its level is read as a block. -/
theorem block (hopening : isOpening opening = true) (hne : opening ≠ closing)
    (h : ReadsTo inside blocks) :
    ReadsTo (.markup opening :: inside ++ [.markup closing]) [.block opening blocks] := by
  intro r
  have hopen : r.take (.markup opening) = some ⟨[], (opening, r.blocks) :: r.around⟩ := by
    rw [Reading.take, if_neg hne, if_pos hopening]
  have hclose : Reading.take ⟨blocks, (opening, r.blocks) :: r.around⟩ (.markup closing) =
      some (r.add [.block opening blocks]) := by
    rw [Reading.take, if_pos rfl]
    rfl
  rw [List.cons_append, List.foldlM_cons, hopen]
  show List.foldlM Reading.take ⟨[], (opening, r.blocks) :: r.around⟩
    (inside ++ [.markup closing]) = _
  rw [List.foldlM_append, h]
  show List.foldlM Reading.take ⟨blocks, (opening, r.blocks) :: r.around⟩ [.markup closing] = _
  rw [List.foldlM_cons, hclose]
  rfl

end ReadsTo

/-- A text begins as its first part does, if that is long enough. -/
theorem front_append {first : String} {chars : List Char} (hfirst : front first = chars)
    (hlength : chars.length = 4) (second : String) : front (first ++ second) = chars := by
  have hle : 4 ≤ first.toList.length := by
    rw [← hfirst, front, List.length_take] at hlength
    omega
  rw [front, String.toList_append, List.take_append_of_le_length hle]
  exact hfirst

namespace Marker

def front : Marker → List Char
  | .containerOpen | .labelsOpen | .panelOpen _ => ['<', 'd', 'i', 'v']
  | .button .. => ['<', 'b', 'u', 't']
  | .close => ['<', '/', 'd', 'i']

theorem front_text (m : Marker) : Tabs.front m.text = m.front := by
  cases m with
  | containerOpen => decide
  | labelsOpen => decide
  | button index label =>
      refine front_append (front_append (front_append (front_append ?_ rfl _) rfl _) rfl _) rfl _
      show _ = ['<', 'b', 'u', 't']
      decide
  | panelOpen index =>
      refine front_append (front_append ?_ rfl _) rfl _
      show _ = ['<', 'd', 'i', 'v']
      decide
  | close => decide

theorem isOpening_text (m : Marker) : isOpening m.text = (m.front == ['<', 'd', 'i', 'v']) := by
  rw [isOpening, front_text]

theorem text_ne_closing {m : Marker} (h : m.front ≠ ['<', '/', 'd', 'i']) : m.text ≠ closing := by
  intro heq
  have hfront : Tabs.front m.text = Tabs.front (text .close) := congrArg Tabs.front heq
  rw [front_text, front_text] at hfront
  exact h hfront

theorem readsTo_button (index : Nat) (label : String) :
    ReadsTo [.markup (button index label).text] [.tag (button index label).text] :=
  .tag (isOpening_text _) (text_ne_closing (by simp [front]))

/-- Between a piece of markup that opens a block and one that closes it a block is read. -/
theorem readsTo_block {m : Marker} (hm : m.front = ['<', 'd', 'i', 'v'])
    (h : ReadsTo inside blocks) :
    ReadsTo (.markup m.text :: inside ++ [.markup (text .close)]) [.block m.text blocks] := by
  apply ReadsTo.block _ _ h
  · rw [isOpening_text, hm]
    decide
  · apply text_ne_closing
    rw [hm]
    decide

end Marker

end MarkdownTree.Tabs
