import MarkdownTree.Proofs.Growth
import MarkdownTree.Proofs.Subtrees
import MarkdownTree.Table.Rows

/-!
The rows and the cells of a table. What may stand below what leaves the parts of a table no places
but their own: rows are found two levels below the table, cells three, and nothing but inlines from
there on. So the rows of the sections are all rows in the tree of the table, and each cell in that
tree is a child of one of them.
-/

namespace MarkdownTree

namespace Kind

theorem isInline_of_canContain {parent child : Kind} (hparent : parent.isInline = true)
    (h : parent.canContain child = true) : child.isInline = true := by
  have hall : ∀ p ∈ all, ∀ c ∈ all,
      p.isInline = true → p.canContain c = true → c.isInline = true := by decide
  exact hall parent (mem_all parent) child (mem_all child) hparent h

theorem isA_table_iff {k : Kind} : k.isA .table = true ↔ k = .table := by
  have hall : ∀ k ∈ all, k.isA .table = true ↔ k = .table := by decide
  exact hall k (mem_all k)

theorem isA_tableCell_iff {k : Kind} : k.isA .tableCell = true ↔ k = .tableCell := by
  have hall : ∀ k ∈ all, k.isA .tableCell = true ↔ k = .tableCell := by decide
  exact hall k (mem_all k)

theorem isA_tableRow_iff {k : Kind} : k.isA .tableRow = true ↔ k = .tableRow := by
  have hall : ∀ k ∈ all, k.isA .tableRow = true ↔ k = .tableRow := by decide
  exact hall k (mem_all k)

end Kind

namespace Forest

variable {f : Forest} {c cell m n row s table : NodeId} {k : Kind}

theorem isInline_of_atOrAbove (hf : f.WellFormed) (hn : (f.kind n).isInline = true)
    (h : f.AtOrAbove n m) : (f.kind m).isInline = true := by
  rcases h with rfl | h
  · exact hn
  · induction h with
    | parent hp =>
        exact Kind.isInline_of_canContain hn (hf.canContain_of_mem _ _ (hf.mem_of_parent? hp))
    | above hp _ ih =>
        exact Kind.isInline_of_canContain ih (hf.canContain_of_mem _ _ (hf.mem_of_parent? hp))

/-- The nodes of a kind in a tree, in pre-order. -/
def ofKind (f : Forest) (k : Kind) (n : NodeId) : List NodeId :=
  f.select n [k] fun _ => true

theorem ofKind_eq_filter (f : Forest) (k : Kind) (n : NodeId) :
    f.ofKind k n = (f.preorder n).filter fun m => (f.kind m).isA k := by
  simp [ofKind, select, collect, isOfKind]

theorem mem_ofKind_iff (hf : f.WellFormed) :
    m ∈ f.ofKind k n ↔ f.AtOrAbove n m ∧ (f.kind m).isA k = true := by
  rw [ofKind_eq_filter, List.mem_filter, hf.mem_preorder_iff]

/-- The nodes of a kind in a tree are found child by child. -/
theorem ofKind_eq (hf : f.WellFormed) (k : Kind) (n : NodeId) :
    f.ofKind k n =
      (if (f.kind n).isA k then [n] else []) ++ (f.children n).flatMap (f.ofKind k) := by
  have hbelow : (f.children n).flatMap (f.ofKind k) =
      (f.children n).flatMap fun c => (f.preorder c).filter fun m => (f.kind m).isA k :=
    List.flatMap_congr fun c _ => ofKind_eq_filter f k c
  rw [ofKind_eq_filter, hf.preorder_eq, List.filter_cons, List.filter_flatMap, hbelow]
  split <;> rfl

theorem ofKind_of_isInline (hf : f.WellFormed) (hn : (f.kind n).isInline = true)
    (hk : k = .tableRow ∨ k = .tableCell) : f.ofKind k n = [] := by
  rw [List.eq_nil_iff_forall_not_mem]
  intro m hm
  obtain ⟨hbelow, hkind⟩ := (mem_ofKind_iff hf).1 hm
  have hinline := isInline_of_atOrAbove hf hn hbelow
  rcases hk with rfl | rfl
  · rw [Kind.isA_tableRow_iff.1 hkind] at hinline
    exact absurd hinline (by decide)
  · rw [Kind.isA_tableCell_iff.1 hkind] at hinline
    exact absurd hinline (by decide)

theorem kind_of_mem_table (hf : f.WellFormed) (htable : f.kind table = .table)
    (hs : s ∈ f.children table) : f.kind s = .tableHeader ∨ f.kind s = .tableBody := by
  have h := hf.canContain_of_mem table s hs
  rw [htable] at h
  simpa [Kind.canContain] using h

theorem kind_of_mem_section (hf : f.WellFormed)
    (hs : f.kind s = .tableHeader ∨ f.kind s = .tableBody) (hrow : row ∈ f.children s) :
    f.kind row = .tableRow := by
  have h := hf.canContain_of_mem s row hrow
  rcases hs with hs | hs <;>
  · rw [hs] at h
    simpa [Kind.canContain] using h

theorem kind_of_mem_row (hf : f.WellFormed) (hrow : f.kind row = .tableRow)
    (hcell : cell ∈ f.children row) : f.kind cell = .tableCell := by
  have h := hf.canContain_of_mem row cell hcell
  rw [hrow] at h
  simpa [Kind.canContain] using h

theorem isInline_of_mem_cell (hf : f.WellFormed) (hcell : f.kind cell = .tableCell)
    (hc : c ∈ f.children cell) : (f.kind c).isInline = true := by
  have h := hf.canContain_of_mem cell c hc
  rw [hcell] at h
  exact h

theorem kind_of_mem_rowsOf (hf : f.WellFormed) (htable : f.kind table = .table)
    (hrow : row ∈ f.rowsOf table) : f.kind row = .tableRow := by
  obtain ⟨s, hs, hrow⟩ := List.mem_flatMap.1 hrow
  exact kind_of_mem_section hf (kind_of_mem_table hf htable hs) hrow

/-- In the tree of a cell there is no row, and no cell but itself. -/
theorem ofKind_cell (hf : f.WellFormed) (hcell : f.kind cell = .tableCell) :
    f.ofKind .tableRow cell = [] ∧ f.ofKind .tableCell cell = [cell] := by
  have hbelow (k : Kind) (hk : k = .tableRow ∨ k = .tableCell) :
      (f.children cell).flatMap (f.ofKind k) = [] := by
    rw [List.flatMap_eq_nil_iff]
    intro c hc
    exact ofKind_of_isInline hf (isInline_of_mem_cell hf hcell hc) hk
  constructor
  · rw [ofKind_eq hf, hbelow _ (.inl rfl), hcell]
    rfl
  · rw [ofKind_eq hf, hbelow _ (.inr rfl), hcell]
    rfl

/-- In the tree of a row there is no other row, and the cells are its children. -/
theorem ofKind_row (hf : f.WellFormed) (hrow : f.kind row = .tableRow) :
    f.ofKind .tableRow row = [row] ∧ f.ofKind .tableCell row = f.children row := by
  have hcells : ∀ c ∈ f.children row, f.kind c = .tableCell :=
    fun c hc => kind_of_mem_row hf hrow hc
  constructor
  · have hbelow : (f.children row).flatMap (f.ofKind .tableRow) = [] :=
      List.flatMap_eq_nil_iff.2 fun c hc => (ofKind_cell hf (hcells c hc)).1
    rw [ofKind_eq hf, hbelow, hrow]
    rfl
  · have hbelow : (f.children row).flatMap (f.ofKind .tableCell) = f.children row := by
      rw [List.flatMap_congr fun c hc => (ofKind_cell hf (hcells c hc)).2]
      exact List.flatMap_singleton' _
    rw [ofKind_eq hf, hbelow, hrow]
    rfl

/-- The rows of a section are its children, and its cells are their children. -/
theorem ofKind_section (hf : f.WellFormed) (hs : f.kind s = .tableHeader ∨ f.kind s = .tableBody) :
    f.ofKind .tableRow s = f.children s ∧
      f.ofKind .tableCell s = (f.children s).flatMap f.children := by
  have hrows : ∀ c ∈ f.children s, f.kind c = .tableRow :=
    fun c hc => kind_of_mem_section hf hs hc
  have hrow : (f.children s).flatMap (f.ofKind .tableRow) = f.children s := by
    rw [List.flatMap_congr fun c hc => (ofKind_row hf (hrows c hc)).1]
    exact List.flatMap_singleton' _
  have hcell : (f.children s).flatMap (f.ofKind .tableCell) = (f.children s).flatMap f.children :=
    List.flatMap_congr fun c hc => (ofKind_row hf (hrows c hc)).2
  rw [ofKind_eq hf, ofKind_eq hf, hrow, hcell]
  rcases hs with hs | hs <;>
  · rw [hs]
    exact ⟨rfl, rfl⟩

/-- The rows in the tree of a table are those of its sections, and the cells are their children. -/
theorem ofKind_table (hf : f.WellFormed) (htable : f.kind table = .table) :
    f.ofKind .tableRow table = f.rowsOf table ∧
      f.ofKind .tableCell table = (f.rowsOf table).flatMap f.children := by
  have hsections : ∀ s ∈ f.children table, f.kind s = .tableHeader ∨ f.kind s = .tableBody :=
    fun s hs => kind_of_mem_table hf htable hs
  constructor
  · rw [ofKind_eq hf, htable, List.flatMap_congr fun s hs => (ofKind_section hf (hsections s hs)).1]
    rfl
  · rw [ofKind_eq hf, htable, List.flatMap_congr fun s hs => (ofKind_section hf (hsections s hs)).2,
      rowsOf, List.flatMap_assoc]
    rfl

def cellsOf (f : Forest) (row : NodeId) : List NodeId :=
  (f.children row).filter fun c => (f.kind c).isA .tableCell

theorem cellsOf_eq (hf : f.WellFormed) (hrow : f.kind row = .tableRow) :
    f.cellsOf row = f.children row := by
  rw [cellsOf, List.filter_eq_self]
  intro c hc
  exact Kind.isA_tableCell_iff.2 (kind_of_mem_row hf hrow hc)

theorem foldl_max_zero (counts : List Nat) : counts.foldl max 0 = counts.max?.getD 0 := by
  cases counts with
  | nil => rfl
  | cons count counts =>
      rw [List.foldl_cons, Nat.zero_max, List.max?_cons', Option.getD_some]

theorem columnCount_eq (hf : f.WellFormed) (htable : f.kind table = .table) :
    f.columnCount table =
      ((f.rowsOf table).map fun row => (f.cellsOf row).length).max?.getD 0 := by
  rw [columnCount, foldl_max_zero]
  congr 2
  refine List.map_congr_left fun row hrow => ?_
  rw [cellsOf_eq hf (kind_of_mem_rowsOf hf htable hrow)]

/-- The rows of a table are all rows in its tree, in order, and each of the cells in its tree
belongs to one of them. The sizes are the number of the rows and the number of cells of the
widest. -/
theorem tableRows_eq_select (hf : f.WellFormed) (htable : (f.kind table).isA .table = true) :
    ∃ rows columns, f.tableRows table = .ok rows ∧
      rows = f.select table [.tableRow] (fun _ => true) ∧
      f.tableSize table .null = .ok [rows.length, columns] ∧
      f.tableSize table (.int 1) = .ok [rows.length] ∧
      f.tableSize table (.int 2) = .ok [columns] ∧
      columns = (rows.map fun row => (f.cellsOf row).length).max?.getD 0 ∧
      ∀ cell, f.Ancestor table cell → (f.kind cell).isA .tableCell = true →
        ∃! row, row ∈ rows ∧ cell ∈ f.children row := by
  have hkind := Kind.isA_table_iff.1 htable
  have hcheck : f.checkTable table = .ok () := if_pos htable
  obtain ⟨hrows, hcells⟩ := ofKind_table hf hkind
  refine ⟨f.rowsOf table, f.columnCount table, ?_, hrows.symm, ?_, ?_, ?_,
    columnCount_eq hf hkind, fun cell hcell hisCell => ?_⟩
  · rw [tableRows, hcheck]
    rfl
  · rw [tableSize, hcheck]
    rfl
  · rw [tableSize, hcheck]
    rfl
  · rw [tableSize, hcheck]
    rfl
  · have hmem : cell ∈ f.ofKind .tableCell table :=
      (mem_ofKind_iff hf).2 ⟨hcell.atOrAbove, hisCell⟩
    rw [hcells, List.mem_flatMap] at hmem
    obtain ⟨row, hrow, hchild⟩ := hmem
    exact ⟨row, ⟨hrow, hchild⟩, fun other hother => hf.parent_unique hother.2 hchild⟩

/-- A table that begins with a body: a row of one cell with a text, then a header of a row of two
cells and one without any. -/
def unevenTable : Forest where
  nodes := #[⟨0, some 1, [], 0⟩, ⟨1, some 2, [0], 1⟩, ⟨2, some 3, [1], 2⟩, ⟨3, some 9, [2], 3⟩,
    ⟨4, some 6, [], 4⟩, ⟨5, some 6, [], 5⟩, ⟨6, some 8, [4, 5], 6⟩, ⟨7, some 8, [], 7⟩,
    ⟨8, some 9, [6, 7], 8⟩, ⟨9, none, [3, 8], 9⟩]
  elements := #[.ofFields .text [("text", .str "x")], .ofFields .tableCell [],
    .ofFields .tableRow [], .ofFields .tableBody [], .ofFields .tableCell [],
    .ofFields .tableCell [], .ofFields .tableRow [], .ofFields .tableRow [],
    .ofFields .tableHeader [], .ofFields .table []]
  records := #[[], [], [], [], [], [], [], [], [], []]

set_option maxRecDepth 2000 in
theorem wellFormed_unevenTable : unevenTable.WellFormed := by
  have htext := wellFormed_newNode wellFormed_empty (.ofFields .text [("text", .str "x")]) []
    (by simp)
  have hcell := wellFormed_newNode htext (.ofFields .tableCell []) [0] (by decide)
  have hrow := wellFormed_newNode hcell (.ofFields .tableRow []) [1] (by decide)
  have hbody := wellFormed_newNode hrow (.ofFields .tableBody []) [2] (by decide)
  have hleft := wellFormed_newNode hbody (.ofFields .tableCell []) [] (by simp)
  have hright := wellFormed_newNode hleft (.ofFields .tableCell []) [] (by simp)
  have hwide := wellFormed_newNode hright (.ofFields .tableRow []) [4, 5] (by decide)
  have hbare := wellFormed_newNode hwide (.ofFields .tableRow []) [] (by simp)
  have hheader := wellFormed_newNode hbare (.ofFields .tableHeader []) [6, 7] (by decide)
  exact wellFormed_newNode hheader (.ofFields .table []) [3, 8] (by decide)

/-- The uneven table has three rows and two columns, and the row before the header has the cell with
the text. -/
theorem tableRows_eq_select_uneven :
    unevenTable.WellFormed ∧ (unevenTable.kind 9).isA .table = true ∧
      unevenTable.select 9 [.tableRow] (fun _ => true) = [2, 6, 7] ∧
      unevenTable.tableRows 9 = .ok [2, 6, 7] ∧ unevenTable.tableSize 9 .null = .ok [3, 2] ∧
      ∃! row, row ∈ [2, 6, 7] ∧ 1 ∈ unevenTable.children row := by
  have hf := wellFormed_unevenTable
  have htable : (unevenTable.kind 9).isA .table = true := by decide
  have hselect : unevenTable.select 9 [.tableRow] (fun _ => true) = [2, 6, 7] := by decide
  obtain ⟨rows, columns, hrows, heq, hsize, -, -, hcolumns, hcells⟩ := tableRows_eq_select hf htable
  obtain rfl : rows = [2, 6, 7] := heq.trans hselect
  obtain rfl : columns = 2 := hcolumns
  have hbelow : unevenTable.Ancestor 9 1 := .above (p := 2) rfl (.above (p := 3) rfl (.parent rfl))
  exact ⟨hf, htable, hselect, hrows, hsize, hcells 1 hbelow (by decide)⟩

end Forest

end MarkdownTree
