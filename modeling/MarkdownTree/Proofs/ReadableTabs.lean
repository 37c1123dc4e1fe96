import MarkdownTree.Proofs.ExpandedNodes
import MarkdownTree.Proofs.MarkupBlocks
import MarkdownTree.Proofs.TitledPanels

/-!
Expanded tabs can be read back. Read as blocks, the children of a node tell which adjacent
admonitions share a container, which headings its buttons are named after, and what its panels hold,
at any depth. What they must tell is said about the forest before the pass, without its markup.
-/

namespace MarkdownTree.Tabs

open Forest

variable {f g : Forest} {category : Value} {grouped : Bool} {k n root : NodeId}
  {list nodes members others rest : List NodeId} {pieces : List Piece} {labels : List String}
  {contents : List (List Piece)} {parts : List (NodeId × List NodeId)} {i : Nat}

/-- Admonitions that share a container, before the rest of the list: one that is divided, or, if
adjacent ones are merged, the longest run of them. -/
structure ShareContainer (f : Forest) (category : Value) (grouped : Bool)
    (members rest : List NodeId) : Prop where
  ne_nil : members ≠ []
  divided : ∀ k ∈ members, divided f category k = true
  alone : grouped = false → members.length = 1
  longest : grouped = true → ∀ k ∈ rest.head?, Tabs.divided f category k = false

mutual

/-- `ReadAs f category grouped list blocks` says that the blocks are what a list of children is to
be read as: a node that is not divided as itself, and admonitions that share a container as a block
with their labels and panels. -/
inductive ReadAs (f : Forest) (category : Value) (grouped : Bool) : List NodeId → List Block → Prop
  | nil : ReadAs f category grouped [] []
  | kept {n : NodeId} {rest : List NodeId} {blocks : List Block}
      (hn : divided f category n = false) (h : ReadAs f category grouped rest blocks) :
      ReadAs f category grouped (n :: rest) (.node n :: blocks)
  | container {members rest : List NodeId} {buttons panels blocks : List Block}
      (hmembers : ShareContainer f category grouped members rest)
      (hsome : members.flatMap (titledPanels f) ≠ [])
      (hpanels :
        ReadAsPanels f category grouped 1 (members.flatMap (titledPanels f)) buttons panels)
      (h : ReadAs f category grouped rest blocks) :
      ReadAs f category grouped (members ++ rest)
        (.block (Marker.text .containerOpen)
          (.block (Marker.text .labelsOpen) buttons :: panels) :: blocks)

/-- Headings with the contents of their panels are to be read as as many buttons and panels,
numbered from `i` on. A button bears the escaped text of its heading, and a panel holds what its
content is to be read as. -/
inductive ReadAsPanels (f : Forest) (category : Value) (grouped : Bool) :
    Nat → List (NodeId × List NodeId) → List Block → List Block → Prop
  | nil (i : Nat) : ReadAsPanels f category grouped i [] [] []
  | cons {i : Nat} {heading : NodeId} {title : String} {content : List NodeId}
      {more : List (NodeId × List NodeId)} {inside buttons panels : List Block}
      (htitle : f.plainText heading = .ok (.str title))
      (hinside : ReadAs f category grouped content inside)
      (h : ReadAsPanels f category grouped (i + 1) more buttons panels) :
      ReadAsPanels f category grouped i ((heading, content) :: more)
        (.tag (Marker.text (.button i (Markup.escape title))) :: buttons)
        (.block (Marker.text (.panelOpen i)) inside :: panels)

end

/-- A child of `g` in a sequence: a node of `f`, or else markup that was made. -/
def itemAt (f g : Forest) (k : NodeId) : Item :=
  if k < f.size then .node k
  else
    match (g.element k).get? "html" with
    | some (.str text) => .markup text
    | _ => .node k

def Piece.item : Piece → Item
  | .marker m => .markup m.text
  | .node n _ => .node n

theorem Shown.map_itemAt (h : Shown f g pieces nodes) :
    nodes.map (itemAt f g) = pieces.map Piece.item := by
  induction h with
  | nil => rfl
  | @marker m k pieces nodes hnew helement _ _ _ ih =>
      have hitem : itemAt f g k = .markup m.text := by
        rw [itemAt, if_neg (Nat.not_lt.2 hnew), helement]
        rfl
      rw [List.map_cons, List.map_cons, ih, hitem, Piece.item]
  | @node n below pieces nodes hold _ _ _ _ _ ih =>
      have hitem : itemAt f g n = .node n := if_pos hold
      rw [List.map_cons, List.map_cons, ih, hitem, Piece.item]

/-- Pieces that a list expands to are read as what the list is to be read as. -/
def Readable (f : Forest) (category : Value) (grouped : Bool) (list : List NodeId)
    (pieces : List Piece) : Prop :=
  ∃ blocks, ReadAs f category grouped list blocks ∧ ReadsTo (pieces.map Piece.item) blocks

/-- The buttons and the panels of a container can be read, if the contents of the panels can. -/
theorem exists_panels (hlabels : List.Forall₂ (LabelOf f) parts labels)
    (hcontents : List.Forall₂ (fun part => Readable f category grouped part.2) parts contents)
    (i : Nat) :
    ∃ buttons panels, ReadAsPanels f category grouped i parts buttons panels ∧
      ReadsTo (((labels.zipIdx i).map fun (l, j) => Piece.marker (.button j l)).map Piece.item)
        buttons ∧
      ReadsTo (((contents.zipIdx i).flatMap fun (pieces, j) =>
        .marker (.panelOpen j) :: pieces ++ [.marker .close]).map Piece.item) panels := by
  induction hlabels generalizing contents i with
  | nil =>
      cases hcontents
      exact ⟨[], [], .nil i, .nil, .nil⟩
  | @cons part l parts labels hlabel _ ih =>
      obtain ⟨heading, content⟩ := part
      cases hcontents with
      | @cons _ pieces _ contents hcontent hcontents =>
          obtain ⟨title, htitle, rfl⟩ := hlabel
          obtain ⟨inside, hinside, hreads⟩ := hcontent
          obtain ⟨buttons, panels, hpanels, hbuttons, hblocks⟩ := ih hcontents (i + 1)
          refine ⟨_, _, .cons htitle hinside hpanels, ?_, ?_⟩
          · exact (Marker.readsTo_button i (Markup.escape title)).append hbuttons
          · have hpanel := (Marker.readsTo_block (m := .panelOpen i) rfl hreads).append hblocks
            simpa [Piece.item] using hpanel

/-- The markup around buttons and panels is read as the block of a container. -/
theorem readsTo_markup {buttons panels : List Block}
    (hbuttons : ReadsTo (((labels.zipIdx 1).map fun (l, j) =>
      Piece.marker (.button j l)).map Piece.item) buttons)
    (hpanels : ReadsTo (((contents.zipIdx 1).flatMap fun (pieces, j) =>
      .marker (.panelOpen j) :: pieces ++ [.marker .close]).map Piece.item) panels) :
    ReadsTo ((markup labels contents).map Piece.item)
      [.block (Marker.text .containerOpen)
        (.block (Marker.text .labelsOpen) buttons :: panels)] := by
  have hinside := (Marker.readsTo_block (m := .labelsOpen) rfl hbuttons).append hpanels
  have hall := Marker.readsTo_block (m := .containerOpen) rfl hinside
  simpa [markup, Piece.item] using hall

/-- What is said of the lists of children of some nodes, once they have expanded. -/
def ReadableBelow (f : Forest) (category : Value) (grouped : Bool) (nodes : List NodeId) : Prop :=
  ∀ list pieces, (∀ c ∈ list, ∃ k ∈ nodes, c ∈ f.children k) →
    expand f category grouped list = .ok pieces → Readable f category grouped list pieces

theorem ReadableBelow.mono (h : ReadableBelow f category grouped nodes) (hsub : list ⊆ nodes) :
    ReadableBelow f category grouped list := by
  intro below pieces hbelow
  apply h
  intro c hc
  obtain ⟨k, hk, hck⟩ := hbelow c hc
  exact ⟨k, hsub hk, hck⟩

/-- A run of divided admonitions has expanded to a container that can be read. -/
theorem readsTo_run (hdivided : ∀ k ∈ members, divided f category k = true)
    (hbelow : ReadableBelow f category grouped members)
    (h : expandGroup f (expand f category grouped) (.run members) = .ok pieces) :
    ∃ buttons panels,
      ReadAsPanels f category grouped 1 (members.flatMap (titledPanels f)) buttons panels ∧
      ReadsTo (pieces.map Piece.item)
        [.block (Marker.text .containerOpen)
          (.block (Marker.text .labelsOpen) buttons :: panels)] := by
  obtain ⟨labels, panels, contents, hgather, hcontents, rfl⟩ := expandGroup_run_iff.1 h
  obtain ⟨hlabels, rfl⟩ := gather_titled hdivided hgather
  have hreadable : List.Forall₂ (fun part => Readable f category grouped part.2)
      (members.flatMap (titledPanels f)) contents := by
    refine forall₂_imp_of_mem (List.forall₂_map_left_iff.1 hcontents)
      fun part hmem content _ hcontent => hbelow part.2 content (fun c hc => ?_) hcontent
    have hpanel := List.mem_map_of_mem (f := Prod.snd) hmem
    exact Interleaved.mem_children_of_gather hgather hpanel hc
  obtain ⟨buttons, blocks, hpanels, hbuttons, hblocks⟩ := exists_panels hlabels hreadable 1
  exact ⟨buttons, blocks, hpanels, readsTo_markup hbuttons hblocks⟩

/-- The groups of a list can be read one after the other, if the lists further down can. -/
theorem readable_flatten {groupParts : List (List Piece)}
    (hparts : List.Forall₂
      (fun group part => expandGroup f (expand f category grouped) group = .ok part)
      (groups f category grouped list) groupParts)
    (hbelow : ReadableBelow f category grouped list) :
    Readable f category grouped list groupParts.flatten := by
  -- On the length, since a container takes several admonitions off the list at once.
  induction hlength : list.length using Nat.strongRecOn generalizing list groupParts with
  | ind length ih =>
      subst hlength
      rcases list with _ | ⟨n, rest⟩
      · cases hparts
        exact ⟨[], .nil, .nil⟩
      by_cases hn : divided f category n = true
      · obtain ⟨members, others, hfront, hgroups⟩ := groups_run grouped hn rest
        obtain rfl := hfront.rest_eq
        rw [hgroups] at hparts
        obtain ⟨part, more, hpart, hmore, rfl⟩ := List.forall₂_cons_left_iff.1 hparts
        have hdivided : ∀ k ∈ n :: members, divided f category k = true :=
          List.forall_mem_cons.2 ⟨hn, hfront.divided⟩
        obtain ⟨buttons, panels, hpanels, hcontainer⟩ := readsTo_run hdivided
          (hbelow.mono (List.subset_append_left (n :: members) others)) hpart
        have hothers : others.length < (n :: (members ++ others)).length := by
          rw [List.length_cons, List.length_append]
          omega
        obtain ⟨blocks, hreadAs, hreads⟩ := ih others.length hothers hmore
          (hbelow.mono (List.subset_append_right (n :: members) others)) rfl
        have hshare : ShareContainer f category grouped (n :: members) others :=
          ⟨List.cons_ne_nil _ _, hdivided, fun halone => by rw [hfront.alone halone]; rfl,
            hfront.longest⟩
        have hsome : (n :: members).flatMap (titledPanels f) ≠ [] := by
          rw [List.flatMap_cons]
          exact List.append_ne_nil_of_left_ne_nil (titledPanels_ne_nil hn) _
        refine ⟨_, .container hshare hsome hpanels hreadAs, ?_⟩
        rw [List.flatten_cons, List.map_append]
        exact hcontainer.append hreads
      · rw [Bool.not_eq_true] at hn
        rw [groups_kept hn] at hparts
        obtain ⟨part, more, hpart, hmore, rfl⟩ := List.forall₂_cons_left_iff.1 hparts
        obtain ⟨below, -, rfl⟩ := expandGroup_kept_iff.1 hpart
        obtain ⟨blocks, hreadAs, hreads⟩ := ih rest.length (Nat.lt_succ_self _) hmore
          (hbelow.mono (List.subset_cons_self n rest)) rfl
        refine ⟨_, .kept hn hreadAs, ?_⟩
        rw [List.flatten_cons, List.map_append]
        exact (ReadsTo.node n).append hreads

/-- What a list expands to can be read as the list is to be read. -/
theorem readable_expand (hf : f.WellFormed) (h : expand f category grouped list = .ok pieces) :
    Readable f category grouped list pieces := by
  induction list using below_induction hf generalizing pieces with
  | nil =>
      cases h
      exact ⟨[], .nil, .nil⟩
  | step list ih =>
      obtain ⟨parts, hparts, rfl⟩ := (expand_eq_ok_iff hf).1 h
      exact readable_flatten hparts fun below content hbelow hcontent => ih below hbelow hcontent

/-- After a pass that succeeds the children of every node are a properly nested sequence. Those of a
node that was there before are read as what the node's children were to be read as: each container
with as many panels as its admonitions have headings, numbered in order, each named after its
heading and around its content; and markup has no children. -/
theorem interleave_reads_back (category : Value) (grouped : Bool) (root new : NodeId) (f g : Forest)
    (messages : List Log.Message) (hf : f.WellFormed) (hlt : root < f.size)
    (h : interleave category grouped root f = (.ok new, messages, g)) :
    ∀ n ∈ g.preorder new, ∃ blocks,
      readBlocks ((g.children n).map (itemAt f g)) = some blocks ∧
        (n < f.size → ReadAs f category grouped (f.children n) blocks) ∧
        (f.size ≤ n → g.children n = []) := by
  obtain ⟨pieces, hroot, hexpand, hexpanded, rfl⟩ := expanded_of_interleave hf hlt h
  intro n hn
  cases hexpanded.standsAfter hf hroot hexpand hn with
  | marker marker hnew _ hchildren =>
      rw [hchildren]
      exact ⟨[], rfl, fun hold => absurd hold (Nat.not_lt.2 hnew), fun _ => rfl⟩
  | node below hold _ _ _ hbelow hshown =>
      obtain ⟨blocks, hreadAs, hreads⟩ := readable_expand hf hbelow
      rw [hshown.map_itemAt]
      exact ⟨blocks, hreads.readBlocks_eq, fun _ => hreadAs,
        fun hnew => absurd hold (Nat.not_lt.2 hnew)⟩

/-- The children of the document are read as a container in a panel of another. -/
theorem interleave_reads_back_tabsWithin : ∃ messages g blocks,
    interleave (.str "tabs") true 6 tabsWithin = (.ok 6, messages, g) ∧
      readBlocks ((g.children 6).map (itemAt tabsWithin g)) = some blocks ∧
        ReadAs tabsWithin (.str "tabs") true [5] blocks := by
  have hf := wellFormed_tabsWithin
  have hlt : 6 < tabsWithin.size := by decide
  obtain ⟨messages, g, h⟩ : ∃ messages g,
      interleave (.str "tabs") true 6 tabsWithin = (.ok 6, messages, g) :=
    interleave_returns true hf hlt (by decide) textual_tabsWithin
  have hroot : 6 ∈ g.preorder 6 := List.mem_cons_self
  obtain ⟨blocks, hread, hreadAs, -⟩ :=
    interleave_reads_back (.str "tabs") true 6 6 tabsWithin g messages hf hlt h 6 hroot
  exact ⟨messages, g, blocks, h, hread, hreadAs hlt⟩

end MarkdownTree.Tabs
