import MarkdownTree.Proofs.TabsContent

/-!
The nodes of a tree in which tabs were expanded. Each of them is a piece of markup, or was there
before and is not divided; its children show what the list of its children has expanded to. A list
that had no heading of its own gets none, since no panel holds a heading of the admonition that it
comes from.
-/

namespace MarkdownTree.Tabs

open Forest

variable {f g : Forest} {category : Value} {grouped : Bool} {k m n root : NodeId}
  {list nodes : List NodeId} {below pieces : List Piece} {labels : List String}
  {contents : List (List Piece)}

/-- Among the pieces of a set of tabs there are no nodes but those of its panels. -/
theorem node_mem_markup (h : Piece.node n below ∈ markup labels contents) :
    ∃ content ∈ contents, Piece.node n below ∈ content := by
  simp only [markup, List.mem_append, List.mem_cons, List.mem_map, List.mem_flatMap, reduceCtorEq,
    List.not_mem_nil, false_or, or_false, and_false, exists_false] at h
  obtain ⟨⟨content, j⟩, hcontent, hmem⟩ := h
  exact ⟨content, List.fst_mem_of_mem_zipIdx hcontent, hmem⟩

/-- A node among the pieces of an expansion was kept. It stood in the list itself, or in a panel
further down, and then it is no heading. -/
structure KeptPiece (f : Forest) (category : Value) (grouped : Bool) (list : List NodeId)
    (n : NodeId) (below : List Piece) : Prop where
  undivided : divided f category n = false
  expand_eq : expand f category grouped (f.children n) = .ok below
  mem_or_not_heading : n ∈ list ∨ isHeading f n = false
  under : ∃ k ∈ list, f.AtOrAbove k n

theorem keptPiece_of_mem (hf : f.WellFormed) (h : expand f category grouped list = .ok pieces)
    (hmem : .node n below ∈ pieces) : KeptPiece f category grouped list n below := by
  induction list using below_induction hf generalizing pieces with
  | nil =>
      cases h
      exact absurd hmem List.not_mem_nil
  | step list ih =>
      obtain ⟨parts, hparts, rfl⟩ := (expand_eq_ok_iff hf).1 h
      obtain ⟨part, hpart, hmem⟩ := List.mem_flatten.1 hmem
      obtain ⟨group, hgroup, hexpand⟩ := exists_of_forall₂ hparts.flip hpart
      have hproper := proper_groups f category grouped list group hgroup
      have hlist (k : NodeId) (hk : k ∈ group.nodes) : k ∈ list := mem_of_mem_groups hgroup hk
      cases group with
      | kept k =>
          obtain ⟨below', hbelow, rfl⟩ := expandGroup_kept_iff.1 hexpand
          cases List.mem_singleton.1 hmem
          have hn := hlist n (List.mem_singleton_self n)
          exact ⟨hproper, hbelow, Or.inl hn, n, hn, .refl f n⟩
      | run members =>
          obtain ⟨labels, panels, contents, hgather, hcontents, rfl⟩ :=
            expandGroup_run_iff.1 hexpand
          obtain ⟨content, hcontent, hmem⟩ := node_mem_markup hmem
          obtain ⟨panel, hpanel, hexpand⟩ := exists_of_forall₂ hcontents.flip hcontent
          -- The panel is a list further down, of nodes that are no headings.
          have hmember : ∀ c ∈ panel, ∃ k ∈ list, c ∈ f.children k ∧ isHeading f c = false := by
            intro c hc
            obtain ⟨k, hk, hck⟩ := mem_content_of_gather hproper hgather hpanel hc
            exact ⟨k, hlist k hk, mem_content.1 hck⟩
          have hbelow : ∀ c ∈ panel, ∃ k ∈ list, c ∈ f.children k := fun c hc => by
            obtain ⟨k, hk, hck, -⟩ := hmember c hc
            exact ⟨k, hk, hck⟩
          have hkept := ih panel hbelow hexpand hmem
          refine ⟨hkept.undivided, hkept.expand_eq, Or.inr ?_, ?_⟩
          · rcases hkept.mem_or_not_heading with hn | hn
            · obtain ⟨-, -, -, hheading⟩ := hmember n hn
              exact hheading
            · exact hn
          · obtain ⟨c, hc, hcn⟩ := hkept.under
            obtain ⟨k, hk, hck, -⟩ := hmember c hc
            exact ⟨k, hk, (hf.ancestor_of_mem hck).atOrAbove.trans hcn⟩

/-- What a node is in `g` if the tree at `root` was expanded: markup, or a node of the tree whose
children show what they have expanded to. -/
inductive StandsAfter (f g : Forest) (category : Value) (grouped : Bool) (root m : NodeId) : Prop
  | marker (marker : Marker) (hnew : f.size ≤ m) (helement : g.element m = Element.html marker.text)
      (hchildren : g.children m = [])
  | node (below : List Piece) (hold : m < f.size) (hroot : f.AtOrAbove root m)
      (hdivided : divided f category m = false) (helement : g.element m = f.element m)
      (hexpand : expand f category grouped (f.children m) = .ok below)
      (hshown : Shown f g below (g.children m))

/-- Nodes that show pieces are old or new as the pieces are. -/
theorem Shown.marker_or_node (h : Shown f g pieces nodes) (hk : k ∈ nodes) :
    (∃ m : Marker, f.size ≤ k ∧ g.element k = Element.html m.text) ∨
      ∃ below, .node k below ∈ pieces ∧ k < f.size ∧ g.element k = f.element k := by
  induction h with
  | nil => exact absurd hk List.not_mem_nil
  | @marker m k' pieces nodes hnew helement _ _ _ ih =>
      rcases List.mem_cons.1 hk with rfl | hk
      · exact Or.inl ⟨m, hnew, helement⟩
      · refine (ih hk).imp id ?_
        rintro ⟨below, hmem, hold⟩
        exact ⟨below, List.mem_cons_of_mem _ hmem, hold⟩
  | @node n below pieces nodes hold helement _ _ _ _ ih =>
      rcases List.mem_cons.1 hk with rfl | hk
      · exact Or.inr ⟨below, List.mem_cons_self, hold, helement⟩
      · refine (ih hk).imp id ?_
        rintro ⟨below, hmem, hold⟩
        exact ⟨below, List.mem_cons_of_mem _ hmem, hold⟩

theorem standsAfter_of_shown (hf : f.WellFormed) (hg : g.WellFormed) (h : Shown f g pieces nodes)
    (hkept : ∀ n below, .node n below ∈ pieces → f.AtOrAbove root n ∧
      divided f category n = false ∧ expand f category grouped (f.children n) = .ok below)
    (hm : m ∈ nodes.flatMap g.preorder) : StandsAfter f g category grouped root m := by
  induction h with
  | nil => exact absurd hm List.not_mem_nil
  | @marker marker k pieces nodes hnew helement _ hchildren _ ih =>
      rw [List.flatMap_cons, hg.preorder_eq, hchildren] at hm
      rcases List.mem_append.1 hm with hm | hm
      · obtain rfl : m = k := by simpa using hm
        exact .marker marker hnew helement hchildren
      · exact ih (fun n below hmem => hkept n below (List.mem_cons_of_mem _ hmem)) hm
  | @node n below pieces nodes hold helement _ hshown _ ihbelow ih =>
      rw [List.flatMap_cons, hg.preorder_eq] at hm
      obtain ⟨hroot, hdivided, hexpand⟩ := hkept n below List.mem_cons_self
      rcases List.mem_append.1 hm with hm | hm
      · rcases List.mem_cons.1 hm with rfl | hm
        · exact .node below hold hroot hdivided helement hexpand hshown
        · refine ihbelow (fun k more hmem => ?_) hm
          have hpiece := keptPiece_of_mem hf hexpand hmem
          obtain ⟨c, hc, hck⟩ := hpiece.under
          exact ⟨hroot.trans ((hf.ancestor_of_mem hc).atOrAbove.trans hck), hpiece.undivided,
            hpiece.expand_eq⟩
      · exact ih (fun k more hmem => hkept k more (List.mem_cons_of_mem _ hmem)) hm

theorem Expanded.standsAfter (hf : f.WellFormed) (h : Expanded f g category root pieces)
    (hroot : divided f category root = false)
    (hexpand : expand f category grouped (f.children root) = .ok pieces)
    (hm : m ∈ g.preorder root) : StandsAfter f g category grouped root m := by
  apply standsAfter_of_shown hf h.wellFormed h.shown
  · intro n below hmem
    cases List.mem_singleton.1 hmem
    exact ⟨.refl f root, hroot, hexpand⟩
  · rwa [List.flatMap_singleton]

/-- Markup is neither an admonition nor a heading. -/
theorem kind_of_marker {marker : Marker} (helement : g.element m = Element.html marker.text) :
    (g.kind m).isA .admonition = false ∧ (g.kind m).isA .heading = false := by
  rw [kind, helement]
  exact ⟨rfl, rfl⟩

/-- No node is divided once the tree was expanded. -/
theorem StandsAfter.undivided (hf : f.WellFormed) (h : StandsAfter f g category grouped root m) :
    divided g category m = false := by
  cases h with
  | marker marker _ helement _ =>
      rw [divided, isTabs, (kind_of_marker helement).1]
      rfl
  | node below _ _ hdivided helement hexpand hshown =>
      have htabs : isTabs g category m = isTabs f category m := by
        rw [isTabs, isTabs, kind, kind, helement]
      rw [divided, Bool.and_eq_false_iff, htabs]
      refine (Bool.and_eq_false_iff.1 hdivided).imp id fun hno => ?_
      rw [hasHeading, List.any_eq_false] at hno ⊢
      intro k hk
      rcases hshown.marker_or_node hk with ⟨marker, -, hmarker⟩ | ⟨more, hmem, -, hold⟩
      · rw [isHeading, (kind_of_marker hmarker).2]
        exact Bool.false_ne_true
      · have hsame : isHeading g k = isHeading f k := by
          rw [isHeading, isHeading, kind, kind, hold]
        rw [hsame]
        rcases (keptPiece_of_mem hf hexpand hmem).mem_or_not_heading with hlist | hheading
        · exact hno k hlist
        · rw [hheading]
          exact Bool.false_ne_true

/-- A document with a set of tabs under the label `One`. Its one panel holds another set of tabs,
whose heading is empty, and an admonition of the same category without a heading. -/
def tabsWithin : Forest where
  nodes := #[⟨0, some 1, [], 0⟩, ⟨1, some 5, [0], 1⟩, ⟨2, some 3, [], 2⟩, ⟨3, some 5, [2], 3⟩,
    ⟨4, some 5, [], 4⟩, ⟨5, some 6, [1, 3, 4], 5⟩, ⟨6, none, [5], 6⟩]
  elements := #[.ofFields .text [("text", .str "One")], .ofFields .heading [("level", .int 2)],
    .ofFields .heading [("level", .int 3)], .ofFields .admonition [("category", .str "tabs")],
    .ofFields .admonition [("category", .str "tabs")],
    .ofFields .admonition [("category", .str "tabs")], .ofFields .document []]
  records := #[[], [], [], [], [], [], []]

set_option maxRecDepth 1024 in
theorem wellFormed_tabsWithin : tabsWithin.WellFormed := by
  have htext := wellFormed_newNode wellFormed_empty (.ofFields .text [("text", .str "One")]) []
    (by simp)
  have hfirst := wellFormed_newNode htext (.ofFields .heading [("level", .int 2)]) [0] (by decide)
  have hsecond := wellFormed_newNode hfirst (.ofFields .heading [("level", .int 3)]) [] (by simp)
  have hinner := wellFormed_newNode hsecond (.ofFields .admonition [("category", .str "tabs")]) [2]
    (by decide)
  have hplain := wellFormed_newNode hinner (.ofFields .admonition [("category", .str "tabs")]) []
    (by simp)
  have houter := wellFormed_newNode hplain (.ofFields .admonition [("category", .str "tabs")])
    [1, 3, 4] (by decide)
  exact wellFormed_newNode houter (.ofFields .document []) [5] (by decide)

theorem textual_tabsWithin : Textual tabsWithin 6 := by
  intro n hn v hv
  have hlt : n < 7 := hn.lt_size (by decide)
  match n with
  | 0 =>
      cases hv
      exact ⟨"One", rfl⟩
  | 1 | 2 | 3 | 4 | 5 | 6 => cases hv
  | n + 7 => exact absurd hlt (Nat.not_lt.2 (Nat.le_add_left 7 n))

end MarkdownTree.Tabs
