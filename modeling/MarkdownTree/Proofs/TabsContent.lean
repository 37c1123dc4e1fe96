import MarkdownTree.Proofs.TabsExpanded

/-!
What tabs keep. The nodes of an expansion are, in order, the nodes of the trees that were expanded,
without the divided admonitions and the trees of their headings; so the pass over tabs loses,
doubles and reorders no content.
-/

namespace MarkdownTree.Tabs

open Forest Revision Asking

variable {f g : Forest} {category : Value} {grouped : Bool} {c m n root : NodeId}
  {list members nodes : List NodeId} {pieces : List Piece} {α β : Type}

/-! ### Nodes of pieces -/

mutual

def Piece.nodes : Piece → List NodeId
  | .marker _ => []
  | .node n below => n :: nodesOf below

def nodesOf : List Piece → List NodeId
  | [] => []
  | piece :: rest => piece.nodes ++ nodesOf rest

end

theorem nodesOf_eq (pieces : List Piece) : nodesOf pieces = pieces.flatMap Piece.nodes := by
  induction pieces with
  | nil => rfl
  | cons piece pieces ih => rw [nodesOf, ih, List.flatMap_cons]

@[simp] theorem nodesOf_append (pieces more : List Piece) :
    nodesOf (pieces ++ more) = nodesOf pieces ++ nodesOf more := by
  simp only [nodesOf_eq, List.flatMap_append]

@[simp] theorem nodesOf_nil : nodesOf [] = [] := rfl

@[simp] theorem nodesOf_marker (m : Marker) (rest : List Piece) :
    nodesOf (.marker m :: rest) = nodesOf rest := rfl

@[simp] theorem nodesOf_node (n : NodeId) (below rest : List Piece) :
    nodesOf (.node n below :: rest) = n :: (nodesOf below ++ nodesOf rest) := rfl

theorem nodesOf_flatten (parts : List (List Piece)) :
    nodesOf parts.flatten = parts.flatMap nodesOf := by
  induction parts with
  | nil => rfl
  | cons part parts ih => rw [List.flatten_cons, nodesOf_append, ih, List.flatMap_cons]

theorem nodesOf_buttons (labels : List String) (i : Nat) :
    nodesOf ((labels.zipIdx i).map fun (l, j) => .marker (.button j l)) = [] := by
  induction labels generalizing i with
  | nil => rfl
  | cons l labels ih => exact ih (i + 1)

theorem nodesOf_panels (contents : List (List Piece)) (i : Nat) :
    nodesOf ((contents.zipIdx i).flatMap fun (pieces, j) =>
      .marker (.panelOpen j) :: pieces ++ [.marker .close]) = contents.flatMap nodesOf := by
  induction contents generalizing i with
  | nil => rfl
  | cons pieces contents ih =>
      rw [List.zipIdx_cons, List.flatMap_cons, nodesOf_append, ih]
      simp

/-- Markup adds no nodes to those of the contents. -/
theorem nodesOf_markup (labels : List String) (contents : List (List Piece)) :
    nodesOf (markup labels contents) = contents.flatMap nodesOf := by
  rw [markup, nodesOf_append, nodesOf_append, nodesOf_append, nodesOf_append, nodesOf_buttons,
    nodesOf_panels]
  simp

/-- Where pieces are shown, their nodes are the old ones among the nodes of the shown trees. -/
theorem filter_preorder_of_shown (hg : g.WellFormed) (h : Shown f g pieces nodes) :
    (nodes.flatMap g.preorder).filter (· < f.size) = nodesOf pieces := by
  induction h with
  | nil => rfl
  | @marker m k pieces nodes hnew _ _ hchildren _ ih =>
      rw [List.flatMap_cons, List.filter_append, ih, hg.preorder_eq, hchildren]
      simp [hnew]
  | @node n below pieces nodes hold _ _ _ _ ihbelow ih =>
      rw [List.flatMap_cons, List.filter_append, ih, hg.preorder_eq,
        List.filter_cons_of_pos, ihbelow]
      · rfl
      · simpa using hold

/-- Where pieces are shown, the new nodes are markup. -/
theorem marker_of_shown (hg : g.WellFormed) (h : Shown f g pieces nodes)
    (hm : m ∈ nodes.flatMap g.preorder) (hnew : f.size ≤ m) :
    ∃ marker : Marker, g.element m = Element.html marker.text ∧ g.metadata m = [] ∧
      g.children m = [] := by
  induction h with
  | nil => exact absurd hm List.not_mem_nil
  | @marker marker k pieces nodes _ helement hmetadata hchildren _ ih =>
      rw [List.flatMap_cons, hg.preorder_eq, hchildren] at hm
      rcases List.mem_append.1 hm with hm | hm
      · obtain rfl : m = k := by simpa using hm
        exact ⟨marker, helement, hmetadata, hchildren⟩
      · exact ih hm
  | @node n below pieces nodes hold _ _ _ _ ihbelow ih =>
      rw [List.flatMap_cons, hg.preorder_eq] at hm
      rcases List.mem_append.1 hm with hm | hm
      · rcases List.mem_cons.1 hm with rfl | hm
        · exact absurd hold (Nat.not_lt.2 hnew)
        · exact ihbelow hm
      · exact ih hm

/-! ### What is left out -/

/-- Whether a node is in the tree of a heading that divides an admonition of a tree. -/
def inLabel (f : Forest) (category : Value) (root m : NodeId) : Bool :=
  (f.preorder root).any fun a => divided f category a &&
    (f.children a).any fun h => isHeading f h && (f.preorder h).contains m

/-- Whether a node of a tree is an admonition that tabs are made of. -/
def transformed (f : Forest) (category : Value) (root m : NodeId) : Bool :=
  (f.preorder root).contains m && divided f category m && !inLabel f category root m

/-- Whether tabs leave a node out: an admonition that they are made of, or a node in the tree of one
of its headings. -/
def leftOut (f : Forest) (category : Value) (root m : NodeId) : Bool :=
  transformed f category root m || inLabel f category root m

section
variable (hf : f.WellFormed)

include hf

theorem inLabel_iff : inLabel f category root m = true ↔
    ∃ a h, f.AtOrAbove root a ∧ divided f category a = true ∧ h ∈ f.children a ∧
      isHeading f h = true ∧ f.AtOrAbove h m := by
  simp only [inLabel, List.any_eq_true, Bool.and_eq_true, List.contains_iff_mem,
    hf.mem_preorder_iff]
  constructor
  · rintro ⟨a, ha, hdivided, h, hh, hheading, hm⟩
    exact ⟨a, h, ha, hdivided, hh, hheading, hm⟩
  · rintro ⟨a, h, ha, hdivided, hh, hheading, hm⟩
    exact ⟨a, ha, hdivided, h, hh, hheading, hm⟩

/-- Labels end above a child, unless it is a heading of a divided admonition itself. -/
theorem inLabel_child (hn : inLabel f category root n = false) (hc : c ∈ f.children n)
    (h : divided f category n = false ∨ isHeading f c = false) :
    inLabel f category root c = false := by
  rw [← Bool.not_eq_true] at hn ⊢
  intro hlabel
  obtain ⟨a, k, ha, hdivided, hk, hheading, hkc⟩ := (inLabel_iff hf).1 hlabel
  rcases hf.atOrAbove_of_mem hc hkc with rfl | hkn
  -- The child would be the heading itself, and the admonition its parent.
  · obtain rfl := hf.parent_unique hk hc
    rcases h with h | h
    · rw [h] at hdivided
      cases hdivided
    · rw [h] at hheading
      cases hheading
  · exact hn ((inLabel_iff hf).2 ⟨a, k, ha, hdivided, hk, hheading, hkn⟩)

theorem inLabel_root : inLabel f category root root = false := by
  rw [← Bool.not_eq_true]
  intro hlabel
  obtain ⟨a, h, ha, -, hh, -, hroot⟩ := (inLabel_iff hf).1 hlabel
  exact hf.not_atOrAbove_of_mem hh ha hroot

/-- A node that stays comes before what stays below it. -/
theorem filter_preorder_kept (hdivided : divided f category n = false)
    (hn : inLabel f category root n = false) :
    (f.preorder n).filter (!leftOut f category root ·) =
      n :: ((f.children n).flatMap f.preorder).filter (!leftOut f category root ·) := by
  rw [hf.preorder_eq, List.filter_cons_of_pos]
  simp [leftOut, transformed, hdivided, hn]

/-- Of a divided admonition the content stays. -/
theorem filter_preorder_divided (hroot : f.AtOrAbove root n)
    (hdivided : divided f category n = true) : (f.preorder n).filter (!leftOut f category root ·) =
      ((contentOf f n).flatMap f.preorder).filter (!leftOut f category root ·) := by
  have hgone : leftOut f category root n = true := by
    have hmem : n ∈ f.preorder root := hf.mem_preorder_iff.2 hroot
    simp [leftOut, transformed, hdivided, hmem]
  rw [hf.preorder_eq, List.filter_cons_of_neg (by simp [hgone]), List.filter_flatMap,
    List.filter_flatMap, contentOf, flatMap_filter_eq]
  intro h hh hheading
  refine List.filter_eq_nil_iff.2 fun m hm => ?_
  have hlabel : inLabel f category root m = true := by
    refine (inLabel_iff hf).2 ⟨n, h, hroot, hdivided, hh, by simpa using hheading, ?_⟩
    exact hf.mem_preorder_iff.1 hm
  simp [leftOut, hlabel]

/-- Nothing in a label is divided. -/
theorem inLabel_of_divided (hdivided : divided f category m = true) :
    inLabel f category root m = false := by
  rw [← Bool.not_eq_true]
  intro hlabel
  obtain ⟨a, h, -, -, -, hheading, hhm⟩ := (inLabel_iff hf).1 hlabel
  have hno : isTabs f category m = false := not_isTabs_of_heading hf hheading hhm
  rw [(Bool.and_eq_true_iff.1 hdivided).1] at hno
  cases hno

theorem transformed_iff : transformed f category root m = true ↔
    f.AtOrAbove root m ∧ divided f category m = true := by
  simp only [transformed, Bool.and_eq_true, List.contains_iff_mem, hf.mem_preorder_iff]
  constructor
  · rintro ⟨⟨hroot, hdivided⟩, -⟩
    exact ⟨hroot, hdivided⟩
  · rintro ⟨hroot, hdivided⟩
    exact ⟨⟨hroot, hdivided⟩, by rw [inLabel_of_divided hf hdivided]; rfl⟩

end

/-! ### What an expansion keeps -/

theorem flatMap_eq_of_forall₂ {γ : Type} {F : α → List γ} {G : β → List γ} {as : List α}
    {bs : List β} (h : List.Forall₂ (fun a b => G b = F a) as bs) :
    bs.flatMap G = as.flatMap F := by
  induction h with
  | nil => rfl
  | cons hab _ ih => rw [List.flatMap_cons, List.flatMap_cons, hab, ih]

/-- A list whose nodes are in no label. -/
def Unlabelled (f : Forest) (category : Value) (root : NodeId) (list : List NodeId) : Prop :=
  ∀ n ∈ list, f.AtOrAbove root n ∧ inLabel f category root n = false

/-- What a list comes to keeps, in order, all nodes of its trees that are not left out. -/
def Keeps (f : Forest) (category : Value) (root : NodeId) (list : List NodeId)
    (pieces : List Piece) : Prop :=
  nodesOf pieces = (list.flatMap f.preorder).filter (!leftOut f category root ·)

theorem Unlabelled.child (hf : f.WellFormed) (hlist : Unlabelled f category root list)
    (hn : n ∈ list) (hc : c ∈ f.children n)
    (hcase : divided f category n = false ∨ isHeading f c = false) :
    f.AtOrAbove root c ∧ inLabel f category root c = false := by
  obtain ⟨hroot, hlabel⟩ := hlist n hn
  exact ⟨hroot.trans (hf.ancestor_of_mem hc).atOrAbove, inLabel_child hf hlabel hc hcase⟩

/-- What a panel holds is content of a member. -/
theorem mem_content_of_gather {labels : List String} {panels : List (List NodeId)}
    {panel : List NodeId} (hdivided : ∀ k ∈ members, divided f category k = true)
    (h : Interleaved.gather f members = .ok (labels, panels)) (hpanel : panel ∈ panels)
    (hc : c ∈ panel) : ∃ k ∈ members, c ∈ contentOf f k := by
  have hflat : c ∈ panels.flatten := List.mem_flatten.2 ⟨panel, hpanel, hc⟩
  rw [flatten_of_gather hdivided h] at hflat
  exact List.mem_flatMap.1 hflat

/-- The panels of a run keep what the members of the run keep. -/
theorem keeps_markup (hf : f.WellFormed) (hlist : Unlabelled f category root members)
    (hdivided : ∀ k ∈ members, divided f category k = true) {labels : List String}
    {panels : List (List NodeId)} (hgather : Interleaved.gather f members = .ok (labels, panels))
    {contents : List (List Piece)}
    (hpanels : List.Forall₂ (Keeps f category root) panels contents) :
    Keeps f category root members (markup labels contents) := by
  have hflat := flatten_of_gather hdivided hgather
  have hcontents := flatMap_eq_of_forall₂ hpanels
  -- Both sides come to the content of the members, once by panels and once by members.
  calc
    nodesOf (markup labels contents)
        = panels.flatMap fun panel =>
            (panel.flatMap f.preorder).filter (!leftOut f category root ·) := by
          rw [nodesOf_markup, hcontents]
    _ = (panels.flatten.flatMap f.preorder).filter (!leftOut f category root ·) := by
          rw [List.flatten_eq_flatMap, List.flatMap_assoc, List.filter_flatMap]
          rfl
    _ = members.flatMap fun k =>
          ((contentOf f k).flatMap f.preorder).filter (!leftOut f category root ·) := by
          rw [hflat, List.flatMap_assoc, List.filter_flatMap]
    _ = members.flatMap fun k => (f.preorder k).filter (!leftOut f category root ·) := by
          apply List.flatMap_congr
          intro k hk
          exact (filter_preorder_divided hf (hlist k hk).1 (hdivided k hk)).symm
    _ = (members.flatMap f.preorder).filter (!leftOut f category root ·) := by
          rw [List.filter_flatMap]

/-- A node that is kept keeps itself, and what its children keep. -/
theorem keeps_node (hf : f.WellFormed) (hdivided : divided f category n = false)
    (hlabel : inLabel f category root n = false) {below : List Piece}
    (hbelow : Keeps f category root (f.children n) below) :
    Keeps f category root [n] [.node n below] := by
  rw [Keeps] at hbelow ⊢
  rw [nodesOf_node, hbelow, nodesOf_nil, List.append_nil, List.flatMap_singleton,
    filter_preorder_kept hf hdivided hlabel]

/-- A list keeps what its groups keep. -/
theorem keeps_flatten {parts : List (List Piece)}
    (h : List.Forall₂ (fun group part => Keeps f category root group.nodes part)
      (groups f category grouped list) parts) : Keeps f category root list parts.flatten := by
  rw [Keeps, nodesOf_flatten, flatMap_eq_of_forall₂ h, ← List.filter_flatMap, ← List.flatMap_assoc,
    nodes_groups]

/-- An expansion keeps all nodes in order but those that are left out. -/
theorem keeps_expand (hf : f.WellFormed) (hlist : Unlabelled f category root list)
    (h : expand f category grouped list = .ok pieces) : Keeps f category root list pieces := by
  induction list using below_induction hf generalizing pieces with
  | nil =>
      cases h
      rfl
  | step list ih =>
      obtain ⟨parts, hparts, rfl⟩ := (expand_eq_ok_iff hf).1 h
      refine keeps_flatten (forall₂_imp_of_mem hparts fun group hgroup part _ hpart => ?_)
      have hproper := proper_groups f category grouped list group hgroup
      have hnodes : Unlabelled f category root group.nodes := fun n hn =>
        hlist n (mem_of_mem_groups hgroup hn)
      cases group with
      | kept n =>
          have hn : n ∈ (Group.kept n).nodes := List.mem_singleton_self n
          obtain ⟨below, hbelow, rfl⟩ := expandGroup_kept_iff.1 hpart
          refine keeps_node hf hproper (hnodes n hn).2
            (ih _ (fun c hc => ?_) (fun c hc => ?_) hbelow)
          · exact ⟨n, mem_of_mem_groups hgroup hn, hc⟩
          · exact hnodes.child hf hn hc (Or.inl hproper)
      | run members =>
          obtain ⟨labels, panels, contents, hgather, hcontents, rfl⟩ := expandGroup_run_iff.1 hpart
          refine keeps_markup hf hnodes hproper hgather
            (forall₂_imp_of_mem hcontents fun panel hpanel content _ hcontent => ?_)
          -- A panel may hold content of several members, so each node of it is traced to its own.
          have hmember : ∀ c ∈ panel, ∃ k ∈ members, c ∈ contentOf f k := fun c hc =>
            mem_content_of_gather hproper hgather hpanel hc
          refine ih panel (fun c hc => ?_) (fun c hc => ?_) hcontent
          · obtain ⟨k, hk, hck⟩ := hmember c hc
            exact ⟨k, mem_of_mem_groups hgroup hk, (mem_content.1 hck).1⟩
          · obtain ⟨k, hk, hck⟩ := hmember c hc
            obtain ⟨hchild, hheading⟩ := mem_content.1 hck
            exact hnodes.child hf hk hchild (Or.inr hheading)

/-! ### What a tree keeps -/

namespace Expanded

variable (hf : f.WellFormed) (h : Expanded f g category root pieces)

include hf h

theorem filter_preorder (hroot : divided f category root = false)
    (hexpand : expand f category grouped (f.children root) = .ok pieces) :
    (g.preorder root).filter (· < f.size) =
      (f.preorder root).filter (!leftOut f category root ·) := by
  have hlabel : inLabel f category root root = false := inLabel_root hf
  have hchildren : Unlabelled f category root (f.children root) := fun c hc =>
    ⟨(hf.ancestor_of_mem hc).atOrAbove, inLabel_child hf hlabel hc (Or.inl hroot)⟩
  have hkeeps := keeps_node hf hroot hlabel (keeps_expand hf hchildren hexpand)
  have hshown := filter_preorder_of_shown h.wellFormed h.shown
  rw [Keeps, List.flatMap_singleton] at hkeeps
  rwa [List.flatMap_singleton, hkeeps] at hshown

/-- The parent of a node is as before, unless one of them is transformed. -/
theorem parent?_eq_of_untransformed (hm : m < f.size) (hno : transformed f category root m = false)
    (hparent : ∀ p, f.parent? m = some p → transformed f category root p = false) :
    g.parent? m = f.parent? m := by
  apply h.parent?_eq m hm
  rintro ⟨hbelow, hdivided | ⟨p, hp, hdivided⟩⟩
  · have htransformed := (transformed_iff hf).2 ⟨hbelow.atOrAbove, hdivided⟩
    rw [hno] at htransformed
    cases htransformed
  · have hover : f.AtOrAbove root p := by
      rcases hf.atOrAbove_of_mem (hf.mem_of_parent? hp) hbelow.atOrAbove with rfl | hover
      · exact absurd hbelow (hf.not_ancestor_self _)
      · exact hover
    have htransformed := (transformed_iff hf).2 ⟨hover, hdivided⟩
    rw [hparent p hp] at htransformed
    cases htransformed

end Expanded

/-! ### A root that is divided -/

/-- The markup of a set of tabs is more than one node. -/
theorem two_of_realize (hf : f.WellFormed) (labels : List String) (panels : List (List NodeId)) :
    ∃ a b rest, (realize f (layout labels panels)).1.1 = a :: b :: rest := by
  have hstands := (realized hf (layout labels panels)).standsFor
  generalize (realize f (layout labels panels)).1.1 = nodes at hstands
  obtain ⟨parts, hparts⟩ : ∃ parts, layout labels panels =
      .marker .containerOpen :: .marker .labelsOpen :: parts := ⟨_, rfl⟩
  rw [hparts] at hstands
  cases hstands with
  | cons _ hrest =>
      cases hrest with
      | cons _ _ => exact ⟨_, _, _, rfl⟩

/-- Where an admonition is divided, its labels are a fault, or several nodes take its place. -/
theorem Interleaved.visit_several (hf : f.WellFormed) (grouped : Bool) {s : Interleaved.State}
    (habsorbed : n ∉ s.absorbed) (hn : divided f category n = true) :
    (∃ e, (Interleaved.visit category grouped n f s).1 = .error e) ∨
      ∃ a b rest final, (Interleaved.visit category grouped n f s).1 =
        .ok (.action (.splice (.node a :: .node b :: rest) final)) := by
  unfold Interleaved.visit
  rw [if_neg (by simpa using habsorbed), if_neg (by simp [(Bool.and_eq_true_iff.1 hn).1])]
  rcases hown : panels? f n with e | own
  · exact Or.inl ⟨e, rfl⟩
  · obtain ⟨r, rfl⟩ := panels?_of_divided hn hown
    dsimp only
    split
    · exact Or.inl ⟨_, rfl⟩
    · rename_i members labels panels _
      obtain ⟨a, b, rest, hnodes⟩ := two_of_realize hf labels panels
      refine Or.inr ⟨a, b, rest.map .node,
        .these ((realize f (layout labels panels)).1.2.map .node), ?_⟩
      dsimp only
      rw [hnodes]
      rfl

/-- No single node can take the place of a root that is divided. -/
theorem interleave_fails (hf : f.WellFormed) (hroot : divided f category root = true) :
    ∃ e, (interleave category grouped root f).1 = .error e := by
  have heq := congrArg Prod.fst (interleave_eq category grouped root f)
  have hnone : root ∉ Interleaved.State.start.absorbed := List.not_mem_nil
  rw [result_revise] at heq
  rcases Interleaved.visit_several hf grouped hnone hroot with ⟨e, he⟩ | ⟨a, b, rest, final, hok⟩
  · rcases hvisit : Interleaved.visit category grouped root f .start with ⟨r, g, t⟩
    rw [hvisit] at he heq
    obtain rfl : r = .error e := he
    exact ⟨_, heq⟩
  · rcases hvisit : Interleaved.visit category grouped root f .start with ⟨r, g, t⟩
    rw [hvisit] at hok heq
    obtain rfl : r = .ok (.action (.splice (.node a :: .node b :: rest) final)) := hok
    exact ⟨_, heq⟩

/-- A pass that succeeds has expanded the tree at a root that is not divided, and answers it. -/
theorem expanded_of_interleave {new : NodeId} {messages : List Log.Message} (hf : f.WellFormed)
    (hlt : root < f.size) (h : interleave category grouped root f = (.ok new, messages, g)) :
    ∃ pieces, divided f category root = false ∧
      expand f category grouped (f.children root) = .ok pieces ∧
        Expanded f g category root pieces ∧ new = root := by
  have hroot : divided f category root = false := by
    rw [← Bool.not_eq_true]
    intro hdivided
    obtain ⟨e, he⟩ : ∃ e, (interleave category grouped root f).1 = .error e :=
      interleave_fails hf hdivided
    rw [h] at he
    cases he
  have hcomes := interleave_comes grouped hf hlt hroot
  rw [h] at hcomes
  cases hexpand : expand f category grouped (f.children root) with
  | error e =>
      rw [hexpand] at hcomes
      cases hcomes
  | ok pieces =>
      rw [hexpand] at hcomes
      obtain ⟨g', hexpanded, heq⟩ := hcomes
      cases heq
      exact ⟨pieces, hroot, rfl, hexpanded, rfl⟩

/-- If the pass over tabs succeeds, the old nodes of the tree are those that were there but for what
is left out, in the same order and with the same data; the new ones are markup; and no node that is
neither transformed nor a child of a transformed admonition has another parent. -/
theorem interleave_keeps_content (category : Value) (grouped : Bool) (root new : NodeId)
    (f g : Forest) (messages : List Log.Message) (hf : f.WellFormed) (hlt : root < f.size)
    (h : interleave category grouped root f = (.ok new, messages, g)) :
    (g.preorder new).filter (· < f.size) =
        (f.preorder root).filter (!leftOut f category root ·) ∧
      (∀ m ∈ g.preorder new, f.size ≤ m →
        ∃ marker : Marker, g.element m = Element.html marker.text ∧ g.metadata m = [] ∧
          g.children m = []) ∧
      (∀ m < f.size, g.element m = f.element m ∧ g.metadata m = f.metadata m) ∧
      ∀ m < f.size, transformed f category root m = false →
        (∀ p, f.parent? m = some p → transformed f category root p = false) →
          g.parent? m = f.parent? m := by
  obtain ⟨pieces, hroot, hexpand, hexpanded, rfl⟩ := expanded_of_interleave hf hlt h
  have hg := hexpanded.wellFormed
  refine ⟨hexpanded.filter_preorder hf hroot hexpand, fun m hm hnew => ?_, fun m hm => ?_,
    fun m hm hno hparent => hexpanded.parent?_eq_of_untransformed hf hm hno hparent⟩
  · have hmem : m ∈ [new].flatMap g.preorder := by rwa [List.flatMap_singleton]
    exact marker_of_shown hg hexpanded.shown hmem hnew
  · exact ⟨hexpanded.element_eq m hm, hexpanded.metadata_eq m hm⟩

/-- Of the document with tabs the document itself and the paragraph stay. -/
theorem interleave_keeps_content_tabbed : ∃ messages g,
    interleave (.str "tabs") true 4 tabbed = (.ok 4, messages, g) ∧
      (g.preorder 4).filter (· < tabbed.size) = [4, 2] := by
  have hf := wellFormed_tabbed
  have hlt : 4 < tabbed.size := by decide
  obtain ⟨messages, g, h⟩ : ∃ messages g,
      interleave (.str "tabs") true 4 tabbed = (.ok 4, messages, g) :=
    interleave_returns true hf hlt (by decide) textual_tabbed
  obtain ⟨hpreorder, -⟩ :=
    interleave_keeps_content (.str "tabs") true 4 4 tabbed g messages hf hlt h
  have hstay : (tabbed.preorder 4).filter (!leftOut tabbed (.str "tabs") 4 ·) = [4, 2] := by decide
  exact ⟨messages, g, h, hpreorder.trans hstay⟩

end MarkdownTree.Tabs
