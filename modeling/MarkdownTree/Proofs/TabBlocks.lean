import MarkdownTree.Proofs.Building
import MarkdownTree.Proofs.MatchingCopies
import MarkdownTree.Proofs.TabsGrowth

/-!
Blocks of markup that hold a tab. A block quote beside a forest is filled with copies of trees, one
after the other, and the forest stays as it is meanwhile. So the block for an admonition whose title
is a text can always be made: it comes with a block quote that matches the content of the
admonition, and everything else is unchanged.
-/

namespace MarkdownTree

namespace Forest

variable {f g h : Forest} {a c k m n p q : NodeId} {nodes more : List NodeId}

/-- A tree is the same after an attachment at a node that is not in it. -/
theorem sameTree_attach (hp : p < f.size) (hover : ¬ f.AtOrAbove c p) :
    f.SameTree (f.attach p nodes more) c := by
  have hdata := sameData_attach f p nodes more
  intro m hm
  have hne : m ≠ p := fun heq => hover (heq ▸ hm)
  exact ⟨by rw [children_attach hp, if_neg hne], hdata.element_eq m, hdata.metadata_eq m⟩

namespace Within

variable (hf : f.WellFormed) (hfg : f.Within g)

include hf hfg

theorem le_of_parent? (hp : g.parent? m = some p) (hle : f.size ≤ p) : f.size ≤ m := by
  by_contra hlt
  rw [hfg.parent?_eq (Nat.lt_of_not_le hlt)] at hp
  have hpf : p < f.size := lt_size_of_mem_children (hf.mem_of_parent? hp)
  exact absurd hpf (Nat.not_lt.2 hle)

/-- What is at or below a node that was added was added. -/
theorem le_of_atOrAbove (ha : f.size ≤ a) (hm : g.AtOrAbove a m) : f.size ≤ m := by
  rcases hm with rfl | hm
  · exact ha
  · induction hm with
    | parent hp => exact hfg.le_of_parent? hf hp ha
    | above hp _ ih => exact hfg.le_of_parent? hf hp ih

end Within

/-- What a new node with an element and without metadata is beside a forest. -/
structure Added (f : Forest) (element : Element) (g : Forest) : Prop where
  enclosed : f.Enclosed g
  wellFormed : g.WellFormed
  size_eq : g.size = f.size + 1
  isRoot : g.parent? f.size = none
  leaf : g.children f.size = []
  element_eq : g.element f.size = element
  recordKey_eq : g.recordKey f.size = f.records.size
  metadata_eq : g.metadata f.size = []

theorem added (hf : f.WellFormed) (element : Element) :
    f.Added element (f.addNode element []).2 where
  enclosed := enclosed_addNode f element []
  wellFormed := hf.addNode f element [] (by simp [Value.nodesEntries])
  size_eq := size_addNode f element []
  isRoot := by simp [addNode, addRoot, addElement, addRecord, parent?, size]
  leaf := by simp [addNode, addRoot, addElement, addRecord, children, size]
  element_eq := element_addNode f element []
  recordKey_eq := recordKey_addNode f element []
  metadata_eq := metadata_addNode f element []

theorem Added.lt_size {element : Element} (h : f.Added element g) : f.size < g.size := by
  rw [h.size_eq]
  exact Nat.lt_succ_self _

theorem metadata_updateMetadata (f : Forest) (k m : NodeId) (change : Entries → Entries)
    (hk : f.recordKey k < f.records.size) :
    (f.updateMetadata k change).metadata m =
      if f.recordKey m = f.recordKey k then change (f.metadata m) else f.metadata m := by
  change ((f.records.modify (f.recordKey k) change)[f.recordKey m]?).getD [] = _
  rw [Array.getElem?_modify]
  by_cases hm : f.recordKey m = f.recordKey k
  · rw [if_pos hm.symm, if_pos hm, metadata, hm, Array.getElem?_eq_getElem hk]
    rfl
  · rw [if_neg (Ne.symm hm), if_neg hm]
    rfl

/-- Trees that were added stay as they are if the metadata of a node from before change. -/
theorem Enclosed.sameTree_updateMetadata (hf : f.WellFormed) (hfg : f.Enclosed g)
    (hg : g.WellFormed)
    (hk : k < f.size) (change : Entries → Entries) (hc : f.size ≤ c) (hlt : c < g.size) :
    g.SameTree (g.updateMetadata k change) c := by
  have hkg : k < g.size := Nat.lt_of_lt_of_le hk hfg.within.size_le
  intro m hm
  refine ⟨rfl, rfl, ?_⟩
  rw [metadata_updateMetadata g k m change (hg.recordKey_lt k hkg), if_neg fun heq => ?_]
  have hold := hf.recordKey_lt k hk
  rw [← hfg.within.recordKey_eq hk, ← heq] at hold
  have hnew := hfg.le_recordKey m (hfg.within.le_of_atOrAbove hf hc hm) (hm.lt_size hlt)
  exact absurd hold (Nat.not_lt.2 hnew)

end Forest

namespace Tabs.Stash

open Forest

variable {f g h : Forest} {c n q : NodeId} {nodes more : List NodeId} {category group : Value}
  {title : String}

/-- The children of the block quote `q` beside a forest are copies of nodes. -/
structure Filled (f g : Forest) (q : NodeId) (nodes : List NodeId) : Prop where
  enclosed : f.Enclosed g
  wellFormed : g.WellFormed
  le : f.size ≤ q
  lt_size : q < g.size
  isRoot : g.parent? q = none
  element_eq : g.element q = Element.blockQuote
  metadata_eq : g.metadata q = []
  copies : List.Forall₂ (f.Matches g) nodes (g.children q)

/-- A new block quote has no children yet. -/
theorem filled_nil (hf : f.WellFormed) :
    Filled f (f.addNode Element.blockQuote []).2 f.size [] := by
  have hadded := added hf Element.blockQuote
  refine ⟨hadded.enclosed, hadded.wellFormed, Nat.le_refl _, hadded.lt_size, hadded.isRoot,
    hadded.element_eq, hadded.metadata_eq, ?_⟩
  rw [hadded.leaf]
  exact .nil

theorem not_atOrAbove_of_isRoot (hroot : g.parent? q = none) (hne : c ≠ q) : ¬ g.AtOrAbove c q := by
  rintro (rfl | habove)
  · exact hne rfl
  · obtain ⟨p, hp, -⟩ := ancestor_iff_parent.1 habove
    rw [hroot] at hp
    cases hp

/-- One more node is copied, and the copy becomes the last child. -/
theorem Filled.snoc (hf : f.WellFormed) (h : Filled f g q nodes) (hn : n < f.size)
    (hblock : (f.kind n).isBlock = true) :
    ∃ c k l, outcome (copyTree n) g = (.ok c, k) ∧
      outcome (appendChild q (.node c)) k = (.ok (), l) ∧ Filled f l q (nodes ++ [n]) := by
  have hfg := h.enclosed.within
  obtain ⟨c, k, hcopy, hof⟩ := exists_copyOf h.wellFormed (Nat.lt_of_lt_of_le hn hfg.size_le)
  have hgk := hof.enclosed.within
  have hqk : q < k.size := Nat.lt_of_lt_of_le h.lt_size hgk.size_le
  have hcq : c ≠ q := Nat.ne_of_gt (Nat.lt_of_lt_of_le h.lt_size hof.le)
  have hroot : k.parent? q = none := by rw [hgk.parent?_eq h.lt_size, h.isRoot]
  have helement : k.element q = Element.blockQuote := by
    rw [hgk.element_eq h.wellFormed h.lt_size, h.element_eq]
  have hkind : (k.kind c).isBlock = true := by
    rw [Forest.kind, (hof.matched 1).1]
    change (g.kind n).isBlock = true
    rw [hfg.kind_eq hf hn, hblock]
  have hfit : k.Fits q c := by
    refine ⟨?_, not_atOrAbove_of_isRoot hroot hcq⟩
    rw [Forest.kind, helement]
    exact hkind
  have happend := outcome_appendChild_root hof.wellFormed hof.isRoot hfit
  have hdata := sameData_attach k q [c] (k.children q ++ [c])
  have hattach := hfit.attachable hqk hof.lt_size
  rw [detach_of_isRoot hof.isRoot] at hattach
  have hle : f.size ≤ c := Nat.le_trans hfg.size_le hof.le
  refine ⟨c, k, _, hcopy, happend, (h.enclosed.trans hof.enclosed).attach h.le ?_ _, ?_,
    h.le, ?_, ?_,
    ?_, ?_, ?_⟩
  · exact fun m hm => List.mem_singleton.1 hm ▸ hle
  · exact hof.wellFormed.attach hattach List.perm_append_comm
  · rwa [hdata.size_eq]
  · rw [parent?_attach hattach.lt_size, if_neg fun hm => hcq (List.mem_singleton.1 hm).symm, hroot]
  · rw [hdata.element_eq, helement]
  · rw [hdata.metadata_eq, hgk.metadata_eq h.wellFormed h.lt_size, h.metadata_eq]
  · rw [children_attach hqk, if_pos rfl, hgk.children_eq h.lt_size]
    -- The trees of the copies do not reach up to the block quote, so they stay as they are.
    have hlater {m d : NodeId} (hmatch : f.Matches k m d) (hd : d ≠ q) :
        f.Matches (k.attach q [c] (k.children q ++ [c])) m d :=
      hmatch.sameTree hof.wellFormed (sameTree_attach hqk (not_atOrAbove_of_isRoot hroot hd))
    rw [hgk.children_eq h.lt_size] at hlater
    refine List.rel_append (forall₂_imp_of_mem h.copies fun m _ d hd hmatch => ?_) (.cons ?_ .nil)
    · refine hlater (hmatch.sameTree h.wellFormed (hgk.sameTree h.wellFormed ?_)) ?_
      · exact h.wellFormed.lt_size_of_mem hd
      · rintro rfl
        exact h.wellFormed.not_ancestor_self d (h.wellFormed.ancestor_of_mem hd)
    · exact hlater (hof.matched.of_sameTree hf (hfg.sameTree hf hn)) hcq

theorem Filled.outcome_copyBelow (hf : f.WellFormed) (h : Filled f g q nodes)
    (hmore : ∀ n ∈ more, n < f.size ∧ (f.kind n).isBlock = true) :
    ∃ k, outcome (copyBelow q more) g = (.ok (), k) ∧ Filled f k q (nodes ++ more) := by
  induction more generalizing g nodes with
  | nil => exact ⟨g, rfl, by rwa [List.append_nil]⟩
  | cons n more ih =>
      obtain ⟨hn, hblock⟩ := hmore n List.mem_cons_self
      obtain ⟨c, k, l, hcopy, happend, hfilled⟩ := h.snoc hf hn hblock
      obtain ⟨j, hrest, hall⟩ := ih hfilled fun m hm => hmore m (List.mem_cons_of_mem n hm)
      refine ⟨j, ?_, by rwa [List.append_assoc] at hall⟩
      simp only [copyBelow, outcome_bind, hcopy, happend, hrest]

/-- A tab: the admonition that it comes from, the block of markup and the block quote that are made
for it, its group, and whether it is checked. -/
structure Tab where
  admonition : NodeId
  block : NodeId
  content : NodeId
  group : Value
  checked : Bool

def Tab.entries (t : Tab) (title : String) : Entries :=
  [("tab_title", .str title), ("tab_id", .str (identifier title)), ("tab_group", t.group),
    ("content", .node t.content)]

/-- The block of a tab and its block quote stand in `g`, made of the admonition in `f`. -/
structure Tab.Made (f g : Forest) (t : Tab) : Prop where
  le_block : f.size ≤ t.block
  block_lt : t.block < g.size
  leaf : g.children t.block = []
  titled : ∃ title nodeText, (f.element t.admonition).get? "title" = some (.str title) ∧
    g.element t.block = Element.html
      (markup title (identifier title) (t.group.display nodeText) t.checked) ∧
    g.metadata t.block = t.entries title
  le_content : f.size ≤ t.content
  content_lt : t.content < g.size
  isRoot : g.parent? t.content = none
  element_eq : g.element t.content = Element.blockQuote
  metadata_eq : g.metadata t.content = []
  copies : List.Forall₂ (f.Matches g) (f.children t.admonition) (g.children t.content)

/-- A new block and a block quote filled with copies make a tab when the metadata of the block are
set. -/
theorem Filled.made {nodeText : NodeId → String} {checked : Bool} (hf : f.WellFormed)
    (hadded : f.Added (Element.html
      (markup title (identifier title) (group.display nodeText) checked)) g)
    (htitle : (f.element n).get? "title" = some (.str title))
    (h : Filled g k g.size (f.children n)) :
    Tab.Made f (k.updateMetadata f.size fun _ =>
      (⟨n, f.size, g.size, group, checked⟩ : Tab).entries title)
      ⟨n, f.size, g.size, group, checked⟩ := by
  have hfg := hadded.enclosed.within
  have hgk := h.enclosed.within
  have hnew := hadded.lt_size
  have hnewk : f.size < k.size := Nat.lt_of_lt_of_le hnew hgk.size_le
  have hsame {c : NodeId} (hc : g.size ≤ c) (hlt : c < k.size) :
      k.SameTree (k.updateMetadata f.size _) c :=
    h.enclosed.sameTree_updateMetadata hadded.wellFormed h.wellFormed hnew
      (fun _ => (⟨n, f.size, g.size, group, checked⟩ : Tab).entries title) hc hlt
  refine ⟨Nat.le_refl _, hnewk, (hgk.children_eq hnew).trans hadded.leaf,
    ⟨title, nodeText, htitle, ?_, ?_⟩, Nat.le_of_lt hnew, h.lt_size, h.isRoot, h.element_eq, ?_, ?_⟩
  · exact (hgk.element_eq hadded.wellFormed hnew).trans hadded.element_eq
  · rw [metadata_updateMetadata k f.size f.size _ (h.wellFormed.recordKey_lt _ hnewk), if_pos rfl]
  · rw [(hsame (Nat.le_refl _) h.lt_size).metadata_eq, h.metadata_eq]
  · refine forall₂_imp_of_mem h.copies fun m hm c hc hmatch => ?_
    have hlt := h.wellFormed.lt_size_of_mem hc
    have hle := hgk.le_of_parent? hadded.wellFormed (h.wellFormed.parent?_of_mem hc) h.le
    exact (hmatch.of_sameTree hf (hfg.sameTree hf (hf.lt_size_of_mem hm))).sameTree
      h.wellFormed (hsame hle hlt)

/-- For an admonition with a text as its title a block can always be made. -/
theorem outcome_makeBlock (hf : f.WellFormed) (hkind : f.kind n = .admonition)
    (htitle : (f.element n).get? "title" = some (.str title))
    (hgroup : ∀ c ∈ group.nodes, c < f.size) (checked : Bool) :
    ∃ g, outcome (makeBlock n group checked) f = (.ok f.size, g) ∧ f.Within g ∧ g.WellFormed ∧
      g.parent? f.size = none ∧ Tab.Made f g ⟨n, f.size, f.size + 1, group, checked⟩ := by
  have hroot (element : Element) (f : Forest) : outcome (newRoot element []) f =
      (.ok f.size, (f.addNode element []).2) := rfl
  have htext : needText "lower" (.str title) = .ok title := rfl
  have hadded := added hf (Element.html
    (markup title (identifier title) (group.display f.shortText) checked))
  simp only [makeBlock, outcome_bind, outcome_get, outcome_liftM, htext, hroot, outcome_change,
    outcome_pure, htitle, Option.getD_some]
  -- From here on only these facts about the forest with the new block count.
  generalize (f.addNode _ []).2 = g at hadded ⊢
  have hfg := hadded.enclosed.within
  have hblocks : ∀ c ∈ f.children n, c < g.size ∧ (g.kind c).isBlock = true := by
    intro c hc
    have hlt := hf.lt_size_of_mem hc
    have hcan := hf.canContain_of_mem n c hc
    rw [hkind] at hcan
    refine ⟨Nat.lt_of_lt_of_le hlt hfg.size_le, ?_⟩
    rw [hfg.kind_eq hf hlt]
    exact hcan
  obtain ⟨k, hcopies, hfilled⟩ :=
    (filled_nil hadded.wellFormed).outcome_copyBelow hadded.wellFormed hblocks
  rw [hcopies]
  have hgk := hfilled.enclosed.within
  have hkey : k.recordKey f.size = f.records.size := by
    rw [hgk.recordKey_eq hadded.lt_size, hadded.recordKey_eq]
  refine ⟨_, rfl, (hfg.trans hgk).updateMetadata (Nat.le_of_eq hkey.symm) _, ?_, ?_, ?_⟩
  · refine (carriesOn_updateMetadata hfilled.wellFormed f.size _ fun c hc => ?_).wellFormed
    simp only [Value.nodesEntries, Value.nodes, List.append_nil, List.nil_append, List.mem_append,
      List.mem_singleton] at hc
    rcases hc with hc | rfl
    · exact Nat.lt_trans (hgroup c hc) (Nat.lt_of_lt_of_le hadded.lt_size hgk.size_le)
    · exact hfilled.lt_size
  · exact (hgk.parent?_eq hadded.lt_size).trans hadded.isRoot
  · rw [← hadded.size_eq]
    exact hfilled.made hf hadded htitle

end Tabs.Stash

end MarkdownTree
