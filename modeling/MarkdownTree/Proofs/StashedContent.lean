import MarkdownTree.Proofs.EqualTrees
import MarkdownTree.Proofs.StashRuns

/-!
What becomes of the content of tabs. An admonition that gives way to a block keeps its tree and
stands alone; its block refers to a block quote with copies of its children, which are equal to them
and stand in no other tree.
-/

namespace MarkdownTree.Tabs.Stash

open Forest

variable {f g : Forest} {c m n root top : NodeId} {category : Value} {grouped : Bool} {t u : Tab}
  {tabs : List Tab}

/-- The tree of an admonition that gave way is as it was, and stands alone unless it is the tree
that was asked for. -/
structure Detached (f g : Forest) (root n : NodeId) : Prop where
  sameTree : f.SameTree g n
  parent?_below (m : NodeId) (hm : f.Ancestor n m) : g.parent? m = f.parent? m
  isRoot (hroot : n ≠ root) : g.parent? n = none
  parent?_root (hroot : n = root) : g.parent? n = f.parent? n

/-- The block of a tab leads to a block quote of its own, with copies of the children of the
admonition. -/
structure Preserved (f g : Forest) (t : Tab) : Prop where
  stashed : stashedContent? g t.block = some t.content
  isRoot : g.parent? t.content = none
  element_eq : g.element t.content = Element.blockQuote
  copies : List.Forall₂ (fun n c => g.agree true n c = true) (f.children t.admonition)
    (g.children t.content)
  fresh (m : NodeId) (hm : m ∈ g.preorder t.content) : f.size ≤ m
  unshared (m r : NodeId) (hm : m ∈ g.preorder t.content) (hr : g.parent? r = none)
    (hmr : m ∈ g.preorder r) : r = t.content

theorem standIn_of_mem (hnodup : (admonitions tabs).Nodup) (ht : t ∈ tabs) :
    standIn tabs t.admonition = t.block := by
  cases hfind : tabs.find? (·.admonition == t.admonition) with
  | none => simpa using List.find?_eq_none.1 hfind t ht
  | some u =>
      have heq : u.admonition = t.admonition := by simpa using List.find?_some hfind
      rw [standIn, hfind, List.inj_on_of_nodup_map hnodup (List.mem_of_find?_eq_some hfind) ht heq]

/-- The block of a tab leads to its block quote. -/
theorem Tab.Made.stashedContent?_eq (ht : t.Made f g) :
    stashedContent? g t.block = some t.content := by
  obtain ⟨title, nodeText, -, helement, hmetadata⟩ := ht.titled
  have hkind : g.kind t.block = .htmlBlock := by
    rw [Forest.kind, helement]
    rfl
  have hcontent : (g.metadata t.block).get? "content" = some (.node t.content) := by
    rw [hmetadata]
    simp [Tab.entries, Entries.get?_cons]
  have hblock : (g.kind t.block).isA .htmlBlock = true := by rw [hkind]; rfl
  rw [stashedContent?, if_pos hblock, hcontent]

namespace InPlace

variable (hf : f.WellFormed) (h : InPlace f g root tabs top)

include hf h

/-- Over an old node there are old nodes only. -/
theorem lt_of_atOrAbove (hab : g.AtOrAbove c n) (hn : n < f.size) : c < f.size := by
  refine hab.lt_of_closed (fun m q hq hm => ?_) hn
  rw [h.parent?_eq m hm] at hq
  split at hq
  · cases hq
  · exact lt_size_of_mem_children (hf.mem_of_parent? hq)

theorem detached (hroot : root < f.size) (htabs : admonitions tabs = outermost f category root)
    (hn : n ∈ outermost f category root) : Detached f g root n := by
  obtain ⟨hover, hself, -⟩ := (mem_outermost_iff hf).1 hn
  have hlt := hover.lt_size hroot
  -- Below an outermost admonition there is no other one.
  have hbelow {m : NodeId} (hm : f.Ancestor n m) : m ∉ admonitions tabs := by
    intro hmem
    rw [htabs, mem_outermost_iff hf] at hmem
    have hno := hmem.2.2 n hover hm
    rw [hself] at hno
    cases hno
  refine ⟨fun m hm => ?_, fun m hm => ?_, fun hne => ?_, fun heq => ?_⟩
  · have hmlt := hm.lt_size hlt
    refine ⟨?_, h.element_eq m hmlt, h.metadata_eq m hmlt⟩
    rw [h.children_eq m hmlt (hover.trans hm)]
    exact map_standIn fun c hc => hbelow (hm.trans_ancestor (hf.ancestor_of_mem hc))
  · rw [h.parent?_eq m hm.lt_size, if_neg fun hmem => hbelow hm hmem.1]
  · rw [h.parent?_eq n hlt, if_pos ⟨htabs ▸ hn, hne⟩]
  · rw [h.parent?_eq n hlt, if_neg fun hmem => hmem.2 heq]

theorem preserved (hdetached : Detached f g root t.admonition) (ht : t ∈ tabs)
    (hfields : ∀ m, f.AtOrAbove t.admonition m → Value.isKeyedEntries (f.element m).fields = true)
    (hplain : ∀ m, f.AtOrAbove t.admonition m → (f.metadata m).Plain) : Preserved f g t := by
  have hmade := h.made t ht
  have hg := h.wellFormed
  refine ⟨hmade.stashedContent?_eq, hmade.isRoot, hmade.element_eq, ?_, fun m hm => ?_,
    fun m r hm hr hmr => ?_⟩
  · refine forall₂_imp_of_mem hmade.copies fun m hm c _ hmatch => ?_
    have hbelow {a : NodeId} (ha : f.AtOrAbove m a) : f.AtOrAbove t.admonition a :=
      ((hf.ancestor_of_mem hm).trans_atOrAbove ha).atOrAbove
    exact (hmatch (g.size + 1)).agreeWithin hf (hdetached.sameTree.child hf hm)
      (fun a ha => hfields a (hbelow ha)) fun a ha => hplain a (hbelow ha)
  · by_contra hlt
    have hold := h.lt_of_atOrAbove hf (hg.mem_preorder_iff.1 hm) (Nat.not_le.1 hlt)
    exact absurd hmade.le_content (Nat.not_le.2 hold)
  · by_contra hne
    rcases (hg.mem_preorder_iff.1 hm).linear (hg.mem_preorder_iff.1 hmr) with hover | hover
    · exact not_atOrAbove_of_isRoot hr (Ne.symm hne) hover
    · exact not_atOrAbove_of_isRoot hmade.isRoot hne hover

end InPlace

theorem plain_sideBySide : ∀ n ∈ sideBySide.preorder 6, (sideBySide.metadata n).Plain := by
  have hnodes : sideBySide.preorder 6 = [6, 2, 1, 0, 3, 4, 5] := by decide
  have hnone : Entries.Plain [] := ⟨rfl, rfl, by simp⟩
  have hsource : Entries.Plain [("source", .str "intro")] := ⟨rfl, rfl, by simp⟩
  rw [hnodes]
  intro n hn
  simp only [List.mem_cons, List.not_mem_nil, or_false] at hn
  rcases hn with rfl | rfl | rfl | rfl | rfl | rfl | rfl
  case inr.inr.inr.inl => exact hsource
  all_goals exact hnone

/-- Turning tabs into blocks takes nothing away. Every outermost tabs admonition is left as a tree
of its own, its block leads to copies of its children that are equal to them, and every other node
stays as it is, with blocks in the place of admonitions. -/
theorem stash_preserves_contents (category : Value) (grouped : Bool) (root : NodeId) (f : Forest)
    (hf : f.WellFormed) (hroot : root < f.size)
    (htitles : ∀ n ∈ outermost f category root, ∃ s, (f.element n).get? "title" = some (.str s))
    (hfields : ∀ n ∈ f.preorder root, Value.isKeyedEntries (f.element n).fields = true)
    (hplain : ∀ n ∈ f.preorder root, (f.metadata n).Plain) :
    ∃ tabs top messages g, stash category grouped root f = (.ok top, messages, g) ∧
      admonitions tabs = outermost f category root ∧ InPlace f g root tabs top ∧
      ∀ t ∈ tabs, standIn tabs t.admonition = t.block ∧ Detached f g root t.admonition ∧
        Preserved f g t := by
  have htitled : Titled f category [root] := by
    rwa [Titled, List.flatMap_singleton]
  obtain ⟨tabs, top, g, hstash, hadmonitions, -, hplace⟩ := stash_inPlace hf hroot grouped htitled
  refine ⟨tabs, top, _, g, hstash, hadmonitions, hplace, fun t ht => ?_⟩
  have hout : t.admonition ∈ outermost f category root := by
    rw [← hadmonitions]
    exact List.mem_map_of_mem ht
  have hdetached := hplace.detached hf hroot hadmonitions hout
  have hover := ((mem_outermost_iff hf).1 hout).1
  have hnodup : (admonitions tabs).Nodup := by
    rw [hadmonitions]
    exact nodup_outermost hf category root
  exact ⟨standIn_of_mem hnodup ht, hdetached, hplace.preserved hf hdetached ht
    (fun m hm => hfields m (hf.mem_preorder_iff.2 (hover.trans hm)))
    fun m hm => hplain m (hf.mem_preorder_iff.2 (hover.trans hm))⟩

/-- The tab around another one keeps it, and its block leads to a copy of it. -/
theorem stash_preserves_contents_sideBySide : ∃ tabs top messages g,
    stash (.str "tabs") true 6 sideBySide = (.ok top, messages, g) ∧
      admonitions tabs = [2, 3, 5] ∧ InPlace sideBySide g 6 tabs top ∧
      ∀ t ∈ tabs, standIn tabs t.admonition = t.block ∧ Detached sideBySide g 6 t.admonition ∧
        Preserved sideBySide g t := by
  have h := stash_preserves_contents (.str "tabs") true 6 sideBySide
    wellFormed_sideBySide (by decide)
    exists_title_sideBySide (by decide) plain_sideBySide
  rwa [outermost_sideBySide] at h

end MarkdownTree.Tabs.Stash
