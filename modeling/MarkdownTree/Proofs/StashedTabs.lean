import MarkdownTree.Proofs.Replacing
import MarkdownTree.Proofs.TabBlocks

/-!
Forests in which some tabs admonitions of a forest have given way to their blocks. Each such
admonition is a root with its tree below it as before, its block stands in its place, and nothing
else has changed. The admonitions that a pass comes upon are the outermost ones of the tree, and
replacing one more of them by a new block leads from one such forest to another.
-/

namespace MarkdownTree

namespace Forest

variable {f : Forest} {b c n p : NodeId} {before after : List NodeId}

/-- Where parents come before a bound if their children do, all ancestors do. -/
theorem AtOrAbove.lt_of_closed {bound : Nat} (hab : f.AtOrAbove c n)
    (hup : ∀ m q, f.parent? m = some q → m < bound → q < bound) (hn : n < bound) : c < bound := by
  rcases hab with rfl | hab
  · exact hn
  · induction hab with
    | parent hq => exact hup _ _ hq hn
    | above hq _ ih => exact ih (hup _ _ hq hn)

section
variable (hf : f.WellFormed) (hroot : f.parent? b = none)

include hf hroot

/-- A root is not listed by any node. -/
theorem without_singleton_of_isRoot (q : NodeId) : without (f.children q) [b] = f.children q := by
  refine List.filter_eq_self.2 fun m hm => ?_
  have hne : m ≠ b := by
    rintro rfl
    rw [hf.parent?_of_mem hm] at hroot
    cases hroot
  simpa using hne

theorem without_before_of_isRoot (h : f.children p = before ++ c :: after) :
    without before [b] = before ∧ without after [b] = after := by
  have hall := without_singleton_of_isRoot hf hroot p
  rw [h, without, List.filter_eq_self] at hall
  exact ⟨List.filter_eq_self.2 fun m hm => hall m (List.mem_append_left _ hm),
    List.filter_eq_self.2 fun m hm => hall m (List.mem_append_right _ (List.mem_cons_of_mem c hm))⟩

theorem children_replaced_root (h : f.children p = before ++ c :: after) (q : NodeId) :
    (f.replaced p c before after [b]).children q =
      if q = p then before ++ b :: after else f.children q := by
  obtain ⟨hbefore, hafter⟩ := without_before_of_isRoot hf hroot h
  rw [children_replaced hf h, hbefore, hafter, without_singleton_of_isRoot hf hroot,
    List.append_assoc, List.singleton_append]

/-- A tree is the same after a replacement at a node that is not in it. -/
theorem sameTree_replaced_root (h : f.children p = before ++ c :: after)
    (hover : ¬ f.AtOrAbove n p) : f.SameTree (f.replaced p c before after [b]) n := by
  have hdata := sameData_replaced f p c before after [b]
  intro m hm
  have hne : m ≠ p := fun heq => hover (heq ▸ hm)
  refine ⟨?_, hdata.element_eq m, hdata.metadata_eq m⟩
  rw [children_replaced_root hf hroot h, if_neg hne]

end

end Forest

namespace Tabs

open Forest

variable {f g h : Forest} {b c m n p : NodeId} {category : Value} {front back : List NodeId}

/-- A tabs admonition is outermost if no other one of the tree has it below itself. -/
def IsOutermost (f : Forest) (category : Value) (root n : NodeId) : Prop :=
  isTabs f category n = true ∧
    ∀ a ∈ f.preorder root, isTabs f category a = true → n ∈ f.preorder a → a = n

instance (f : Forest) (category : Value) (root n : NodeId) :
    Decidable (IsOutermost f category root n) :=
  inferInstanceAs (Decidable (_ ∧ _))

/-- The outermost tabs admonitions of a tree in document order. -/
def outermost (f : Forest) (category : Value) (root : NodeId) : List NodeId :=
  (f.preorder root).filter (IsOutermost f category root ·)

section
variable (hf : f.WellFormed)

include hf

theorem isOutermost_iff : IsOutermost f category p n ↔ isTabs f category n = true ∧
    ∀ a, f.AtOrAbove p a → f.Ancestor a n → isTabs f category a = false := by
  refine and_congr_right fun _ => ⟨fun hall a hpa han => ?_, fun hall a hpa htabs han => ?_⟩
  · by_contra htabs
    have heq := hall a (hf.mem_preorder_iff.2 hpa) (by simpa using htabs)
      (hf.mem_preorder_iff.2 han.atOrAbove)
    exact hf.not_ancestor_self n (heq ▸ han)
  · rcases hf.mem_preorder_iff.1 han with heq | han
    · exact heq
    · rw [hall a (hf.mem_preorder_iff.1 hpa) han] at htabs
      cases htabs

theorem mem_outermost_iff : n ∈ outermost f category p ↔
    f.AtOrAbove p n ∧ isTabs f category n = true ∧
      ∀ a, f.AtOrAbove p a → f.Ancestor a n → isTabs f category a = false := by
  rw [outermost, List.mem_filter, decide_eq_true_iff, hf.mem_preorder_iff, isOutermost_iff hf]

theorem nodup_outermost (category : Value) (root : NodeId) : (outermost f category root).Nodup :=
  (hf.nodup_preorder root).filter _

theorem outermost_of_isTabs (hn : isTabs f category n = true) : outermost f category n = [n] := by
  have hself : IsOutermost f category n n :=
    ⟨hn, fun a ha _ han => by
      have hover := hf.mem_preorder_iff.1 han
      rcases hf.mem_preorder_iff.1 ha with heq | hbelow
      · exact heq.symm
      · exact absurd (hover.trans_ancestor hbelow) (hf.not_ancestor_self a)⟩
  rw [outermost, hf.preorder_eq, List.filter_cons_of_pos (by simpa using hself)]
  congr 1
  refine List.filter_eq_nil_iff.2 fun m hm hout => ?_
  obtain ⟨c, hc, hcm⟩ := List.mem_flatMap.1 hm
  have hnm := (hf.ancestor_of_mem hc).trans_atOrAbove (hf.mem_preorder_iff.1 hcm)
  rw [((isOutermost_iff hf).1 (of_decide_eq_true hout)).2 n (.refl f n) hnm] at hn
  cases hn

/-- Below a node that is none itself, the outermost admonitions are those of the children. -/
theorem outermost_of_not (hn : isTabs f category n = false) :
    outermost f category n = (f.children n).flatMap (outermost f category) := by
  have hself : ¬ IsOutermost f category n n := fun hout => by simp [hout.1] at hn
  rw [outermost, hf.preorder_eq, List.filter_cons_of_neg (by simpa using hself),
    List.filter_flatMap]
  refine List.flatMap_congr fun c hc => List.filter_congr fun m hm => ?_
  have hcm := hf.mem_preorder_iff.1 hm
  rw [decide_eq_decide, isOutermost_iff hf, isOutermost_iff hf]
  refine and_congr_right fun _ => ⟨fun hall a hca => ?_, fun hall a hna ham => ?_⟩
  · exact hall a ((hf.ancestor_of_mem hc).trans_atOrAbove hca).atOrAbove
  · rcases hna with rfl | hna
    · exact hn
    · -- The node is below one child only, so what is between is below the same one.
      obtain ⟨d, hd, hda⟩ := hf.exists_mem_of_ancestor hna
      obtain rfl := hf.eq_of_siblings hc hd hcm (hda.trans ham.atOrAbove)
      exact hall a hda ham

end

namespace Stash

variable {t u : Tab} {tabs : List Tab}

def admonitions (tabs : List Tab) : List NodeId :=
  tabs.map (·.admonition)

/-- What stands where a node stood: for the admonition of a tab its block. -/
def standIn (tabs : List Tab) (n : NodeId) : NodeId :=
  match tabs.find? (·.admonition == n) with
  | some t => t.block
  | none => n

theorem find?_of_not_mem (hn : n ∉ admonitions tabs) : tabs.find? (·.admonition == n) = none := by
  refine List.find?_eq_none.2 fun t ht heq => hn ?_
  rw [← beq_iff_eq.1 heq]
  exact List.mem_map_of_mem ht

theorem standIn_of_not_mem (hn : n ∉ admonitions tabs) : standIn tabs n = n := by
  rw [standIn, find?_of_not_mem hn]

theorem standIn_snoc_self (hn : t.admonition ∉ admonitions tabs) :
    standIn (tabs ++ [t]) t.admonition = t.block := by
  rw [standIn, List.find?_append, find?_of_not_mem hn, List.find?_singleton, if_pos (by simp)]
  rfl

theorem standIn_snoc_of_ne (hn : n ≠ t.admonition) : standIn (tabs ++ [t]) n = standIn tabs n := by
  rw [standIn, List.find?_append, List.find?_singleton, if_neg (by simpa using Ne.symm hn),
    Option.or_none]
  rfl

theorem map_standIn {nodes : List NodeId} (h : ∀ n ∈ nodes, n ∉ admonitions tabs) :
    nodes.map (standIn tabs) = nodes := by
  rw [List.map_congr_left fun n hn => standIn_of_not_mem (h n hn), List.map_id']

theorem map_standIn_snoc {nodes : List NodeId} (h : t.admonition ∉ nodes) :
    nodes.map (standIn (tabs ++ [t])) = nodes.map (standIn tabs) :=
  List.map_congr_left fun _ hn => standIn_snoc_of_ne fun heq => h (heq ▸ hn)

/-- `g` is `f` with blocks in the place of the admonitions of tabs, made in this order. -/
structure Stashed (f g : Forest) (tabs : List Tab) : Prop where
  wellFormed : g.WellFormed
  size_le : f.size ≤ g.size
  element_eq (m : NodeId) (hm : m < f.size) : g.element m = f.element m
  metadata_eq (m : NodeId) (hm : m < f.size) : g.metadata m = f.metadata m
  children_eq (m : NodeId) (hm : m < f.size) :
    g.children m = (f.children m).map (standIn tabs)
  parent?_eq (m : NodeId) (hm : m < f.size) :
    g.parent? m = if m ∈ admonitions tabs then none else f.parent? m
  made : ∀ t ∈ tabs, t.Made f g
  increasing : tabs.Pairwise fun t u => t.block < u.block ∧ t.content < u.content

/-- A tab is still as it was made when its trees are. -/
theorem Tab.Made.sameTree (hg : g.WellFormed) (ht : t.Made f g) (hsize : g.size ≤ h.size)
    (hblock : g.SameTree h t.block) (hcontent : g.SameTree h t.content)
    (hroot : h.parent? t.content = none) : t.Made f h := by
  obtain ⟨title, nodeText, htitle, helement, hmetadata⟩ := ht.titled
  refine ⟨ht.le_block, Nat.lt_of_lt_of_le ht.block_lt hsize, by rw [hblock.children_eq, ht.leaf],
    ⟨title, nodeText, htitle, ?_, ?_⟩, ht.le_content, Nat.lt_of_lt_of_le ht.content_lt hsize, hroot,
    ?_, ?_, ?_⟩
  · rw [hblock.element_eq, helement]
  · rw [hblock.metadata_eq, hmetadata]
  · rw [hcontent.element_eq, ht.element_eq]
  · rw [hcontent.metadata_eq, ht.metadata_eq]
  · rw [hcontent.children_eq]
    exact forall₂_imp_of_mem ht.copies fun _ _ c hc hmatch =>
      hmatch.sameTree hg (hcontent.child hg hc)

/-- A tab that was made of an admonition whose tree is as before is made of the one from before. -/
theorem Tab.Made.of_sameTree (hf : f.WellFormed) (hsize : f.size ≤ g.size)
    (hsame : f.SameTree g t.admonition) (ht : t.Made g h) : t.Made f h := by
  obtain ⟨title, nodeText, htitle, helement, hmetadata⟩ := ht.titled
  rw [hsame.element_eq] at htitle
  have hcopies := ht.copies
  rw [hsame.children_eq] at hcopies
  exact { ht with
    le_block := Nat.le_trans hsize ht.le_block
    titled := ⟨title, nodeText, htitle, helement, hmetadata⟩
    le_content := Nat.le_trans hsize ht.le_content
    copies := forall₂_imp_of_mem hcopies fun _ hm _ _ hmatch =>
      hmatch.of_sameTree hf (hsame.child hf hm) }

namespace Stashed

theorem refl (hf : f.WellFormed) : Stashed f f [] where
  wellFormed := hf
  size_le := Nat.le_refl _
  element_eq _ _ := rfl
  metadata_eq _ _ := rfl
  children_eq _ _ := (map_standIn fun _ _ => List.not_mem_nil).symm
  parent?_eq _ _ := (if_neg List.not_mem_nil).symm
  made := nofun
  increasing := .nil

/-- Blocks may be made beside such a forest. -/
theorem within (hfg : Stashed f g tabs) (hgh : g.Within h) (hh : h.WellFormed) :
    Stashed f h tabs where
  wellFormed := hh
  size_le := Nat.le_trans hfg.size_le hgh.size_le
  element_eq m hm := by
    rw [hgh.element_eq hfg.wellFormed (Nat.lt_of_lt_of_le hm hfg.size_le), hfg.element_eq m hm]
  metadata_eq m hm := by
    rw [hgh.metadata_eq hfg.wellFormed (Nat.lt_of_lt_of_le hm hfg.size_le), hfg.metadata_eq m hm]
  children_eq m hm := by
    rw [hgh.children_eq (Nat.lt_of_lt_of_le hm hfg.size_le), hfg.children_eq m hm]
  parent?_eq m hm := by
    rw [hgh.parent?_eq (Nat.lt_of_lt_of_le hm hfg.size_le), hfg.parent?_eq m hm]
  made t ht := by
    have hmade := hfg.made t ht
    refine hmade.sameTree hfg.wellFormed hgh.size_le (hgh.sameTree hfg.wellFormed hmade.block_lt)
      (hgh.sameTree hfg.wellFormed hmade.content_lt) ?_
    rw [hgh.parent?_eq hmade.content_lt, hmade.isRoot]
  increasing := hfg.increasing

/-- The children of a node, with one of them that is still there. -/
theorem children_split (hfg : Stashed f g tabs) (hlist : f.children p = front ++ n :: back)
    (hn : n ∉ admonitions tabs) :
    g.children p = front.map (standIn tabs) ++ n :: back.map (standIn tabs) := by
  have hp : p < f.size := lt_size_of_mem_children (c := n) (by simp [hlist])
  rw [hfg.children_eq p hp, hlist, List.map_append, List.map_cons, standIn_of_not_mem hn]

section
variable (hf : f.WellFormed) (hfg : Stashed f g tabs)

include hf hfg

/-- A tree without admonitions that gave way below its root is as before. -/
theorem sameTree (hn : n < f.size) (hbelow : ∀ m, f.Ancestor n m → m ∉ admonitions tabs) :
    f.SameTree g n := by
  intro m hm
  have hlt := hm.lt_size hn
  refine ⟨?_, hfg.element_eq m hlt, hfg.metadata_eq m hlt⟩
  rw [hfg.children_eq m hlt]
  exact map_standIn fun c hc => hbelow c (hm.trans_ancestor (hf.ancestor_of_mem hc))

/-- Over an old node there are old nodes only. -/
theorem lt_of_atOrAbove (hab : g.AtOrAbove c n) (hn : n < f.size) : c < f.size := by
  refine hab.lt_of_closed (fun m q hq hm => ?_) hn
  rw [hfg.parent?_eq m hm] at hq
  split at hq
  · cases hq
  · exact lt_size_of_mem_children (hf.mem_of_parent? hq)

/-- One more admonition gives way to its block, if the block was made after all others. -/
theorem replaced (hlist : f.children p = front ++ t.admonition :: back)
    (hn : t.admonition ∉ admonitions tabs) (ht : t.Made f g) (hroot : g.parent? t.block = none)
    (hfit : g.AllFit p [t.block])
    (hlater : ∀ u ∈ tabs, u.block < t.block ∧ u.content < t.block) (hown : t.block < t.content) :
    Stashed f (g.replaced p t.admonition (front.map (standIn tabs)) (back.map (standIn tabs))
      [t.block]) (tabs ++ [t]) := by
  have hsplit := hfg.children_split hlist hn
  have hp : p < f.size := lt_size_of_mem_children (c := t.admonition) (by simp [hlist])
  have hlt : ∀ k ∈ [t.block], k < g.size := fun k hk => List.mem_singleton.1 hk ▸ ht.block_lt
  have hdata := sameData_replaced g p t.admonition (front.map (standIn tabs))
    (back.map (standIn tabs)) [t.block]
  have hchildren := children_replaced_root hfg.wellFormed hroot hsplit
  have hparent (m : NodeId) : (g.replaced p t.admonition (front.map (standIn tabs))
      (back.map (standIn tabs)) [t.block]).parent? m = _ := parent?_replaced hlt p t.admonition m
  have hwf := hfg.wellFormed.replaced hsplit hfit hlt
  have hsame {k : NodeId} (hk : f.size ≤ k) := sameTree_replaced_root hfg.wellFormed hroot hsplit
    fun hover => absurd (hfg.lt_of_atOrAbove hf hover hp) (Nat.not_lt.2 hk)
  -- From here on only these facts about the new forest count.
  generalize g.replaced p t.admonition _ _ _ = h at hdata hchildren hparent hwf hsame ⊢
  have hold : t.admonition < f.size := hf.lt_size_of_mem (p := p) (by simp [hlist])
  obtain ⟨hfront, hback⟩ := hf.not_mem_of_split hlist
  have hkept {u : Tab} (hu : u.Made f g) (hne : u.content ≠ t.block) : u.Made f h := by
    refine hu.sameTree hfg.wellFormed (Nat.le_of_eq hdata.size_eq.symm) (hsame hu.le_block)
      (hsame hu.le_content) ?_
    have hnew : u.content ≠ t.admonition := Nat.ne_of_gt (Nat.lt_of_lt_of_le hold hu.le_content)
    rw [hparent, if_neg (by simpa using hne), if_neg hnew, hu.isRoot]
  refine ⟨hwf, by rw [hdata.size_eq]; exact hfg.size_le, fun m hm => ?_, fun m hm => ?_,
    fun m hm => ?_, fun m hm => ?_, fun u hu => ?_, ?_⟩
  · rw [hdata.element_eq, hfg.element_eq m hm]
  · rw [hdata.metadata_eq, hfg.metadata_eq m hm]
  · rw [hchildren]
    by_cases hmp : m = p
    · rw [if_pos hmp, hmp, hlist, List.map_append, List.map_cons, standIn_snoc_self hn,
        map_standIn_snoc hfront, map_standIn_snoc hback]
    · rw [if_neg hmp, hfg.children_eq m hm, map_standIn_snoc fun hmem => hmp ?_]
      exact hf.parent_unique hmem (by simp [hlist])
  · have hblock : m ≠ t.block := Nat.ne_of_lt (Nat.lt_of_lt_of_le hm ht.le_block)
    rw [hparent, if_neg (by simpa using hblock), hfg.parent?_eq m hm]
    by_cases hmn : m = t.admonition
    · simp [admonitions, hmn]
    · simp [admonitions, hmn]
  · rcases List.mem_append.1 hu with hu | hu
    · exact hkept (hfg.made u hu) (Nat.ne_of_lt (hlater u hu).2)
    · rw [List.mem_singleton.1 hu]
      exact hkept ht (Nat.ne_of_gt hown)
  · refine List.pairwise_append.2 ⟨hfg.increasing, List.pairwise_singleton _ _, fun u hu v hv => ?_⟩
    rw [List.mem_singleton.1 hv]
    exact ⟨(hlater u hu).1, Nat.lt_trans (hlater u hu).2 hown⟩

end

end Stashed

end Stash

end Tabs

end MarkdownTree
