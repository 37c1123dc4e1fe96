import Mathlib.Data.List.Perm.Basic
import MarkdownTree.Forest.Attach
import MarkdownTree.Proofs.Ancestry

/-!
The two changes of links that everything else is made of: nodes leave their parents, and roots are
hung below a node. Each is described by what it does to parents and to lists of children, and each
keeps a forest well-formed.
-/

namespace MarkdownTree.Forest

variable {f g h : Forest} {c m n p q : NodeId} {nodes list : List NodeId}

/-- `SameData f g` says that `g` has the nodes, elements and metadata of `f`; links may differ. -/
structure SameData (f g : Forest) : Prop where
  size_eq : g.size = f.size
  elements_eq : g.elements = f.elements
  records_eq : g.records = f.records
  elementKey_eq (n : NodeId) : g.elementKey n = f.elementKey n
  recordKey_eq (n : NodeId) : g.recordKey n = f.recordKey n

namespace SameData

theorem refl (f : Forest) : f.SameData f :=
  ⟨rfl, rfl, rfl, fun _ => rfl, fun _ => rfl⟩

theorem trans (hfg : f.SameData g) (hgh : g.SameData h) : f.SameData h where
  size_eq := hgh.size_eq.trans hfg.size_eq
  elements_eq := hgh.elements_eq.trans hfg.elements_eq
  records_eq := hgh.records_eq.trans hfg.records_eq
  elementKey_eq n := (hgh.elementKey_eq n).trans (hfg.elementKey_eq n)
  recordKey_eq n := (hgh.recordKey_eq n).trans (hfg.recordKey_eq n)

theorem symm (hfg : f.SameData g) : g.SameData f where
  size_eq := hfg.size_eq.symm
  elements_eq := hfg.elements_eq.symm
  records_eq := hfg.records_eq.symm
  elementKey_eq n := (hfg.elementKey_eq n).symm
  recordKey_eq n := (hfg.recordKey_eq n).symm

theorem updateNode (f : Forest) (n : NodeId) (change : Node → Node)
    (he : ∀ node, (change node).element = node.element)
    (hr : ∀ node, (change node).record = node.record) : f.SameData (f.updateNode n change) where
  size_eq := by simp [Forest.updateNode, size]
  elements_eq := rfl
  records_eq := rfl
  elementKey_eq m := elementKey_updateNode f n m change he
  recordKey_eq m := recordKey_updateNode f n m change hr

theorem setChildren (f : Forest) (n : NodeId) (list : List NodeId) :
    f.SameData (f.setChildren n list) :=
  updateNode f n _ (fun _ => rfl) fun _ => rfl

theorem setParent (f : Forest) (n : NodeId) (p : Option NodeId) : f.SameData (f.setParent n p) :=
  updateNode f n _ (fun _ => rfl) fun _ => rfl

theorem element_eq (hfg : f.SameData g) (n : NodeId) : g.element n = f.element n := by
  rw [element, element, hfg.elementKey_eq, hfg.elements_eq]

theorem kind_eq (hfg : f.SameData g) (n : NodeId) : g.kind n = f.kind n := by
  rw [kind, kind, hfg.element_eq]

theorem metadata_eq (hfg : f.SameData g) (n : NodeId) : g.metadata n = f.metadata n := by
  rw [metadata, metadata, hfg.recordKey_eq, hfg.records_eq]

/-- The data and the links are all that there is to a forest. -/
theorem eq_of_links (hfg : f.SameData g) (hparent : ∀ n, g.parent? n = f.parent? n)
    (hchildren : ∀ n, g.children n = f.children n) : g = f := by
  obtain ⟨fnodes, felements, frecords⟩ := f
  obtain ⟨gnodes, gelements, grecords⟩ := g
  obtain ⟨hsize, rfl, rfl, helement, hrecord⟩ := hfg
  have hnodes : gnodes = fnodes := by
    apply Array.ext hsize
    intro k hg hf
    have hp := hparent k
    have hc := hchildren k
    have he := helement k
    have hr := hrecord k
    simp only [parent?, children, elementKey, recordKey, Array.getElem?_eq_getElem hg,
      Array.getElem?_eq_getElem hf, Option.bind_some] at hp hc he hr
    generalize gnodes[k] = a at *
    generalize fnodes[k] = b at *
    cases a
    cases b
    simp_all
  rw [hnodes]

/-- Links that are well-formed make a forest well-formed if its nodes come from a well-formed
one. -/
theorem wellFormed (hfg : f.SameData g) (hf : f.WellFormed)
    (hmem : ∀ p c, c ∈ g.children p ↔ g.parent? c = some p)
    (hnodup : ∀ p, (g.children p).Nodup) (hself : ∀ n, ¬ g.Ancestor n n)
    (hkind : ∀ p c, c ∈ g.children p → (f.kind p).canContain (f.kind c) = true) :
    g.WellFormed where
  mem_children_iff := hmem
  nodup_children := hnodup
  not_ancestor_self := hself
  canContain_of_mem p c hc := by
    rw [hfg.kind_eq, hfg.kind_eq]
    exact hkind p c hc
  elementKey_lt n hn := by
    rw [hfg.elementKey_eq, hfg.elements_eq]
    exact hf.elementKey_lt n (by rwa [hfg.size_eq] at hn)
  recordKey_lt n hn := by
    rw [hfg.recordKey_eq, hfg.records_eq]
    exact hf.recordKey_lt n (by rwa [hfg.size_eq] at hn)
  lt_of_mem_record r entries hr c hc := by
    rw [hfg.records_eq] at hr
    rw [hfg.size_eq]
    exact hf.lt_of_mem_record r entries hr c hc

end SameData

/-- `Relinked f g` says that `g` differs from `f` in links only and is well-formed. -/
structure Relinked (f g : Forest) : Prop where
  sameData : f.SameData g
  wellFormed : g.WellFormed

theorem Relinked.refl (hf : f.WellFormed) : f.Relinked f :=
  ⟨.refl f, hf⟩

theorem Relinked.trans (hfg : f.Relinked g) (hgh : g.Relinked h) : f.Relinked h :=
  ⟨hfg.sameData.trans hgh.sameData, hgh.wellFormed⟩

/-- The forest after `c` has left its parent, if it had one. -/
def detach (f : Forest) (c : NodeId) : Forest :=
  match f.parent? c with
  | none => f
  | some p => (f.setChildren p ((f.children p).erase c)).setParent c none

theorem sameData_detach (f : Forest) (c : NodeId) : f.SameData (f.detach c) := by
  unfold detach
  split
  · exact .refl f
  · exact (SameData.setChildren f _ _).trans (.setParent _ c none)

theorem parent?_detach (f : Forest) (c m : NodeId) :
    (f.detach c).parent? m = if m = c then none else f.parent? m := by
  unfold detach
  split
  · rename_i hc
    split
    · rename_i hm
      rw [hm, hc]
    · rfl
  · rename_i p hc
    have hsize : c < f.size := lt_size_of_parent? hc
    rw [parent?_setParent, parent?_setChildren, size_setChildren]
    by_cases hm : m = c
    · rw [if_pos ⟨hm.symm, hm ▸ hsize⟩, if_pos hm]
    · rw [if_neg (fun hcm => hm hcm.1.symm), if_neg hm]

theorem children_detach (hf : f.WellFormed) (c q : NodeId) :
    (f.detach c).children q = (f.children q).filter (· != c) := by
  unfold detach
  split
  · rename_i hc
    refine (List.filter_eq_self.2 fun m hm => ?_).symm
    have hne : m ≠ c := by
      rintro rfl
      rw [hf.parent?_of_mem hm] at hc
      cases hc
    simpa using hne
  · rename_i p hc
    rw [children_setParent, children_setChildren]
    by_cases hq : p = q
    · subst hq
      rw [if_pos ⟨rfl, lt_size_of_mem_children (hf.mem_of_parent? hc)⟩]
      exact (hf.nodup_children p).erase_eq_filter c
    · rw [if_neg (fun hpq => hq hpq.1)]
      refine (List.filter_eq_self.2 fun m hm => ?_).symm
      have hne : m ≠ c := by
        rintro rfl
        rw [hf.parent?_of_mem hm] at hc
        cases hc
        exact hq rfl
      simpa using hne

theorem parent?_of_detach (h : (f.detach c).parent? m = some p) : f.parent? m = some p := by
  rw [parent?_detach] at h
  split at h
  · cases h
  · exact h

theorem atOrAbove_of_detach (h : (f.detach c).AtOrAbove m n) : f.AtOrAbove m n := by
  rcases h with rfl | h
  · exact .refl f m
  · exact (ancestor_of_parent?_imp (fun _ _ => parent?_of_detach) h).atOrAbove

theorem WellFormed.detach (hf : f.WellFormed) (c : NodeId) : (f.detach c).WellFormed := by
  refine (sameData_detach f c).wellFormed hf ?_ ?_ ?_ ?_
  · intro p m
    rw [children_detach hf, parent?_detach, List.mem_filter, hf.mem_children_iff]
    by_cases hm : m = c
    · simp [hm]
    · simp [hm]
  · intro p
    rw [children_detach hf]
    exact (hf.nodup_children p).filter _
  · intro n hn
    exact hf.not_ancestor_self n (ancestor_of_parent?_imp (fun _ _ => parent?_of_detach) hn)
  · intro p m hm
    rw [children_detach hf] at hm
    exact hf.canContain_of_mem p m (List.mem_of_mem_filter hm)

/-- The forest after several nodes have left their parents. -/
def detachAll (f : Forest) (nodes : List NodeId) : Forest :=
  nodes.foldl detach f

@[simp] theorem detachAll_nil (f : Forest) : f.detachAll [] = f := rfl

@[simp] theorem detachAll_cons (f : Forest) (c : NodeId) (nodes : List NodeId) :
    f.detachAll (c :: nodes) = (f.detach c).detachAll nodes := rfl

theorem sameData_detachAll (f : Forest) (nodes : List NodeId) :
    f.SameData (f.detachAll nodes) := by
  induction nodes generalizing f with
  | nil => exact .refl f
  | cons c nodes ih => exact (sameData_detach f c).trans (ih (f.detach c))

theorem WellFormed.detachAll (hf : f.WellFormed) (nodes : List NodeId) :
    (f.detachAll nodes).WellFormed := by
  induction nodes generalizing f with
  | nil => exact hf
  | cons c nodes ih => exact ih (hf.detach c)

theorem parent?_detachAll (f : Forest) (nodes : List NodeId) (m : NodeId) :
    (f.detachAll nodes).parent? m = if m ∈ nodes then none else f.parent? m := by
  induction nodes generalizing f with
  | nil => simp
  | cons c nodes ih =>
      rw [detachAll_cons, ih, parent?_detach]
      by_cases hm : m ∈ nodes
      · simp [hm]
      · by_cases hc : m = c
        · simp [hc]
        · simp [hm, hc]

theorem children_detachAll (hf : f.WellFormed) (nodes : List NodeId) (q : NodeId) :
    (f.detachAll nodes).children q = (f.children q).filter (!nodes.contains ·) := by
  induction nodes generalizing f with
  | nil => simp
  | cons c nodes ih =>
      rw [detachAll_cons, ih (hf.detach c), children_detach hf, List.filter_filter]
      refine List.filter_congr fun m _ => ?_
      by_cases hc : m = c <;> simp [hc]

theorem parent?_of_detachAll (h : (f.detachAll nodes).parent? m = some p) :
    f.parent? m = some p := by
  rw [parent?_detachAll] at h
  split at h
  · cases h
  · exact h

theorem atOrAbove_of_detachAll (h : (f.detachAll nodes).AtOrAbove m n) : f.AtOrAbove m n := by
  rcases h with rfl | h
  · exact .refl f m
  · exact (ancestor_of_parent?_imp (fun _ _ => parent?_of_detachAll) h).atOrAbove

/-- The forest in which `p` has the children of a list, and the listed `nodes` have the parent
`p`. -/
def attach (f : Forest) (p : NodeId) (nodes list : List NodeId) : Forest :=
  adopt p nodes (f.setChildren p list)

theorem sameData_adopt (f : Forest) (p : NodeId) (nodes : List NodeId) :
    f.SameData (adopt p nodes f) := by
  induction nodes generalizing f with
  | nil => exact .refl f
  | cons c nodes ih => exact (SameData.setParent f c (some p)).trans (ih (f.setParent c (some p)))

theorem children_adopt (f : Forest) (p : NodeId) (nodes : List NodeId) (q : NodeId) :
    (adopt p nodes f).children q = f.children q := by
  induction nodes generalizing f with
  | nil => rfl
  | cons c nodes ih =>
      change (adopt p nodes (f.setParent c (some p))).children q = f.children q
      rw [ih, children_setParent]

theorem parent?_adopt (f : Forest) (p : NodeId) (nodes : List NodeId) (m : NodeId) :
    (adopt p nodes f).parent? m = if m ∈ nodes ∧ m < f.size then some p else f.parent? m := by
  induction nodes generalizing f with
  | nil => simp [adopt]
  | cons c nodes ih =>
      change (adopt p nodes (f.setParent c (some p))).parent? m = _
      rw [ih, parent?_setParent, size_setParent]
      by_cases hs : m < f.size
      · rcases eq_or_ne m c with rfl | hc
        · simp [hs]
        · simp [hs, hc, hc.symm]
      · simp [hs]

theorem sameData_attach (f : Forest) (p : NodeId) (nodes list : List NodeId) :
    f.SameData (f.attach p nodes list) :=
  (SameData.setChildren f p list).trans (sameData_adopt _ p nodes)

theorem children_attach (hp : p < f.size) (nodes list : List NodeId) (q : NodeId) :
    (f.attach p nodes list).children q = if q = p then list else f.children q := by
  rw [attach, children_adopt, children_setChildren]
  by_cases hq : q = p
  · subst hq
    simp [hp]
  · rw [if_neg (fun hpq => hq hpq.1.symm), if_neg hq]

theorem parent?_attach (hlt : ∀ c ∈ nodes, c < f.size) (p : NodeId) (list : List NodeId)
    (m : NodeId) :
    (f.attach p nodes list).parent? m = if m ∈ nodes then some p else f.parent? m := by
  rw [attach, parent?_adopt, parent?_setChildren, size_setChildren]
  by_cases hm : m ∈ nodes
  · rw [if_pos ⟨hm, hlt m hm⟩, if_pos hm]
  · rw [if_neg (fun hmn => hm hmn.1), if_neg hm]

/-- Roots may be hung below `p`: they exist, are told apart, may stand there, and `p` is not one of
them or below one. -/
structure Attachable (f : Forest) (p : NodeId) (nodes : List NodeId) : Prop where
  parent_lt : p < f.size
  lt_size : ∀ c ∈ nodes, c < f.size
  isRoot : ∀ c ∈ nodes, f.parent? c = none
  nodup : nodes.Nodup
  canContain : ∀ c ∈ nodes, (f.kind p).canContain (f.kind c) = true
  not_over : ∀ c ∈ nodes, ¬ f.AtOrAbove c p

/-- A way up after roots were hung below `p` is a way up from before, or it leads through one of the
roots and then on from `p`. -/
theorem ancestor_attach (ha : f.Attachable p nodes) (hm : (f.attach p nodes list).Ancestor m n) :
    f.Ancestor m n ∨ ∃ c ∈ nodes, f.AtOrAbove c n ∧ f.AtOrAbove m p := by
  have hpar := fun k => parent?_attach ha.lt_size p list k
  induction hm with
  | @parent n h =>
      rw [hpar] at h
      split at h
      · rename_i hn
        cases h
        exact Or.inr ⟨n, hn, .refl f n, .refl f _⟩
      · exact Or.inl (.parent h)
  | @above n q h _ ih =>
      rw [hpar] at h
      split at h
      · rename_i hn
        cases h
        rcases ih with ih | ⟨c, hc, hcp, _⟩
        · exact Or.inr ⟨n, hn, .refl f n, ih.atOrAbove⟩
        · exact absurd hcp (ha.not_over c hc)
      · rcases ih with ih | ⟨c, hc, hcq, hmp⟩
        · exact Or.inl (.above h ih)
        · exact Or.inr ⟨c, hc, (hcq.trans_ancestor (.parent h)).atOrAbove, hmp⟩

theorem WellFormed.attach (hf : f.WellFormed) (ha : f.Attachable p nodes)
    (hlist : list.Perm (nodes ++ f.children p)) : (f.attach p nodes list).WellFormed := by
  have hpar := fun m => parent?_attach ha.lt_size p list m
  have hch := fun q => children_attach ha.parent_lt nodes list q
  have hnew : ∀ c ∈ nodes, ∀ q, c ∉ f.children q := by
    intro c hc q hcq
    rw [hf.mem_children_iff, ha.isRoot c hc] at hcq
    cases hcq
  refine (sameData_attach f p nodes list).wellFormed hf ?_ ?_ ?_ ?_
  -- Parents and lists agree, lists have no doubles, there is no cycle, and children fit.
  · intro q m
    rw [hch, hpar]
    by_cases hq : q = p
    · subst hq
      rw [if_pos rfl, hlist.mem_iff, List.mem_append, hf.mem_children_iff]
      by_cases hm : m ∈ nodes <;> simp [hm]
    · rw [if_neg hq]
      by_cases hm : m ∈ nodes
      · rw [if_pos hm]
        refine ⟨fun hmq => absurd hmq (hnew m hm q), fun hpq => ?_⟩
        cases hpq
        exact absurd rfl hq
      · rw [if_neg hm]
        exact hf.mem_children_iff q m
  · intro q
    rw [hch]
    by_cases hq : q = p
    · rw [if_pos hq, hlist.nodup_iff]
      refine List.nodup_append'.2 ⟨ha.nodup, hf.nodup_children p, ?_⟩
      exact fun c hc hcp => hnew c hc p hcp
    · rw [if_neg hq]
      exact hf.nodup_children q
  · intro n hn
    rcases ancestor_attach ha hn with hn | ⟨c, hc, hcn, hnp⟩
    · exact hf.not_ancestor_self n hn
    · exact ha.not_over c hc (hcn.trans hnp)
  · intro q m hm
    rw [hch] at hm
    by_cases hq : q = p
    · subst hq
      rw [if_pos rfl, hlist.mem_iff, List.mem_append] at hm
      rcases hm with hm | hm
      · exact ha.canContain m hm
      · exact hf.canContain_of_mem q m hm
    · rw [if_neg hq] at hm
      exact hf.canContain_of_mem q m hm

end MarkdownTree.Forest
