import MarkdownTree.Proofs.Growth

/-!
Nodes that are made over nodes that exist. Each node that was there before keeps its parent or comes
to stand below a new node; the children that stay keep their order; and nothing at or over a node
moves if neither it nor an ancestor of it is given to a new node. Main statement: this is what all
making of nodes comes to.
-/

namespace MarkdownTree.Forest

variable {f g h : Forest} {c k m n p q w : NodeId} {nodes : List NodeId}

/-- `Builds n f g` says that `g` comes of `f` by making nodes with an element, metadata and children
that exist, neither `n` nor an ancestor of it among them. -/
inductive Builds (n : NodeId) (f : Forest) : Forest → Prop
  | refl : Builds n f f
  | make {g h : Forest} {element : Element} {metadata : Entries} {nodes : List NodeId}
      {made : NodeId} (hbuilds : Builds n f g) (hknown : ∀ c ∈ nodes, c < g.size)
      (hmeta : ∀ c ∈ Value.nodesEntries metadata, c < g.size)
      (hover : ∀ c ∈ nodes, ¬ g.AtOrAbove c n)
      (hmade : outcome (newNode element (nodes.map .node) metadata) g = (.ok made, h)) :
      Builds n f h

/-- What making nodes does to the links of those that were there before. -/
structure Built (n : NodeId) (f g : Forest) : Prop where
  wellFormed : g.WellFormed
  size_le : f.size ≤ g.size
  parent? (m : NodeId) (hm : m < f.size) :
    g.parent? m = f.parent? m ∨ ∃ w, g.parent? m = some w ∧ f.size ≤ w
  children (q : NodeId) (hq : q < f.size) :
    g.children q = (f.children q).filter fun m => g.parent? m = some q
  fresh (w p : NodeId) (hw : f.size ≤ w) (hp : g.parent? w = some p) : f.size ≤ p
  above (m : NodeId) (hm : f.AtOrAbove m n) : g.parent? m = f.parent? m

theorem parent?_placed (hc : c < f.size) (p m : NodeId) (j : Int) :
    (f.placed p c j).parent? m = if m = c then some p else f.parent? m := by
  have hlt : ∀ k ∈ [c], k < (f.detach c).size := by
    intro k hk
    rwa [List.mem_singleton.1 hk, (sameData_detach f c).size_eq]
  rw [placed, parent?_attach hlt, parent?_detach]
  by_cases hm : m = c
  · rw [if_pos (List.mem_singleton.2 hm), if_pos hm]
  · rw [if_neg (fun hmc => hm (List.mem_singleton.1 hmc)), if_neg hm, if_neg hm]

theorem children_placed_of_ne (hf : f.WellFormed) (hp : p < f.size) (hq : q ≠ p) (c : NodeId)
    (j : Int) : (f.placed p c j).children q = (f.children q).filter (· != c) := by
  have hp' : p < (f.detach c).size := by rwa [(sameData_detach f c).size_eq]
  rw [placed, children_attach hp', if_neg hq, children_detach hf]

theorem appendChild_ok (hf : f.WellFormed) {u : Unit}
    (hres : outcome (appendChild p (.node c)) f = (.ok u, g)) :
    f.Fits p c ∧ ∃ j, g = f.placed p c j := by
  simp only [appendChild, outcome_bind, outcome_get] at hres
  cases hcheck : f.checkAttach p (.node c) with
  | error e =>
      rw [outcome_attachAt_fault hcheck] at hres
      cases hres
  | ok k =>
      obtain ⟨j, hj⟩ := exists_indexWithout hf p k (f.children p).length
      obtain ⟨hk, hfit⟩ := (checkAttach_eq_ok_iff hf).1 hcheck
      cases hk
      rw [outcome_attachAt hf hcheck hj, if_pos rfl] at hres
      cases hres
      exact ⟨hfit, j, rfl⟩

namespace Built

theorem refl (hf : f.WellFormed) (n : NodeId) : f.Built n f where
  wellFormed := hf
  size_le := Nat.le_refl _
  parent? m _ := Or.inl rfl
  children q _ := by
    refine (List.filter_eq_self.2 fun m hm => ?_).symm
    exact decide_eq_true (hf.parent?_of_mem hm)
  fresh w p hw hp := absurd (lt_size_of_parent? hp) (Nat.not_lt.2 hw)
  above m _ := rfl

/-- What is over the node, or over another one over it, is what was there before. -/
theorem ancestor_iff (hb : Built n f g) (hm : f.AtOrAbove m n) :
    g.Ancestor k m ↔ f.Ancestor k m :=
  ancestor_iff_of_parent?_eq hb.above hm

theorem atOrAbove_iff (hb : Built n f g) (hm : f.AtOrAbove m n) :
    g.AtOrAbove k m ↔ f.AtOrAbove k m :=
  or_congr Iff.rfl (hb.ancestor_iff hm)

/-- A node at or over `n` stays below its parent. -/
theorem parent?_of_mem (hb : Built n f g) (hf : f.WellFormed) (hmem : m ∈ f.children q)
    (hm : f.AtOrAbove m n) : g.parent? m = some q := by
  rw [hb.above m hm]
  exact hf.parent?_of_mem hmem

/-- A child that has stayed divides the others that have. -/
theorem children_split (hb : Built n f g) {before after : List NodeId}
    (hlist : f.children q = before ++ m :: after) (hm : g.parent? m = some q) :
    g.children q = before.filter (fun k => g.parent? k = some q) ++
      m :: after.filter (fun k => g.parent? k = some q) := by
  have hmem : m ∈ f.children q := hlist ▸ List.mem_append_right _ List.mem_cons_self
  rw [hb.children q (lt_size_of_mem_children hmem), hlist, List.filter_append,
    List.filter_cons_of_pos (by simpa using hm)]

theorem addNode (hb : Built n f g) (element : Element) {metadata : Entries}
    (hmeta : ∀ c ∈ Value.nodesEntries metadata, c < g.size) :
    Built n f (g.addNode element metadata).2 := by
  have hext := extends_addNode hb.wellFormed element hmeta
  refine ⟨hext.wellFormed, Nat.le_trans hb.size_le hext.size_le, fun m hm => ?_, fun q hq => ?_,
    fun w p hw hp => ?_, fun m hm => ?_⟩
  · rw [hext.parent?_eq]
    exact hb.parent? m hm
  · rw [hext.children_eq, hb.children q hq]
    exact List.filter_congr fun m _ => by rw [hext.parent?_eq]
  · rw [hext.parent?_eq] at hp
    exact hb.fresh w p hw hp
  · rw [hext.parent?_eq]
    exact hb.above m hm

/-- A node that is still below a node over `n` was there before, below the same ones. -/
theorem below (hb : Built n f g) (hf : f.WellFormed) (hn : n < f.size) (hp : f.AtOrAbove p n)
    (hm : g.AtOrAbove p m) :
    m < f.size ∧ f.AtOrAbove p m ∧ ∀ k, f.AtOrAbove k m → g.parent? k = f.parent? k := by
  -- What holds of the parent in `g`, which is no new node, is passed on to the child.
  have hchild {m q : NodeId} (hq : q < f.size) (hup : f.AtOrAbove p q)
      (hover : ∀ k, f.AtOrAbove k q → g.parent? k = f.parent? k) (hmq : g.parent? m = some q) :
      m < f.size ∧ f.AtOrAbove p m ∧ ∀ k, f.AtOrAbove k m → g.parent? k = f.parent? k := by
    have hm : m < f.size := by
      by_contra hge
      exact absurd (hb.fresh m q (Nat.le_of_not_lt hge) hmq) (Nat.not_le.2 hq)
    have hsame : g.parent? m = f.parent? m := by
      rcases hb.parent? m hm with hsame | ⟨w, hw, hfresh⟩
      · exact hsame
      · rw [hmq] at hw
        cases hw
        exact absurd hfresh (Nat.not_le.2 hq)
    rw [hmq] at hsame
    refine ⟨hm, (hup.trans_ancestor (.parent hsame.symm)).atOrAbove, fun k hk => ?_⟩
    rcases hf.atOrAbove_of_mem (hf.mem_of_parent? hsame.symm) hk with rfl | hkq
    · rw [hmq, ← hsame]
    · exact hover k hkq
  have htop : p < f.size ∧ f.AtOrAbove p p ∧ ∀ k, f.AtOrAbove k p → g.parent? k = f.parent? k :=
    ⟨hf.atOrAbove_lt_size hp hn, .refl f p, fun k hk => hb.above k (hk.trans hp)⟩
  rcases hm with rfl | hm
  · exact htop
  · induction hm with
    | parent hmp => exact hchild htop.1 htop.2.1 htop.2.2 hmp
    | above hmq _ ih => exact hchild ih.1 ih.2.1 ih.2.2 hmq

/-- A node that is not over `n` is given to a new node. -/
theorem placed (hb : Built n f g) (hw : f.size ≤ w) (hw' : w < g.size) (hc : c < g.size)
    (hfit : g.Fits w c) (hover : ¬ g.AtOrAbove c n) (j : Int) :
    Built n f (g.placed w c j) := by
  have hrelinked := relinked_placed hb.wellFormed hw' hc hfit j
  refine ⟨hrelinked.wellFormed, ?_, fun m hm => ?_, fun q hq => ?_, fun v p hv hp => ?_,
    fun m hm => ?_⟩
  · rw [hrelinked.sameData.size_eq]
    exact hb.size_le
  · rw [parent?_placed hc]
    split
    · exact Or.inr ⟨w, rfl, hw⟩
    · exact hb.parent? m hm
  · have hqw : q ≠ w := Nat.ne_of_lt (Nat.lt_of_lt_of_le hq hw)
    rw [children_placed_of_ne hb.wellFormed hw' hqw, hb.children q hq, List.filter_filter]
    refine List.filter_congr fun m _ => ?_
    rw [parent?_placed hc]
    by_cases hmc : m = c
    · simp [hmc, hqw.symm]
    · simp [hmc]
  · rw [parent?_placed hc] at hp
    split at hp
    · cases hp
      exact hw
    · exact hb.fresh v p hv hp
  · rw [parent?_placed hc, if_neg ?_]
    · exact hb.above m hm
    · rintro rfl
      exact hover ((hb.atOrAbove_iff (.refl f n)).2 hm)

theorem appendAll {u : Unit} (hb : Built n f g) (hw : f.size ≤ w) (hw' : w < g.size)
    (hknown : ∀ c ∈ nodes, c < g.size) (hover : ∀ c ∈ nodes, ¬ f.AtOrAbove c n)
    (hres : outcome (appendAll w (nodes.map .node)) g = (.ok u, h)) : Built n f h := by
  induction nodes generalizing g with
  | nil =>
      cases hres
      exact hb
  | cons c nodes ih =>
      rw [List.map_cons, Forest.appendAll, outcome_bind] at hres
      rcases happend : outcome (appendChild w (.node c)) g with ⟨e | u', g'⟩
      · rw [happend] at hres
        cases hres
      · rw [happend] at hres
        have hc := hknown c List.mem_cons_self
        have hcn := hover c List.mem_cons_self
        obtain ⟨hfit, j, rfl⟩ := appendChild_ok hb.wellFormed happend
        have hsize := (relinked_placed hb.wellFormed hw' hc hfit j).sameData.size_eq
        have hplaced := hb.placed hw hw' hc hfit
          (fun hcg => hcn ((hb.atOrAbove_iff (.refl f n)).1 hcg)) j
        refine ih hplaced (hsize ▸ hw') (fun k hk => ?_) (fun k hk => ?_) hres
        · rw [hsize]
          exact hknown k (List.mem_cons_of_mem c hk)
        · exact hover k (List.mem_cons_of_mem c hk)

end Built

theorem newNode_ok {element : Element} {metadata : Entries} {made : NodeId}
    (hmade : outcome (newNode element (nodes.map .node) metadata) g = (.ok made, h)) :
    ∃ u, outcome (appendAll g.size (nodes.map .node)) (g.addNode element metadata).2 =
      (.ok u, h) := by
  have hroot : outcome (newRoot element metadata) g =
      (.ok g.size, (g.addNode element metadata).2) := rfl
  rw [newNode, outcome_bind, hroot] at hmade
  simp only [outcome_bind] at hmade
  rcases happend : outcome (appendAll g.size (nodes.map .node)) (g.addNode element metadata).2
    with ⟨e | u, g'⟩
  · rw [happend] at hmade
    cases hmade
  · rw [happend] at hmade
    cases hmade
    exact ⟨u, rfl⟩

theorem lt_size_addNode (g : Forest) (element : Element) (metadata : Entries) :
    g.size < (g.addNode element metadata).2.size :=
  Nat.lt_of_lt_of_eq (Nat.lt_succ_self _) (size_addNode g element metadata).symm

theorem Builds.built (hbuilds : Builds n f g) (hf : f.WellFormed) : Built n f g := by
  induction hbuilds with
  | refl => exact .refl hf n
  | @make g h element metadata nodes made _ hknown hmeta hover hmade hb =>
      obtain ⟨u, happend⟩ := newNode_ok hmade
      have hless := lt_size_addNode g element metadata
      refine (hb.addNode element hmeta).appendAll hb.size_le hless (fun c hc => ?_)
        (fun c hc hcn => ?_) happend
      · exact Nat.lt_trans (hknown c hc) hless
      · exact hover c hc ((hb.atOrAbove_iff (.refl f n)).2 hcn)

/-- If no node was made, nothing has changed. -/
theorem Builds.eq_of_size_le (hbuilds : Builds n f g) (hf : f.WellFormed)
    (hsize : g.size ≤ f.size) : g = f := by
  cases hbuilds with
  | refl => rfl
  | @make g _ element metadata nodes made hbuilds hknown hmeta hover hmade =>
      obtain ⟨u, happend⟩ := newNode_ok hmade
      have hb := hbuilds.built hf
      have hless := lt_size_addNode g element metadata
      have hvalues : ∀ v ∈ nodes.map Value.node, (g.addNode element metadata).2.Known v := by
        intro v hv c hc
        obtain ⟨k, hk, rfl⟩ := List.mem_map.1 hv
        cases hc
        exact Nat.lt_trans (hknown c hk) hless
      have hall := relinked_appendAll (hb.addNode element hmeta).wellFormed hless hvalues
      rw [happend] at hall
      rw [hall.sameData.size_eq] at hsize
      exact absurd (Nat.lt_of_le_of_lt hb.size_le hless) (Nat.not_lt.2 hsize)

end MarkdownTree.Forest
