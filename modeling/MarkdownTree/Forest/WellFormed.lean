import MarkdownTree.Forest.Basic

/-!
Well-formed forests: the two records of the links agree, no node is its own ancestor, every element
may stand where it stands, and everything that is referred to exists. Main statements: the empty
forest is well-formed, and stays so when a root is added.
-/

namespace MarkdownTree.Forest

/-- `Ancestor f a n` says that following parents from `n` leads to `a`, in one step or more. -/
inductive Ancestor (f : Forest) (a : NodeId) : NodeId → Prop
  | parent {n : NodeId} (h : f.parent? n = some a) : Ancestor f a n
  | above {n p : NodeId} (h : f.parent? n = some p) (ha : Ancestor f a p) : Ancestor f a n

/-- What holds of a forest as long as nobody assigns links or elements directly. -/
structure WellFormed (f : Forest) : Prop where
  /-- A node is listed by the node that is its parent, and by no other. -/
  mem_children_iff (p c : NodeId) : c ∈ f.children p ↔ f.parent? c = some p
  /-- No node is listed twice. -/
  nodup_children (p : NodeId) : (f.children p).Nodup
  /-- Following parents never leads back. -/
  not_ancestor_self (n : NodeId) : ¬ f.Ancestor n n
  /-- An element may contain the elements of the children. -/
  canContain_of_mem (p c : NodeId) (h : c ∈ f.children p) :
    (f.kind p).canContain (f.kind c) = true
  /-- Every node has an element. -/
  elementKey_lt (n : NodeId) (h : n < f.size) : f.elementKey n < f.elements.size
  /-- Every node has a metadata record. -/
  recordKey_lt (n : NodeId) (h : n < f.size) : f.recordKey n < f.records.size
  /-- Metadata refer to nodes that exist. -/
  lt_of_mem_record (r : Nat) (entries : Entries) (h : f.records[r]? = some entries) (c : NodeId)
    (hc : c ∈ Value.nodesEntries entries) : c < f.size

/-- Links that are taken away only leave ancestors that were ancestors. -/
theorem ancestor_of_parent?_imp {f g : Forest} {a n : NodeId}
    (hp : ∀ m p, g.parent? m = some p → f.parent? m = some p) (ha : g.Ancestor a n) :
    f.Ancestor a n := by
  induction ha with
  | parent h => exact .parent (hp _ _ h)
  | above h _ ih => exact .above (hp _ _ h) ih

theorem lt_size_of_parent? {f : Forest} {n p : NodeId} (h : f.parent? n = some p) :
    n < f.size := by
  unfold parent? at h
  rcases Nat.lt_or_ge n f.nodes.size with hn | hn
  · exact hn
  · simp [Array.getElem?_eq_none hn] at h

theorem lt_size_of_mem_children {f : Forest} {p c : NodeId} (h : c ∈ f.children p) :
    p < f.size := by
  unfold children at h
  rcases Nat.lt_or_ge p f.nodes.size with hp | hp
  · exact hp
  · simp [Array.getElem?_eq_none hp] at h

theorem not_ancestor_of_no_parent {f : Forest} (h : ∀ n, f.parent? n = none) (a n : NodeId) :
    ¬ f.Ancestor a n := by
  intro ha
  cases ha with
  | parent hp => simp [h] at hp
  | above hp _ => simp [h] at hp

theorem wellFormed_empty : WellFormed empty where
  mem_children_iff p c := by simp [children, parent?, empty]
  nodup_children p := by simp [children, empty]
  not_ancestor_self n := not_ancestor_of_no_parent (fun m => by simp [parent?, empty]) n n
  canContain_of_mem p c h := by simp [children, empty] at h
  elementKey_lt n h := by simp [size, empty] at h
  recordKey_lt n h := by simp [size, empty] at h
  lt_of_mem_record r entries h := by simp [empty] at h

section
variable (f : Forest) (element record : Nat)

theorem size_addRoot : (f.addRoot element record).2.size = f.size + 1 := by
  simp [addRoot, size]

theorem children_addRoot (n : NodeId) :
    (f.addRoot element record).2.children n = f.children n := by
  rcases Nat.lt_trichotomy n f.nodes.size with h | rfl | h
  · simp [addRoot, children, Array.getElem?_push_lt h, h]
  · simp [addRoot, children]
  · simp [addRoot, children, Array.getElem?_eq_none (Nat.le_of_lt h), Array.getElem?_push,
      Nat.ne_of_gt h]

theorem parent?_addRoot (n : NodeId) :
    (f.addRoot element record).2.parent? n = f.parent? n := by
  rcases Nat.lt_trichotomy n f.nodes.size with h | rfl | h
  · simp [addRoot, parent?, Array.getElem?_push_lt h, h]
  · simp [addRoot, parent?]
  · simp [addRoot, parent?, Array.getElem?_eq_none (Nat.le_of_lt h), Array.getElem?_push,
      Nat.ne_of_gt h]

theorem lt_size_addRoot : f.size < (f.addRoot element record).2.size := by
  rw [size_addRoot]
  exact Nat.lt_succ_self _

theorem children_addRoot_self : (f.addRoot element record).2.children f.size = [] := by
  simp [addRoot, children, size]

theorem parent?_addRoot_self : (f.addRoot element record).2.parent? f.size = none := by
  simp [addRoot, parent?, size]

theorem elementKey_addRoot (n : NodeId) :
    (f.addRoot element record).2.elementKey n =
      if n = f.size then element else f.elementKey n := by
  by_cases h : n = f.nodes.size <;>
    simp [addRoot, elementKey, Array.getElem?_push, size, h]

theorem recordKey_addRoot (n : NodeId) :
    (f.addRoot element record).2.recordKey n =
      if n = f.size then record else f.recordKey n := by
  by_cases h : n = f.nodes.size <;>
    simp [addRoot, recordKey, Array.getElem?_push, size, h]

theorem element_addRoot (n : NodeId) (h : n ≠ f.size) :
    (f.addRoot element record).2.element n = f.element n := by
  rw [Forest.element, elementKey_addRoot, if_neg h]
  rfl

theorem metadata_addRoot (n : NodeId) (h : n ≠ f.size) :
    (f.addRoot element record).2.metadata n = f.metadata n := by
  rw [metadata, recordKey_addRoot, if_neg h]
  rfl

/-- A new root disturbs nothing. -/
theorem WellFormed.addRoot (hf : f.WellFormed) (he : element < f.elements.size)
    (hr : record < f.records.size) : (f.addRoot element record).2.WellFormed where
  mem_children_iff p c := by
    rw [children_addRoot, parent?_addRoot]
    exact hf.mem_children_iff p c
  nodup_children p := by
    rw [children_addRoot]
    exact hf.nodup_children p
  not_ancestor_self n hn := by
    refine hf.not_ancestor_self n (ancestor_of_parent?_imp (fun m p h => ?_) hn)
    rwa [parent?_addRoot] at h
  canContain_of_mem p c h := by
    rw [children_addRoot] at h
    have hp := lt_size_of_mem_children h
    have hc := lt_size_of_parent? ((hf.mem_children_iff p c).1 h)
    rw [kind, kind, element_addRoot f element record p (Nat.ne_of_lt hp),
      element_addRoot f element record c (Nat.ne_of_lt hc)]
    exact hf.canContain_of_mem p c h
  elementKey_lt n h := by
    rw [size_addRoot] at h
    rw [elementKey_addRoot]
    split
    · exact he
    · rename_i hn
      exact hf.elementKey_lt n (Nat.lt_of_le_of_ne (Nat.le_of_lt_succ h) hn)
  recordKey_lt n h := by
    rw [size_addRoot] at h
    rw [recordKey_addRoot]
    split
    · exact hr
    · rename_i hn
      exact hf.recordKey_lt n (Nat.lt_of_le_of_ne (Nat.le_of_lt_succ h) hn)
  lt_of_mem_record r entries h c hc := by
    rw [size_addRoot]
    exact Nat.lt_succ_of_lt (hf.lt_of_mem_record r entries h c hc)

end

/-- Well-formedness only depends on the links, the kinds of the elements that are in use, and the
nodes that metadata refer to. -/
theorem WellFormed.of_nodes_eq {f g : Forest} (hf : f.WellFormed) (hnodes : g.nodes = f.nodes)
    (helements : f.elements.size ≤ g.elements.size)
    (hkind : ∀ key < f.elements.size, g.kindAt key = f.kindAt key)
    (hrecords : f.records.size ≤ g.records.size)
    (hrecord : ∀ (r : Nat) (entries : Entries), g.records[r]? = some entries →
      ∀ c ∈ Value.nodesEntries entries, c < f.size) : g.WellFormed := by
  have hparent (n : NodeId) : g.parent? n = f.parent? n := by rw [parent?, parent?, hnodes]
  have hchildren (n : NodeId) : g.children n = f.children n := by rw [children, children, hnodes]
  have helement (n : NodeId) : g.elementKey n = f.elementKey n := by
    rw [elementKey, elementKey, hnodes]
  have hmeta (n : NodeId) : g.recordKey n = f.recordKey n := by rw [recordKey, recordKey, hnodes]
  have hsize : g.size = f.size := by rw [size, size, hnodes]
  have hkinds (n : NodeId) (hn : n < f.size) : g.kind n = f.kind n := by
    change g.kindAt (g.elementKey n) = f.kindAt (f.elementKey n)
    rw [helement, hkind _ (hf.elementKey_lt n hn)]
  refine ⟨?_, ?_, ?_, ?_, ?_, ?_, ?_⟩
  · intro p c
    rw [hchildren, hparent]
    exact hf.mem_children_iff p c
  · intro p
    rw [hchildren]
    exact hf.nodup_children p
  · intro n hn
    refine hf.not_ancestor_self n (ancestor_of_parent?_imp (fun m p h => ?_) hn)
    rwa [hparent] at h
  · intro p c hc
    rw [hchildren] at hc
    rw [hkinds p (lt_size_of_mem_children hc),
      hkinds c (lt_size_of_parent? ((hf.mem_children_iff p c).1 hc))]
    exact hf.canContain_of_mem p c hc
  · intro n hn
    rw [helement]
    exact Nat.lt_of_lt_of_le (hf.elementKey_lt n (hsize ▸ hn)) helements
  · intro n hn
    rw [hmeta]
    exact Nat.lt_of_lt_of_le (hf.recordKey_lt n (hsize ▸ hn)) hrecords
  · intro r entries hr c hc
    rw [hsize]
    exact hrecord r entries hr c hc

section
variable (f : Forest) (element : Element) (metadata : Entries)

theorem kindAt_addElement (key : Nat) (h : key < f.elements.size) :
    (f.addElement element).kindAt key = f.kindAt key := by
  change ((f.elements.push element)[key]?.getD default).kind = _
  rw [Array.getElem?_push_lt h, kindAt, Array.getElem?_eq_getElem h]

theorem WellFormed.addElement (hf : f.WellFormed) : (f.addElement element).WellFormed :=
  hf.of_nodes_eq rfl (by simp [Forest.addElement]) (kindAt_addElement f element) (Nat.le_refl _)
    hf.lt_of_mem_record

theorem WellFormed.addRecord (hf : f.WellFormed)
    (hmeta : ∀ c ∈ Value.nodesEntries metadata, c < f.size) :
    (f.addRecord metadata).WellFormed := by
  refine hf.of_nodes_eq rfl (Nat.le_refl _) (fun _ _ => rfl) (by simp [Forest.addRecord]) ?_
  intro r entries hr c hc
  simp only [Forest.addRecord, Array.getElem?_push] at hr
  split at hr
  · cases hr
    exact hmeta c hc
  · exact hf.lt_of_mem_record r entries hr c hc

theorem WellFormed.addNode (hf : f.WellFormed)
    (hmeta : ∀ c ∈ Value.nodesEntries metadata, c < f.size) :
    (f.addNode element metadata).2.WellFormed :=
  ((hf.addElement f element).addRecord _ metadata hmeta).addRoot _ _ _
    (by simp [Forest.addElement, Forest.addRecord]) (by simp [Forest.addElement, Forest.addRecord])

end

end MarkdownTree.Forest
