import MarkdownTree.Proofs.Growth

/-!
Forests that lie within others unchanged: every node with its links, every element and every
metadata record is still there and the same, and others may have been added. An operation that only
makes new nodes, and links and changes nothing but these, leaves the forest within the result.
-/

namespace MarkdownTree.Forest

variable {f g h : Forest} {c k n : NodeId}

/-- `Within f g` says that everything in `f` is unchanged in `g`. -/
structure Within (f g : Forest) : Prop where
  node_eq (n : NodeId) (hn : n < f.size) : g.nodes[n]? = f.nodes[n]?
  elements_eq (key : Nat) (hk : key < f.elements.size) : g.elements[key]? = f.elements[key]?
  records_eq (key : Nat) (hk : key < f.records.size) : g.records[key]? = f.records[key]?

namespace Within

theorem refl (f : Forest) : f.Within f :=
  ⟨fun _ _ => rfl, fun _ _ => rfl, fun _ _ => rfl⟩

theorem le_of_getElem?_eq {α : Type} {xs ys : Array α} (h : ∀ i < xs.size, ys[i]? = xs[i]?) :
    xs.size ≤ ys.size := by
  by_contra hlt
  have hi : ys.size < xs.size := Nat.lt_of_not_le hlt
  have hget := h ys.size hi
  simp [hi] at hget

section
variable (hfg : f.Within g)
include hfg

theorem size_le : f.size ≤ g.size :=
  le_of_getElem?_eq hfg.node_eq

theorem elements_le : f.elements.size ≤ g.elements.size :=
  le_of_getElem?_eq hfg.elements_eq

theorem records_le : f.records.size ≤ g.records.size :=
  le_of_getElem?_eq hfg.records_eq

theorem trans (hgh : g.Within h) : f.Within h where
  node_eq n hn := by
    rw [hgh.node_eq n (Nat.lt_of_lt_of_le hn hfg.size_le), hfg.node_eq n hn]
  elements_eq key hk := by
    rw [hgh.elements_eq key (Nat.lt_of_lt_of_le hk hfg.elements_le), hfg.elements_eq key hk]
  records_eq key hk := by
    rw [hgh.records_eq key (Nat.lt_of_lt_of_le hk hfg.records_le), hfg.records_eq key hk]

theorem parent?_eq (hn : n < f.size) : g.parent? n = f.parent? n := by
  rw [parent?, parent?, hfg.node_eq n hn]

theorem children_eq (hn : n < f.size) : g.children n = f.children n := by
  rw [children, children, hfg.node_eq n hn]

theorem elementKey_eq (hn : n < f.size) : g.elementKey n = f.elementKey n := by
  rw [elementKey, elementKey, hfg.node_eq n hn]

theorem recordKey_eq (hn : n < f.size) : g.recordKey n = f.recordKey n := by
  rw [recordKey, recordKey, hfg.node_eq n hn]

theorem kindAt_eq {key : Nat} (hk : key < f.elements.size) : g.kindAt key = f.kindAt key := by
  rw [kindAt, kindAt, hfg.elements_eq key hk]

theorem element_eq (hf : f.WellFormed) (hn : n < f.size) : g.element n = f.element n := by
  rw [Forest.element, Forest.element, hfg.elementKey_eq hn,
    hfg.elements_eq _ (hf.elementKey_lt n hn)]

theorem kind_eq (hf : f.WellFormed) (hn : n < f.size) : g.kind n = f.kind n := by
  rw [kind, kind, hfg.element_eq hf hn]

theorem metadata_eq (hf : f.WellFormed) (hn : n < f.size) : g.metadata n = f.metadata n := by
  rw [metadata, metadata, hfg.recordKey_eq hn, hfg.records_eq _ (hf.recordKey_lt n hn)]

end

end Within

theorem within_addElement (f : Forest) (element : Element) : f.Within (f.addElement element) :=
  ⟨fun _ _ => rfl, fun _ hk => Array.getElem?_push_lt hk ▸ (Array.getElem?_eq_getElem hk).symm,
    fun _ _ => rfl⟩

theorem within_addRoot (f : Forest) (element record : Nat) :
    f.Within (f.addRoot element record).2 :=
  ⟨fun _ hn => Array.getElem?_push_lt hn ▸ (Array.getElem?_eq_getElem hn).symm, fun _ _ => rfl,
    fun _ _ => rfl⟩

theorem within_addNode (f : Forest) (element : Element) (metadata : Entries) :
    f.Within (f.addNode element metadata).2 where
  node_eq _ hn := (within_addRoot ((f.addElement element).addRecord metadata) _ _).node_eq _ hn
  elements_eq _ hk := (within_addElement f element).elements_eq _ hk
  records_eq _ hk := Array.getElem?_push_lt hk ▸ (Array.getElem?_eq_getElem hk).symm

theorem recordKey_addNode (f : Forest) (element : Element) (metadata : Entries) :
    (f.addNode element metadata).2.recordKey f.size = f.records.size := by
  refine (recordKey_addRoot ((f.addElement element).addRecord metadata) _ _ f.size).trans ?_
  exact if_pos rfl

namespace Within

variable (hfg : f.Within g)

include hfg

theorem updateNode (hk : f.size ≤ k) (change : Node → Node) :
    f.Within (g.updateNode k change) where
  node_eq n hn := by
    change (g.nodes.modify k change)[n]? = _
    rw [Array.getElem?_modify, if_neg (Nat.ne_of_gt (Nat.lt_of_lt_of_le hn hk)), hfg.node_eq n hn]
  elements_eq := hfg.elements_eq
  records_eq := hfg.records_eq

theorem adopt {nodes : List NodeId} (hnodes : ∀ k ∈ nodes, f.size ≤ k) (p : NodeId) :
    f.Within (Forest.adopt p nodes g) := by
  induction nodes generalizing g with
  | nil => exact hfg
  | cons k nodes ih =>
      refine ih (hfg.updateNode (hnodes k List.mem_cons_self) _) fun m hm => ?_
      exact hnodes m (List.mem_cons_of_mem k hm)

theorem attach {nodes : List NodeId} {p : NodeId} (hp : f.size ≤ p)
    (hnodes : ∀ k ∈ nodes, f.size ≤ k) (list : List NodeId) :
    f.Within (g.attach p nodes list) :=
  (hfg.updateNode hp _).adopt hnodes p

theorem updateMetadata (hk : f.records.size ≤ g.recordKey k) (change : Entries → Entries) :
    f.Within (g.updateMetadata k change) where
  node_eq := hfg.node_eq
  elements_eq := hfg.elements_eq
  records_eq key hkey := by
    change (g.records.modify (g.recordKey k) change)[key]? = _
    rw [Array.getElem?_modify, if_neg (Nat.ne_of_gt (Nat.lt_of_lt_of_le hkey hk)),
      hfg.records_eq key hkey]

end Within

/-- `Enclosed f g` says that everything in `f` is unchanged in `g`, and that no node that was added
has a metadata record of `f`. -/
structure Enclosed (f g : Forest) : Prop where
  within : f.Within g
  le_recordKey (n : NodeId) (hn : f.size ≤ n) (hg : n < g.size) : f.records.size ≤ g.recordKey n

namespace Enclosed

theorem refl (f : Forest) : f.Enclosed f :=
  ⟨.refl f, fun _ hn hlt => absurd hlt (Nat.not_lt.2 hn)⟩

theorem trans (hfg : f.Enclosed g) (hgh : g.Enclosed h) : f.Enclosed h where
  within := hfg.within.trans hgh.within
  le_recordKey n hn hlt := by
    rcases Nat.lt_or_ge n g.size with hng | hng
    · rw [hgh.within.recordKey_eq hng]
      exact hfg.le_recordKey n hn hng
    · exact Nat.le_trans hfg.within.records_le (hgh.le_recordKey n hng hlt)

/-- New links of nodes that were added do not concern their records. -/
theorem attach {nodes : List NodeId} {p : NodeId} (hfg : f.Enclosed g) (hp : f.size ≤ p)
    (hnodes : ∀ k ∈ nodes, f.size ≤ k) (list : List NodeId) :
    f.Enclosed (g.attach p nodes list) where
  within := hfg.within.attach hp hnodes list
  le_recordKey n hn hlt := by
    have hdata := sameData_attach g p nodes list
    rw [hdata.size_eq] at hlt
    rw [hdata.recordKey_eq]
    exact hfg.le_recordKey n hn hlt

end Enclosed

theorem enclosed_addElement (f : Forest) (element : Element) : f.Enclosed (f.addElement element) :=
  ⟨within_addElement f element, fun _ hn hlt => absurd hlt (Nat.not_lt.2 hn)⟩

theorem enclosed_addNode (f : Forest) (element : Element) (metadata : Entries) :
    f.Enclosed (f.addNode element metadata).2 where
  within := within_addNode f element metadata
  le_recordKey n hn hlt := by
    rw [size_addNode] at hlt
    obtain rfl : n = f.size := Nat.le_antisymm (Nat.le_of_lt_succ hlt) hn
    exact Nat.le_of_eq (recordKey_addNode f element metadata).symm

end MarkdownTree.Forest
