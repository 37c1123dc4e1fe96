import MarkdownTree.Proofs.Fences

/-!
Forests whose links agree, whatever elements the nodes have. Neither the links nor the way metadata
are copied or trees are planted depend on elements, so it is enough to know these of the forest in
which every element is a block quote: block quotes may stand below each other, and that forest is
well-formed.
-/

namespace MarkdownTree.Forest

variable {f g h : Forest} {c m n p : NodeId} {depth record : Nat} {d : Draft} {ds : List Draft}

/-- What holds of a forest as long as nobody assigns links directly. Nothing is said about which
elements stand below which. -/
structure Linked (f : Forest) : Prop where
  /-- A node is listed by the node that is its parent, and by no other. -/
  mem_children_iff (p c : NodeId) : c ∈ f.children p ↔ f.parent? c = some p
  /-- No node is listed twice. -/
  nodup_children (p : NodeId) : (f.children p).Nodup
  /-- Following parents never leads back. -/
  not_ancestor_self (n : NodeId) : ¬ f.Ancestor n n
  /-- Every node has an element. -/
  elementKey_lt (n : NodeId) (h : n < f.size) : f.elementKey n < f.elements.size
  /-- Every node has a metadata record. -/
  recordKey_lt (n : NodeId) (h : n < f.size) : f.recordKey n < f.records.size
  /-- Metadata refer to nodes that exist. -/
  lt_of_mem_record (r : Nat) (entries : Entries) (h : f.records[r]? = some entries) (c : NodeId)
    (hc : c ∈ Value.nodesEntries entries) : c < f.size

theorem WellFormed.linked (hf : f.WellFormed) : f.Linked :=
  ⟨hf.mem_children_iff, hf.nodup_children, hf.not_ancestor_self, hf.elementKey_lt, hf.recordKey_lt,
    hf.lt_of_mem_record⟩

/-- Two forests have the same nodes and metadata, and elements with the same numbers. -/
structure Alike (f g : Forest) : Prop where
  nodes_eq : g.nodes = f.nodes
  size_elements_eq : g.elements.size = f.elements.size
  records_eq : g.records = f.records

namespace Alike

variable (hfg : f.Alike g)

include hfg

theorem symm : g.Alike f :=
  ⟨hfg.nodes_eq.symm, hfg.size_elements_eq.symm, hfg.records_eq.symm⟩

theorem size_eq : g.size = f.size := by
  rw [size, size, hfg.nodes_eq]

theorem children_eq (n : NodeId) : g.children n = f.children n := by
  rw [children, children, hfg.nodes_eq]

theorem parent?_eq (n : NodeId) : g.parent? n = f.parent? n := by
  rw [parent?, parent?, hfg.nodes_eq]

theorem elementKey_eq (n : NodeId) : g.elementKey n = f.elementKey n := by
  rw [elementKey, elementKey, hfg.nodes_eq]

theorem recordKey_eq (n : NodeId) : g.recordKey n = f.recordKey n := by
  rw [recordKey, recordKey, hfg.nodes_eq]

theorem metadata_eq (n : NodeId) : g.metadata n = f.metadata n := by
  rw [metadata, metadata, hfg.recordKey_eq, hfg.records_eq]

theorem linked (hf : f.Linked) : g.Linked where
  mem_children_iff p c := by
    rw [hfg.children_eq, hfg.parent?_eq]
    exact hf.mem_children_iff p c
  nodup_children p := by
    rw [hfg.children_eq]
    exact hf.nodup_children p
  not_ancestor_self n hn := by
    refine hf.not_ancestor_self n (ancestor_of_parent?_imp (fun m p hp => ?_) hn)
    rwa [hfg.parent?_eq] at hp
  elementKey_lt n hn := by
    rw [hfg.elementKey_eq, hfg.size_elements_eq]
    exact hf.elementKey_lt n (hfg.size_eq ▸ hn)
  recordKey_lt n hn := by
    rw [hfg.recordKey_eq, hfg.records_eq]
    exact hf.recordKey_lt n (hfg.size_eq ▸ hn)
  lt_of_mem_record r entries hr c hc := by
    rw [hfg.records_eq] at hr
    rw [hfg.size_eq]
    exact hf.lt_of_mem_record r entries hr c hc

theorem lineage_eq (n : NodeId) : g.lineage n = f.lineage n := by
  have hwithin (fuel : Nat) : g.lineageWithin fuel n = f.lineageWithin fuel n := by
    induction fuel generalizing n with
    | zero => rfl
    | succ fuel ih =>
        rw [lineageWithin, lineageWithin, hfg.parent?_eq]
        cases f.parent? n with
        | none => rfl
        | some p => exact congrArg (n :: ·) (ih p)
  rw [lineage, lineage, hfg.size_eq, hwithin]

theorem enoughFor_iff : g.EnoughFor n depth ↔ f.EnoughFor n depth := by
  rw [EnoughFor, EnoughFor, hfg.size_eq, hfg.lineage_eq]

theorem preorder_eq (n : NodeId) : g.preorder n = f.preorder n := by
  have hwithin (depth : Nat) : g.preorderWithin depth n = f.preorderWithin depth n := by
    induction depth generalizing n with
    | zero => rfl
    | succ depth ih =>
        rw [preorderWithin, preorderWithin, hfg.children_eq]
        exact congrArg (n :: ·) (List.flatMap_congr fun c _ => ih c)
  rw [preorder, preorder, hfg.size_eq, hwithin]

theorem neighbours_eq (n : NodeId) : g.neighbours n = f.neighbours n := by
  rw [neighbours, neighbours, hfg.parent?_eq, hfg.children_eq, hfg.metadata_eq]

theorem reach_eq (start : List NodeId) : g.reach start = f.reach start := by
  have hwithin (steps : Nat) (seen frontier : List NodeId) :
      g.reachWithin steps seen frontier = f.reachWithin steps seen frontier := by
    induction steps generalizing seen frontier with
    | zero => rfl
    | succ steps ih =>
        rw [reachWithin, reachWithin, funext hfg.neighbours_eq]
        simp only [ih]
  rw [reach, reach, hwithin, hfg.size_eq]

/-- Metadata are copied in the same way. -/
theorem copyRecord (record : Nat) : (f.copyRecord record).2.Alike (g.copyRecord record).2 := by
  constructor <;>
  simp only [Forest.copyRecord, hfg.reach_eq, hfg.nodes_eq, hfg.records_eq, hfg.size_elements_eq,
    hfg.elementKey_eq, hfg.recordKey_eq, funext hfg.parent?_eq, funext hfg.children_eq,
    funext hfg.elementKey_eq, funext hfg.recordKey_eq, Array.size_append, List.size_toArray,
    List.length_map]

theorem addRoot (element record : Nat) :
    (f.addRoot element record).2.Alike (g.addRoot element record).2 where
  nodes_eq := by simp only [Forest.addRoot, hfg.nodes_eq]
  size_elements_eq := hfg.size_elements_eq
  records_eq := hfg.records_eq

theorem updateNode (n : NodeId) (change : Node → Node) :
    (f.updateNode n change).Alike (g.updateNode n change) where
  nodes_eq := by simp only [Forest.updateNode, hfg.nodes_eq]
  size_elements_eq := hfg.size_elements_eq
  records_eq := hfg.records_eq

theorem adopt (p : NodeId) (nodes : List NodeId) :
    (Forest.adopt p nodes f).Alike (Forest.adopt p nodes g) := by
  induction nodes generalizing f g with
  | nil => exact hfg
  | cons n nodes ih => exact ih (hfg.updateNode n _)

end Alike

mutual

/-- Trees are planted in the same way. -/
theorem alike_plant : ∀ (d : Draft) (f g : Forest), f.Alike g →
    (plant d g).1 = (plant d f).1 ∧ (plant d f).2.Alike (plant d g).2
  | .node element record children, f, g, hfg => by
      obtain ⟨hroots, hbelow⟩ := alike_plantAll children f g hfg
      refine ⟨hbelow.size_eq, ?_⟩
      change (((plantAll children f).2.addRoot element record).2.attach (plantAll children f).2.size
          (plantAll children f).1 (plantAll children f).1).Alike
        (((plantAll children g).2.addRoot element record).2.attach (plantAll children g).2.size
          (plantAll children g).1 (plantAll children g).1)
      rw [hroots, hbelow.size_eq]
      exact ((hbelow.addRoot element record).updateNode _ _).adopt _ _

theorem alike_plantAll : ∀ (ds : List Draft) (f g : Forest), f.Alike g →
    (plantAll ds g).1 = (plantAll ds f).1 ∧ (plantAll ds f).2.Alike (plantAll ds g).2
  | [], _, _, hfg => ⟨rfl, hfg⟩
  | d :: ds, f, g, hfg => by
      obtain ⟨hroot, hfirst⟩ := alike_plant d f g hfg
      obtain ⟨hroots, hrest⟩ := alike_plantAll ds _ _ hfirst
      exact ⟨congrArg₂ List.cons hroot hroots, hrest⟩

end

def quoted (f : Forest) : Forest :=
  { f with elements := f.elements.map fun _ => ⟨.blockQuote, []⟩ }

theorem alike_quoted (f : Forest) : f.Alike f.quoted :=
  ⟨rfl, Array.size_map, rfl⟩

theorem kindAt_quoted {key : Nat} (hk : key < f.elements.size) :
    f.quoted.kindAt key = .blockQuote := by
  simp [kindAt, quoted, hk]

namespace Linked

theorem quoted (hf : f.Linked) : f.quoted.WellFormed := by
  have hq := (alike_quoted f).linked hf
  have hkind (n : NodeId) (hn : n < f.size) : f.quoted.kind n = .blockQuote :=
    kindAt_quoted (hf.elementKey_lt n hn)
  refine ⟨hq.mem_children_iff, hq.nodup_children, hq.not_ancestor_self, fun p c hc => ?_,
    hq.elementKey_lt, hq.recordKey_lt, hq.lt_of_mem_record⟩
  rw [hkind p (lt_size_of_mem_children hc),
    hkind c (lt_size_of_parent? ((hq.mem_children_iff p c).1 hc))]
  rfl

section
variable (hf : f.Linked)
include hf

theorem parent?_of_mem (hc : c ∈ f.children p) : f.parent? c = some p :=
  (hf.mem_children_iff p c).1 hc

theorem lt_size_of_mem (hc : c ∈ f.children p) : c < f.size :=
  lt_size_of_parent? (hf.parent?_of_mem hc)

theorem preorder_eq (n : NodeId) : f.preorder n = n :: (f.children n).flatMap f.preorder := by
  have hquoted := hf.quoted.preorder_eq n
  rwa [(alike_quoted f).preorder_eq, funext (alike_quoted f).preorder_eq] at hquoted

theorem nodup_preorder (n : NodeId) : (f.preorder n).Nodup := by
  have hquoted := hf.quoted.nodup_preorder n
  rwa [(alike_quoted f).preorder_eq] at hquoted

theorem enoughFor_child (hc : c ∈ f.children n) (h : f.EnoughFor n (depth + 1)) :
    f.EnoughFor c depth :=
  (alike_quoted f).enoughFor_iff.1 (((alike_quoted f).enoughFor_iff.2 h).child hf.quoted hc)

end

theorem addElement (hf : f.Linked) (element : Element) : (f.addElement element).Linked where
  mem_children_iff := hf.mem_children_iff
  nodup_children := hf.nodup_children
  not_ancestor_self n hn := by
    refine hf.not_ancestor_self n (ancestor_of_parent?_imp (fun m p hp => ?_) hn)
    exact hp
  elementKey_lt n hn := by
    change f.elementKey n < (f.elements.push element).size
    rw [Array.size_push]
    exact Nat.lt_succ_of_lt (hf.elementKey_lt n hn)
  recordKey_lt := hf.recordKey_lt
  lt_of_mem_record := hf.lt_of_mem_record

theorem copyRecord (hf : f.Linked) (record : Nat) : (f.copyRecord record).2.Linked :=
  ((alike_quoted f).copyRecord record).symm.linked
    (carriesOn_copyRecord hf.quoted record).wellFormed.linked

end Linked

/-- The elements and the metadata records of a draft exist. -/
inductive Draft.InRange (f : Forest) : Draft → Prop
  | node {element record : Nat} {children : List Draft} (helement : element < f.elements.size)
      (hrecord : record < f.records.size) (hchildren : ∀ d ∈ children, Draft.InRange f d) :
      Draft.InRange f (.node element record children)

theorem Draft.InRange.sound (hd : d.InRange f) : d.Sound f.quoted := by
  induction hd with
  | node helement hrecord hchildren ih =>
      have hsize := (alike_quoted f).size_elements_eq
      refine .node (hsize ▸ helement) hrecord ih fun d hd => ?_
      rw [kindAt_quoted helement, kindAt_quoted (hsize ▸ (ih d hd).element_lt)]
      rfl

/-- Drafts are planted as new trees, whatever their elements are. -/
theorem Linked.plantAll (hf : f.Linked) (hd : ∀ d ∈ ds, d.InRange f) :
    (plantAll ds f).2.Linked ∧ ∀ n ∈ (plantAll ds f).1,
      f.size ≤ n ∧ n < (plantAll ds f).2.size ∧ (plantAll ds f).2.parent? n = none := by
  obtain ⟨hroots, halike⟩ := alike_plantAll ds f f.quoted (alike_quoted f)
  have hplanted := planted_plantAll ds f.quoted hf.quoted fun d hmem => (hd d hmem).sound
  refine ⟨halike.symm.linked hplanted.wellFormed.linked, fun n hn => ?_⟩
  have hnew := hplanted.new n (hroots.symm ▸ hn)
  rwa [halike.size_eq, halike.parent?_eq] at hnew

end MarkdownTree.Forest
