import MarkdownTree.Proofs.LinkedForests

/-!
Nodes that metadata refer to. A copy of metadata refers to twins of these nodes instead: new nodes
that are linked among themselves as the others are, with equal elements and with metadata that refer
to twins in turn.
-/

namespace MarkdownTree.Forest

variable {f g h : Forest} {c m n record : Nat} {listed : List NodeId} {twin : NodeId → NodeId}

/-- `Duplicates f g listed twin` says that each listed node of `f` has a twin of its own in `g`, one
that is not in `f`, and that twins are like the nodes, but for referring to twins wherever the nodes
refer to nodes. All that can be reached from a listed node is listed. -/
structure Duplicates (f g : Forest) (listed : List NodeId) (twin : NodeId → NodeId) : Prop where
  closed : f.Closed listed
  inj (m : NodeId) (hm : m ∈ listed) (n : NodeId) (hn : n ∈ listed) (h : twin m = twin n) : m = n
  new (n : NodeId) (hn : n ∈ listed) : f.size ≤ twin n ∧ twin n < g.size
  parent?_eq (n : NodeId) (hn : n ∈ listed) : g.parent? (twin n) = (f.parent? n).map twin
  children_eq (n : NodeId) (hn : n ∈ listed) : g.children (twin n) = (f.children n).map twin
  element_eq (n : NodeId) (hn : n ∈ listed) : g.element (twin n) = f.element n
  metadata_eq (n : NodeId) (hn : n ∈ listed) :
    g.metadata (twin n) = Value.mapNodesEntries twin (f.metadata n)

namespace Within

variable (hfg : f.Within g) (hf : f.Linked)

include hfg hf

theorem linked_element_eq (hn : n < f.size) : g.element n = f.element n := by
  rw [Forest.element, Forest.element, hfg.elementKey_eq hn,
    hfg.elements_eq _ (hf.elementKey_lt n hn)]

theorem linked_metadata_eq (hn : n < f.size) : g.metadata n = f.metadata n := by
  rw [metadata, metadata, hfg.recordKey_eq hn, hfg.records_eq _ (hf.recordKey_lt n hn)]

theorem neighbours_eq (hn : n < f.size) : g.neighbours n = f.neighbours n := by
  rw [neighbours, neighbours, hfg.parent?_eq hn, hfg.children_eq hn,
    hfg.linked_metadata_eq hf hn]

end Within

theorem Duplicates.within (hg : g.Linked) (hdup : f.Duplicates g listed twin) (hgh : g.Within h) :
    f.Duplicates h listed twin where
  closed := hdup.closed
  inj := hdup.inj
  new n hn := ⟨(hdup.new n hn).1, Nat.lt_of_lt_of_le (hdup.new n hn).2 hgh.size_le⟩
  parent?_eq n hn := (hgh.parent?_eq (hdup.new n hn).2).trans (hdup.parent?_eq n hn)
  children_eq n hn := (hgh.children_eq (hdup.new n hn).2).trans (hdup.children_eq n hn)
  element_eq n hn := (hgh.linked_element_eq hg (hdup.new n hn).2).trans (hdup.element_eq n hn)
  metadata_eq n hn := (hgh.linked_metadata_eq hg (hdup.new n hn).2).trans (hdup.metadata_eq n hn)

theorem Linked.lt_of_mem_metadata (hf : f.Linked) (hc : c ∈ Value.nodesEntries (f.metadata n)) :
    c < f.size :=
  Forest.lt_of_mem_metadata (f := f.quoted) hf.quoted hc

theorem Linked.lt_of_mem_neighbours (hf : f.Linked) (hm : m ∈ f.neighbours n) : m < f.size :=
  lt_size_of_mem_neighbours (f := f.quoted) hf.quoted hm

theorem Linked.closed_recordNodes (hf : f.Linked) (record : Nat) :
    f.Closed (f.recordNodes record) := by
  have hsame : f.quoted.recordNodes record = f.recordNodes record := (alike_quoted f).reach_eq _
  have hquoted := Forest.closed_recordNodes hf.quoted record
  rw [hsame] at hquoted
  exact ⟨hquoted.nodup, hquoted.lt_size, hquoted.mem_of_neighbours⟩

/-- What metadata refer to is copied along. -/
theorem Linked.mem_recordNodes (hf : f.Linked)
    (hc : c ∈ Value.nodesEntries (f.records[record]?.getD [])) : c ∈ f.recordNodes record := by
  have hlt : ∀ c ∈ Value.nodesEntries (f.records[record]?.getD []), c < f.quoted.size :=
    fun _ => WellFormed.lt_of_mem_entries (f := f.quoted) hf.quoted
  have hsub := (reach_closed hf.quoted hlt).2 hc
  rwa [(alike_quoted f).reach_eq] at hsub

theorem records_copyRecord_new {i r : Nat} (hi : (f.recordRecords record)[i]? = some r) :
    (f.copyRecord record).2.records[f.records.size + i]? = some (Value.mapNodesEntries
      (renumber (f.recordNodes record) f.size) (f.records[r]?.getD [])) := by
  change (f.records ++ _)[f.records.size + i]? = _
  rw [Array.getElem?_append_right (Nat.le_add_right _ _), Nat.add_sub_cancel_left,
    List.getElem?_toArray, List.getElem?_map]
  change Option.map _ (f.recordRecords record)[i]? = _
  rw [hi]
  rfl

/-- What is copied along with a record has twins. -/
theorem Linked.duplicates_copyRecord (hf : f.Linked) (record : Nat) :
    f.Duplicates (f.copyRecord record).2 (f.recordNodes record)
      (renumber (f.recordNodes record) f.size) where
  closed := hf.closed_recordNodes record
  inj m hm n hn h := renumber_inj f.size hm hn h
  new n hn := by
    refine ⟨le_renumber hn, ?_⟩
    rw [show (f.copyRecord record).2.size = f.size + (f.recordNodes record).length by
      simp [Forest.copyRecord, recordNodes, size]]
    exact renumber_lt_of_mem hn
  parent?_eq n hn := by
    obtain ⟨i, hi, heq⟩ := exists_renumber f.size hn
    rw [heq, parent?, nodes_copyRecord_new hi]
    rfl
  children_eq n hn := by
    obtain ⟨i, hi, heq⟩ := exists_renumber f.size hn
    rw [heq, children, nodes_copyRecord_new hi]
  element_eq n hn := by
    obtain ⟨i, hi, heq⟩ := exists_renumber f.size hn
    obtain ⟨j, hj, hkey⟩ := exists_renumber f.elements.size (elementKey_mem_recordElements hn)
    rw [heq, Forest.element, elementKey, nodes_copyRecord_new hi]
    change (f.copyRecord record).2.elements[renumber _ _ _]?.getD default = _
    rw [hkey, elements_copyRecord_new hj]
    rfl
  metadata_eq n hn := by
    obtain ⟨i, hi, heq⟩ := exists_renumber f.size hn
    obtain ⟨j, hj, hkey⟩ := exists_renumber f.records.size (recordKey_mem_recordRecords hn)
    rw [heq, metadata, recordKey, nodes_copyRecord_new hi]
    change (f.copyRecord record).2.records[renumber _ _ _]?.getD [] = _
    rw [hkey, records_copyRecord_new hj]
    rfl

/-- In a forest that has grown, metadata of a node that was there lead to nodes that were there. -/
theorem Within.recordNodes_lt (hfg : f.Within g) (hf : f.Linked) (hn : n < f.size) :
    ∀ m ∈ g.recordNodes (g.recordKey n), m < f.size := by
  refine forall_reachWithin (fun m hm k hk => ?_) (by simp) (fun m hm => ?_) _
  · rw [hfg.neighbours_eq hf hm] at hk
    exact hf.lt_of_mem_neighbours hk
  · rw [← metadata, hfg.linked_metadata_eq hf hn] at hm
    exact hf.lt_of_mem_metadata hm

/-- What a copy of the metadata of a node consists of, in a forest that has grown since. -/
theorem Within.duplicates_copyRecord (hfg : f.Within g) (hf : f.Linked) (hg : g.Linked)
    (hn : n < f.size) :
    ∃ listed twin, f.Duplicates (g.copyRecord (g.recordKey n)).2 listed twin ∧
      (∀ m ∈ Value.nodesEntries (f.metadata n), m ∈ listed) ∧
      (g.copyRecord (g.recordKey n)).2.records[(g.copyRecord (g.recordKey n)).1]? =
        some (Value.mapNodesEntries twin (f.metadata n)) := by
  have hdup := hg.duplicates_copyRecord (g.recordKey n)
  have hlt := hfg.recordNodes_lt hf hn
  have hmetadata := hfg.linked_metadata_eq hf hn
  refine ⟨g.recordNodes (g.recordKey n), renumber (g.recordNodes (g.recordKey n)) g.size,
    ⟨⟨hdup.closed.nodup, hlt, fun m hm k hk => ?_⟩, hdup.inj, fun m hm => ?_, fun m hm => ?_,
      fun m hm => ?_, fun m hm => ?_, fun m hm => ?_⟩, fun m hm => ?_, ?_⟩
  · rw [← hfg.neighbours_eq hf (hlt m hm)] at hk
    exact hdup.closed.mem_of_neighbours m hm k hk
  · exact ⟨Nat.le_trans hfg.size_le (hdup.new m hm).1, (hdup.new m hm).2⟩
  · rw [hdup.parent?_eq m hm, hfg.parent?_eq (hlt m hm)]
  · rw [hdup.children_eq m hm, hfg.children_eq (hlt m hm)]
  · rw [hdup.element_eq m hm, hfg.linked_element_eq hf (hlt m hm)]
  · rw [hdup.metadata_eq m hm, hfg.linked_metadata_eq hf (hlt m hm)]
  · refine hg.mem_recordNodes ?_
    rw [← metadata, hmetadata]
    exact hm
  · have hrecord : g.recordKey n ∈ g.recordRecords (g.recordKey n) :=
      List.mem_eraseDups.2 List.mem_cons_self
    obtain ⟨i, hi, heq⟩ := exists_renumber g.records.size hrecord
    change _[renumber (g.recordRecords (g.recordKey n)) g.records.size (g.recordKey n)]? = _
    rw [heq, records_copyRecord_new hi, ← metadata, hmetadata]

end MarkdownTree.Forest
