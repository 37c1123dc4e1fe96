import MarkdownTree.Proofs.MatchingCopies

/-!
Regions of a forest that nothing outside refers to. What starts outside such a region never gets in:
links, elements and metadata only lead to what is outside, and whatever is made is new. So every
operation on nodes outside leaves the region as it was, and nothing outside refers to it afterwards.
-/

namespace MarkdownTree

/-- Some of the nodes, the elements and the metadata records of a forest. -/
structure Region where
  node : NodeId → Prop
  element : Nat → Prop
  record : Nat → Prop

namespace Forest

variable {P : Region} {f g h : Forest} {c n p : NodeId} {element record : Nat} {nodes : List NodeId}
  {metadata : Entries}

/-- A node that exists and is not in a region. -/
structure Outside (P : Region) (f : Forest) (n : NodeId) : Prop where
  lt_size : n < f.size
  not_mem : ¬ P.node n

/-- The element with a number exists and is not in a region. -/
structure ElementOutside (P : Region) (f : Forest) (key : Nat) : Prop where
  lt_size : key < f.elements.size
  not_mem : ¬ P.element key

/-- The metadata record with a number exists and is not in a region. -/
structure RecordOutside (P : Region) (f : Forest) (key : Nat) : Prop where
  lt_size : key < f.records.size
  not_mem : ¬ P.record key

/-- What a node is linked to, its element and its metadata record are outside a region. -/
structure Apart (P : Region) (f : Forest) (node : Node) : Prop where
  element : f.ElementOutside P node.element
  parent (p : NodeId) (hp : node.parent = some p) : f.Outside P p
  children (c : NodeId) (hc : c ∈ node.children) : f.Outside P c
  record : f.RecordOutside P node.record

/-- A region of what exists is fenced if nothing outside refers to it. -/
structure Fenced (P : Region) (f : Forest) : Prop where
  node_lt (n : NodeId) (hn : P.node n) : n < f.size
  element_lt (key : Nat) (hk : P.element key) : key < f.elements.size
  record_lt (key : Nat) (hk : P.record key) : key < f.records.size
  apart (n : NodeId) (node : Node) (hnode : f.nodes[n]? = some node) (hn : ¬ P.node n) :
    f.Apart P node
  entries (key : Nat) (entries : Entries) (hr : f.records[key]? = some entries)
    (hk : ¬ P.record key) (c : NodeId) (hc : c ∈ Value.nodesEntries entries) : f.Outside P c

/-- `Spares P f g` says that a fenced region is the same in `g` as in `f`, and still fenced, and
that nothing is gone. -/
structure Spares (P : Region) (f g : Forest) : Prop where
  fenced : g.Fenced P
  size_le : f.size ≤ g.size
  elements_le : f.elements.size ≤ g.elements.size
  records_le : f.records.size ≤ g.records.size
  node_eq (n : NodeId) (hn : P.node n) : g.nodes[n]? = f.nodes[n]?
  element_eq (key : Nat) (hk : P.element key) : g.elements[key]? = f.elements[key]?
  record_eq (key : Nat) (hk : P.record key) : g.records[key]? = f.records[key]?

namespace Spares

theorem refl (hf : f.Fenced P) : f.Spares P f :=
  ⟨hf, Nat.le_refl _, Nat.le_refl _, Nat.le_refl _, fun _ _ => rfl, fun _ _ => rfl, fun _ _ => rfl⟩

theorem trans (hfg : f.Spares P g) (hgh : g.Spares P h) : f.Spares P h where
  fenced := hgh.fenced
  size_le := Nat.le_trans hfg.size_le hgh.size_le
  elements_le := Nat.le_trans hfg.elements_le hgh.elements_le
  records_le := Nat.le_trans hfg.records_le hgh.records_le
  node_eq n hn := (hgh.node_eq n hn).trans (hfg.node_eq n hn)
  element_eq key hk := (hgh.element_eq key hk).trans (hfg.element_eq key hk)
  record_eq key hk := (hgh.record_eq key hk).trans (hfg.record_eq key hk)

end Spares

theorem Outside.mono (hn : f.Outside P n) (hle : f.size ≤ g.size) : g.Outside P n :=
  ⟨Nat.lt_of_lt_of_le hn.lt_size hle, hn.not_mem⟩

theorem Apart.mono {node : Node} (h : f.Apart P node) (hsize : f.size ≤ g.size)
    (helements : f.elements.size ≤ g.elements.size) (hrecords : f.records.size ≤ g.records.size) :
    g.Apart P node where
  element := ⟨Nat.lt_of_lt_of_le h.element.lt_size helements, h.element.not_mem⟩
  parent p hp := (h.parent p hp).mono hsize
  children c hc := (h.children c hc).mono hsize
  record := ⟨Nat.lt_of_lt_of_le h.record.lt_size hrecords, h.record.not_mem⟩

theorem exists_node (hn : n < f.size) : ∃ node, f.nodes[n]? = some node :=
  ⟨_, Array.getElem?_eq_getElem hn⟩

namespace Fenced

variable (hf : f.Fenced P)

include hf

theorem outside_of_parent? (hn : f.Outside P n) (hp : f.parent? n = some p) : f.Outside P p := by
  obtain ⟨node, hnode, hparent⟩ := Option.bind_eq_some_iff.1 hp
  exact (hf.apart n node hnode hn.not_mem).parent p hparent

theorem outside_of_mem_children (hn : f.Outside P n) (hc : c ∈ f.children n) : f.Outside P c := by
  obtain ⟨node, hnode⟩ := exists_node hn.lt_size
  rw [children, hnode] at hc
  exact (hf.apart n _ hnode hn.not_mem).children c hc

theorem elementOutside (hn : f.Outside P n) : f.ElementOutside P (f.elementKey n) := by
  obtain ⟨node, hnode⟩ := exists_node hn.lt_size
  rw [elementKey, hnode]
  exact (hf.apart n _ hnode hn.not_mem).element

theorem recordOutside (hn : f.Outside P n) : f.RecordOutside P (f.recordKey n) := by
  obtain ⟨node, hnode⟩ := exists_node hn.lt_size
  rw [recordKey, hnode]
  exact (hf.apart n _ hnode hn.not_mem).record

theorem outside_of_mem_record (hr : f.RecordOutside P record)
    (hc : c ∈ Value.nodesEntries (f.records[record]?.getD [])) : f.Outside P c := by
  obtain ⟨entries, hentries⟩ : ∃ entries, f.records[record]? = some entries :=
    ⟨_, Array.getElem?_eq_getElem hr.lt_size⟩
  rw [hentries] at hc
  exact hf.entries record _ hentries hr.not_mem c hc

theorem outside_of_mem_metadata (hn : f.Outside P n)
    (hc : c ∈ Value.nodesEntries (f.metadata n)) : f.Outside P c :=
  hf.outside_of_mem_record (hf.recordOutside hn) hc

theorem outside_of_mem_neighbours (hn : f.Outside P n) (hc : c ∈ f.neighbours n) :
    f.Outside P c := by
  simp only [neighbours, List.mem_append, Option.mem_toList] at hc
  rcases hc with (hc | hc) | hc
  · exact hf.outside_of_parent? hn hc
  · exact hf.outside_of_mem_children hn hc
  · exact hf.outside_of_mem_metadata hn hc

/-- A change spares a fenced region if it leaves it as it is and what it does outside leads to what
is outside. -/
theorem spares (hsize : f.size ≤ g.size) (helements : f.elements.size ≤ g.elements.size)
    (hrecords : f.records.size ≤ g.records.size)
    (hnode : ∀ n, P.node n → g.nodes[n]? = f.nodes[n]?)
    (helement : ∀ key, P.element key → g.elements[key]? = f.elements[key]?)
    (hrecord : ∀ key, P.record key → g.records[key]? = f.records[key]?)
    (hapart : ∀ n node, g.nodes[n]? = some node → ¬ P.node n →
      f.nodes[n]? = some node ∨ g.Apart P node)
    (hentries : ∀ (key : Nat) (entries : Entries), g.records[key]? = some entries →
      ¬ P.record key → f.records[key]? = some entries ∨
        ∀ c ∈ Value.nodesEntries entries, g.Outside P c) : f.Spares P g where
  fenced :=
    { node_lt := fun n hn => Nat.lt_of_lt_of_le (hf.node_lt n hn) hsize
      element_lt := fun key hk => Nat.lt_of_lt_of_le (hf.element_lt key hk) helements
      record_lt := fun key hk => Nat.lt_of_lt_of_le (hf.record_lt key hk) hrecords
      apart := fun n node hg hn => by
        rcases hapart n node hg hn with hold | hnew
        · exact (hf.apart n node hold hn).mono hsize helements hrecords
        · exact hnew
      entries := fun key entries hg hk c hc => by
        rcases hentries key entries hg hk with hold | hnew
        · exact (hf.entries key entries hold hk c hc).mono hsize
        · exact hnew c hc }
  size_le := hsize
  elements_le := helements
  records_le := hrecords
  node_eq := hnode
  element_eq := helement
  record_eq := hrecord

theorem updateNode (hn : ¬ P.node n) (change : Node → Node)
    (hchange : ∀ node, f.nodes[n]? = some node → f.Apart P (change node)) :
    f.Spares P (f.updateNode n change) := by
  have hget (m : NodeId) : (f.updateNode n change).nodes[m]? =
      if n = m then f.nodes[m]?.map change else f.nodes[m]? := Array.getElem?_modify
  have hle : f.size ≤ (f.updateNode n change).size := Nat.le_of_eq Array.size_modify.symm
  refine hf.spares hle (Nat.le_refl _) (Nat.le_refl _) (fun m hm => ?_) (fun _ _ => rfl)
    (fun _ _ => rfl) (fun m node hnode _ => ?_) fun _ _ hr _ => Or.inl hr
  · rw [hget, if_neg]
    rintro rfl
    exact hn hm
  · rw [hget] at hnode
    split at hnode
    · rename_i hnm
      subst hnm
      obtain ⟨old, hold, rfl⟩ := Option.map_eq_some_iff.1 hnode
      exact Or.inr ((hchange old hold).mono hle (Nat.le_refl _) (Nat.le_refl _))
    · exact Or.inl hnode

theorem setChildren (hn : f.Outside P n) {list : List NodeId} (hlist : ∀ c ∈ list, f.Outside P c) :
    f.Spares P (f.setChildren n list) :=
  hf.updateNode hn.not_mem _ fun node hnode =>
    { hf.apart n node hnode hn.not_mem with children := hlist }

theorem setParent (hn : f.Outside P n) {parent : Option NodeId}
    (hparent : ∀ p, parent = some p → f.Outside P p) : f.Spares P (f.setParent n parent) :=
  hf.updateNode hn.not_mem _ fun node hnode =>
    { hf.apart n node hnode hn.not_mem with parent := hparent }

theorem adopt (hp : f.Outside P p) (hnodes : ∀ n ∈ nodes, f.Outside P n) :
    f.Spares P (Forest.adopt p nodes f) := by
  induction nodes generalizing f with
  | nil => exact .refl hf
  | cons n nodes ih =>
      have hfirst : f.Spares P (f.setParent n (some p)) := by
        refine hf.setParent (hnodes n List.mem_cons_self) fun q hq => ?_
        cases hq
        exact hp
      refine hfirst.trans (ih hfirst.fenced (hp.mono hfirst.size_le) fun m hm => ?_)
      exact (hnodes m (List.mem_cons_of_mem n hm)).mono hfirst.size_le

theorem attach (hp : f.Outside P p) (hnodes : ∀ n ∈ nodes, f.Outside P n) {list : List NodeId}
    (hlist : ∀ n ∈ list, f.Outside P n) : f.Spares P (f.attach p nodes list) := by
  have hfirst := hf.setChildren hp hlist
  exact hfirst.trans (hfirst.fenced.adopt (hp.mono hfirst.size_le) fun n hn =>
    (hnodes n hn).mono hfirst.size_le)

theorem not_node_size : ¬ P.node f.size :=
  fun h => Nat.lt_irrefl _ (hf.node_lt _ h)

theorem addRoot (he : f.ElementOutside P element) (hr : f.RecordOutside P record) :
    f.Spares P (f.addRoot element record).2 ∧ (f.addRoot element record).2.Outside P f.size := by
  have hlast := lt_size_addRoot f element record
  refine ⟨hf.spares (Nat.le_of_lt hlast) (Nat.le_refl _) (Nat.le_refl _) (fun m hm => ?_)
    (fun _ _ => rfl) (fun _ _ => rfl) (fun m node hnode _ => ?_) (fun _ _ hr _ => Or.inl hr),
    hlast, hf.not_node_size⟩
  · exact (within_addRoot f element record).node_eq m (hf.node_lt m hm)
  · change (f.nodes.push _)[m]? = _ at hnode
    rw [Array.getElem?_push] at hnode
    split at hnode
    · cases hnode
      exact Or.inr ⟨⟨he.lt_size, he.not_mem⟩, nofun, nofun, ⟨hr.lt_size, hr.not_mem⟩⟩
    · exact Or.inl hnode

theorem addElement (e : Element) :
    f.Spares P (f.addElement e) ∧ (f.addElement e).ElementOutside P f.elements.size := by
  have hsize : (f.addElement e).elements.size = f.elements.size + 1 := by simp [Forest.addElement]
  refine ⟨hf.spares (Nat.le_refl _) (by omega) (Nat.le_refl _) (fun _ _ => rfl) (fun key hk => ?_)
    (fun _ _ => rfl) (fun _ _ hnode _ => Or.inl hnode) fun _ _ hr _ => Or.inl hr, by omega,
    fun h => Nat.lt_irrefl _ (hf.element_lt _ h)⟩
  exact (within_addElement f e).elements_eq key (hf.element_lt key hk)

theorem addRecord (hmeta : ∀ c ∈ Value.nodesEntries metadata, f.Outside P c) :
    f.Spares P (f.addRecord metadata) ∧ (f.addRecord metadata).RecordOutside P f.records.size := by
  have hsize : (f.addRecord metadata).records.size = f.records.size + 1 := by
    simp [Forest.addRecord]
  refine ⟨hf.spares (Nat.le_refl _) (Nat.le_refl _) (by omega) (fun _ _ => rfl) (fun _ _ => rfl)
    (fun key hk => ?_) (fun _ _ hnode _ => Or.inl hnode) fun key entries hr _ => ?_, by omega,
    fun h => Nat.lt_irrefl _ (hf.record_lt _ h)⟩
  · have hlt := hf.record_lt key hk
    change (f.records.push metadata)[key]? = _
    rw [Array.getElem?_push_lt hlt, Array.getElem?_eq_getElem hlt]
  · change (f.records.push metadata)[key]? = _ at hr
    rw [Array.getElem?_push] at hr
    split at hr
    · cases hr
      exact Or.inr fun c hc => (hmeta c hc).mono (Nat.le_refl _)
    · exact Or.inl hr

theorem addNode (e : Element) (hmeta : ∀ c ∈ Value.nodesEntries metadata, f.Outside P c) :
    f.Spares P (f.addNode e metadata).2 ∧ (f.addNode e metadata).2.Outside P f.size := by
  obtain ⟨helement, hkey⟩ := hf.addElement e
  obtain ⟨hrecord, hnew⟩ := helement.fenced.addRecord fun c hc => (hmeta c hc).mono helement.size_le
  obtain ⟨hroot, hn⟩ := hrecord.fenced.addRoot ⟨hkey.lt_size, hkey.not_mem⟩ hnew
  exact ⟨(helement.trans hrecord).trans hroot, hn⟩

theorem addNode_nil (e : Element) :
    f.Spares P (f.addNode e []).2 ∧ (f.addNode e []).2.Outside P f.size :=
  hf.addNode e nofun

theorem updateElement (hn : f.Outside P n) (e : Element) : f.Spares P (f.updateElement n e) := by
  have hsize : (f.updateElement n e).elements.size = f.elements.size := by
    simp [Forest.updateElement]
  refine hf.spares (Nat.le_refl _) (by omega) (Nat.le_refl _) (fun _ _ => rfl) (fun key hk => ?_)
    (fun _ _ => rfl) (fun _ _ hnode _ => Or.inl hnode) fun _ _ hr _ => Or.inl hr
  have hne : f.elementKey n ≠ key := fun heq => (hf.elementOutside hn).not_mem (heq ▸ hk)
  simp [Forest.updateElement, hne]

theorem updateMetadata (hn : f.Outside P n) (change : Entries → Entries)
    (hchange : ∀ c ∈ Value.nodesEntries (change (f.metadata n)), f.Outside P c) :
    f.Spares P (f.updateMetadata n change) := by
  have hsize : (f.updateMetadata n change).records.size = f.records.size := by
    simp [Forest.updateMetadata]
  have hget (key : Nat) : (f.updateMetadata n change).records[key]? =
      if f.recordKey n = key then f.records[key]?.map change else f.records[key]? :=
    Array.getElem?_modify
  refine hf.spares (Nat.le_refl _) (Nat.le_refl _) (by omega) (fun _ _ => rfl) (fun _ _ => rfl)
    (fun key hk => ?_) (fun _ _ hnode _ => Or.inl hnode) fun key entries hr _ => ?_
  · rw [hget, if_neg]
    rintro rfl
    exact (hf.recordOutside hn).not_mem hk
  · rw [hget] at hr
    split at hr
    · rename_i heq
      subst heq
      obtain ⟨old, hold, rfl⟩ := Option.map_eq_some_iff.1 hr
      rw [metadata, hold] at hchange
      exact Or.inr fun c hc => (hchange c hc).mono (Nat.le_refl _)
    · exact Or.inl hr

end Fenced

theorem forall_reachWithin {Q : NodeId → Prop} (hstep : ∀ n, Q n → ∀ m ∈ f.neighbours n, Q m)
    {seen frontier : List NodeId} (hseen : ∀ n ∈ seen, Q n) (hfrontier : ∀ n ∈ frontier, Q n)
    (steps : Nat) : ∀ n ∈ f.reachWithin steps seen frontier, Q n := by
  induction steps generalizing seen frontier with
  | zero => exact hseen
  | succ steps ih =>
      change ∀ n ∈ (if (unseen seen frontier).isEmpty then seen else
        f.reachWithin steps (seen ++ unseen seen frontier)
          ((unseen seen frontier).flatMap f.neighbours)), Q n
      have hnew : ∀ n ∈ unseen seen frontier, Q n := fun n hn => hfrontier n (mem_unseen.1 hn).1
      split
      · exact hseen
      · refine ih (fun n hn => ?_) fun n hn => ?_
        · exact (List.mem_append.1 hn).elim (hseen n) (hnew n)
        · obtain ⟨m, hm, hmn⟩ := List.mem_flatMap.1 hn
          exact hstep m (hnew m hm) n hmn

/-- A record among the copies is the copy of one of the records that are copied. -/
theorem exists_of_records_copyRecord {key : Nat} {entries : Entries}
    (hr : (f.copyRecord record).2.records[key]? = some entries) :
    f.records[key]? = some entries ∨ ∃ r ∈ f.recordRecords record, entries =
      Value.mapNodesEntries (renumber (f.recordNodes record) f.size) (f.records[r]?.getD []) := by
  change (f.records ++ _)[key]? = _ at hr
  rw [Array.getElem?_append] at hr
  split at hr
  · exact Or.inl hr
  · rw [List.getElem?_toArray, List.getElem?_map] at hr
    obtain ⟨r, hget, rfl⟩ := Option.map_eq_some_iff.1 hr
    exact Or.inr ⟨r, List.mem_of_getElem? hget, rfl⟩

/-- A node among the copies is the copy of one of the nodes that are copied. -/
theorem exists_of_nodes_copyRecord {node : Node}
    (hn : (f.copyRecord record).2.nodes[n]? = some node) :
    f.nodes[n]? = some node ∨ ∃ m ∈ f.recordNodes record, node =
      ⟨renumber (f.recordElements record) f.elements.size (f.elementKey m),
        (f.parent? m).map (renumber (f.recordNodes record) f.size),
        (f.children m).map (renumber (f.recordNodes record) f.size),
        renumber (f.recordRecords record) f.records.size (f.recordKey m)⟩ := by
  rcases Nat.lt_or_ge n f.size with hlt | hge
  · rw [nodes_copyRecord_old record hlt] at hn
    exact Or.inl hn
  · have hsize : (f.copyRecord record).2.size = f.size + (f.recordNodes record).length := by
      simp [copyRecord, recordNodes, size]
    have hlt : n < (f.copyRecord record).2.size := (Array.getElem?_eq_some_iff.1 hn).1
    rw [hsize] at hlt
    have hi : n - f.size < (f.recordNodes record).length := Nat.sub_lt_left_of_lt_add hge hlt
    have hm := List.getElem?_eq_getElem hi
    have hnew := nodes_copyRecord_new hm
    rw [Nat.add_sub_cancel' hge, hn] at hnew
    exact Or.inr ⟨_, List.mem_of_getElem? hm, Option.some.inj hnew⟩

/-- What is copied along with a record leads to what is copied too, or is outside. -/
structure Releases (P : Region) (f : Forest) (record : Nat) : Prop where
  start (c : NodeId) (hc : c ∈ Value.nodesEntries (f.records[record]?.getD [])) :
    c ∈ f.recordNodes record ∨ f.Outside P c
  onward (n : NodeId) (hn : n ∈ f.recordNodes record) (c : NodeId) (hc : c ∈ f.neighbours n) :
    c ∈ f.recordNodes record ∨ f.Outside P c

/-- In a well-formed forest everything within reach is copied. -/
theorem WellFormed.releases (hf : f.WellFormed) (P : Region) (record : Nat) :
    f.Releases P record := by
  have hlt : ∀ c ∈ Value.nodesEntries (f.records[record]?.getD []), c < f.size :=
    fun _ => hf.lt_of_mem_entries
  exact ⟨fun c hc => Or.inl ((reach_closed hf hlt).2 hc), fun n hn c hc =>
    Or.inl ((reach_closed hf hlt).1.mem_of_neighbours n hn c hc)⟩

namespace Fenced

variable (hf : f.Fenced P)

include hf

/-- What is within reach from outside is outside. -/
theorem releases (hr : f.RecordOutside P record) : f.Releases P record := by
  have hstart : ∀ c ∈ Value.nodesEntries (f.records[record]?.getD []), f.Outside P c :=
    fun c hc => hf.outside_of_mem_record hr hc
  have hall : ∀ n ∈ f.recordNodes record, f.Outside P n :=
    forall_reachWithin (fun n hn m hm => hf.outside_of_mem_neighbours hn hm) (by simp) hstart _
  exact ⟨fun c hc => Or.inr (hstart c hc), fun n hn c hc =>
    Or.inr (hf.outside_of_mem_neighbours (hall n hn) hc)⟩

theorem copyRecord (hr : f.Releases P record) :
    f.Spares P (f.copyRecord record).2 ∧
      (f.copyRecord record).2.RecordOutside P (f.copyRecord record).1 := by
  have hsize : (f.copyRecord record).2.size = f.size + (f.recordNodes record).length := by
    simp [Forest.copyRecord, recordNodes, size]
  have helements := size_elements_copyRecord f record
  have hrecords := size_records_copyRecord f record
  have hnode (c : NodeId) (hc : c ∈ f.recordNodes record ∨ f.Outside P c) :
      (f.copyRecord record).2.Outside P (renumber (f.recordNodes record) f.size c) := by
    by_cases hmem : c ∈ f.recordNodes record
    · refine ⟨by rw [hsize]; exact renumber_lt_of_mem hmem, fun hP => ?_⟩
      exact Nat.not_lt.2 (le_renumber hmem) (hf.node_lt _ hP)
    · rw [renumber_of_not_mem f.size hmem]
      exact (hc.resolve_left hmem).mono (by omega)
  have hrecord (r : Nat) (hmem : r ∈ f.recordRecords record) :
      (f.copyRecord record).2.RecordOutside P
        (renumber (f.recordRecords record) f.records.size r) :=
    ⟨by rw [hrecords]; exact renumber_lt_of_mem hmem,
      fun hP => Nat.not_lt.2 (le_renumber hmem) (hf.record_lt _ hP)⟩
  -- What was there stays as it is, and what is new leads to what was released or to new nodes.
  refine ⟨hf.spares (by omega) (by omega) (by omega) (fun m hm => ?_) (fun key hk => ?_)
    (fun key hk => ?_) (fun n node hn _ => ?_) fun key entries hentries _ => ?_,
    hrecord record (List.mem_eraseDups.2 List.mem_cons_self)⟩
  · exact nodes_copyRecord_old record (hf.node_lt m hm)
  · exact elements_copyRecord_old record (hf.element_lt key hk)
  · exact (within_copyRecord f record).records_eq key (hf.record_lt key hk)
  · rcases exists_of_nodes_copyRecord hn with hold | ⟨m, hm, rfl⟩
    · exact Or.inl hold
    have hkey := elementKey_mem_recordElements hm
    refine Or.inr ⟨⟨by rw [helements]; exact renumber_lt_of_mem hkey, fun hP =>
      Nat.not_lt.2 (le_renumber hkey) (hf.element_lt _ hP)⟩, fun p hp => ?_, fun c hc => ?_,
      hrecord _ (recordKey_mem_recordRecords hm)⟩
    · obtain ⟨q, hq, rfl⟩ := Option.map_eq_some_iff.1 hp
      exact hnode q (hr.onward m hm q (by simp [neighbours, hq]))
    · obtain ⟨b, hb, rfl⟩ := List.mem_map.1 hc
      exact hnode b (hr.onward m hm b (by simp [neighbours, hb]))
  · rcases exists_of_records_copyRecord hentries with hold | ⟨r, hmem, rfl⟩
    · exact Or.inl hold
    refine Or.inr fun c hc => ?_
    obtain ⟨b, hb, rfl⟩ := mem_nodesEntries_mapNodes _ hc
    rcases List.mem_cons.1 (List.mem_eraseDups.1 hmem) with rfl | hmem
    · exact hnode b (hr.start b hb)
    · obtain ⟨m, hm, rfl⟩ := List.mem_map.1 hmem
      exact hnode b (hr.onward m hm b (by simp [neighbours, metadata, hb]))

end Fenced

end Forest

end MarkdownTree
