import MarkdownTree.Forest.Assign
import MarkdownTree.Proofs.Replacing

/-!
Operations that add to a forest or change its data: nodes, elements and metadata that exist are
never taken away, and the kind of an element never changes. An operation that keeps all this and
ends in a well-formed forest is said to carry the forest on.
-/

namespace MarkdownTree.Forest

variable {f g h : Forest} {c m n p : NodeId} {v : Value} {values : List Value}

/-- `CarriesOn f g` says that `g` is well-formed and has the nodes and elements of `f`, with
elements of the same kinds, and possibly more. -/
structure CarriesOn (f g : Forest) : Prop where
  wellFormed : g.WellFormed
  size_le : f.size ≤ g.size
  elements_le : f.elements.size ≤ g.elements.size
  records_le : f.records.size ≤ g.records.size
  kindAt_eq (key : Nat) (hk : key < f.elements.size) : g.kindAt key = f.kindAt key

namespace CarriesOn

theorem refl (hf : f.WellFormed) : f.CarriesOn f :=
  ⟨hf, Nat.le_refl _, Nat.le_refl _, Nat.le_refl _, fun _ _ => rfl⟩

theorem trans (hfg : f.CarriesOn g) (hgh : g.CarriesOn h) : f.CarriesOn h where
  wellFormed := hgh.wellFormed
  size_le := Nat.le_trans hfg.size_le hgh.size_le
  elements_le := Nat.le_trans hfg.elements_le hgh.elements_le
  records_le := Nat.le_trans hfg.records_le hgh.records_le
  kindAt_eq key hk := by
    rw [hgh.kindAt_eq key (Nat.lt_of_lt_of_le hk hfg.elements_le), hfg.kindAt_eq key hk]

theorem known (hfg : f.CarriesOn g) (hv : f.Known v) : g.Known v :=
  fun c hc => Nat.lt_of_lt_of_le (hv c hc) hfg.size_le

end CarriesOn

theorem Relinked.carriesOn (hfg : f.Relinked g) : f.CarriesOn g where
  wellFormed := hfg.wellFormed
  size_le := Nat.le_of_eq hfg.sameData.size_eq.symm
  elements_le := Nat.le_of_eq (by rw [hfg.sameData.elements_eq])
  records_le := Nat.le_of_eq (by rw [hfg.sameData.records_eq])
  kindAt_eq key _ := by rw [kindAt, kindAt, hfg.sameData.elements_eq]

theorem Relinked.known (hfg : f.Relinked g) (hv : f.Known v) : g.Known v :=
  fun c hc => by rw [hfg.sameData.size_eq]; exact hv c hc

theorem carriesOn_addNode (hf : f.WellFormed) (element : Element) {metadata : Entries}
    (hmeta : ∀ c ∈ Value.nodesEntries metadata, c < f.size) :
    f.CarriesOn (f.addNode element metadata).2 where
  wellFormed := hf.addNode f element metadata hmeta
  size_le := by simp [addNode, addRoot, addElement, addRecord, size]
  elements_le := by simp [addNode, addRoot, addElement, addRecord]
  records_le := by simp [addNode, addRoot, addElement, addRecord]
  kindAt_eq key hk := kindAt_addElement f element key hk

theorem carriesOn_addElement (hf : f.WellFormed) (element : Element) :
    f.CarriesOn (f.addElement element) where
  wellFormed := hf.addElement f element
  size_le := Nat.le_refl _
  elements_le := by simp [addElement]
  records_le := Nat.le_refl _
  kindAt_eq key hk := kindAt_addElement f element key hk

theorem relinked_appendAll (hf : f.WellFormed) (hp : p < f.size)
    (hv : ∀ v ∈ values, f.Known v) : f.Relinked (outcome (appendAll p values) f).2 := by
  induction values generalizing f with
  | nil => exact .refl hf
  | cons v values ih =>
      rw [appendAll, outcome_bind]
      have hfirst := relinked_appendChild hf hp (hv v List.mem_cons_self)
      rcases hout : outcome (appendChild p v) f with ⟨_ | _, g⟩
      · rw [hout] at hfirst
        exact hfirst
      · rw [hout] at hfirst
        have hsize : g.size = f.size := hfirst.sameData.size_eq
        refine hfirst.trans (ih hfirst.wellFormed (hsize ▸ hp) fun w hw => ?_)
        exact hfirst.known (hv w (List.mem_cons_of_mem v hw))

theorem carriesOn_newNode (hf : f.WellFormed) (element : Element) {metadata : Entries}
    (hmeta : ∀ c ∈ Value.nodesEntries metadata, c < f.size) (hv : ∀ v ∈ values, f.Known v) :
    f.CarriesOn (outcome (newNode element values metadata) f).2 := by
  have hadd := carriesOn_addNode hf element hmeta
  have hn : (f.addNode element metadata).1 < (f.addNode element metadata).2.size := by
    simp [addNode, addRoot, addElement, addRecord, size]
  have hall := relinked_appendAll hadd.wellFormed hn fun v hv' => hadd.known (hv v hv')
  have hroot : outcome (newRoot element metadata) f =
      (.ok (f.addNode element metadata).1, (f.addNode element metadata).2) := rfl
  simp only [newNode, outcome_bind, hroot]
  refine hadd.trans ?_
  rcases hout : outcome (appendAll (f.addNode element metadata).1 values)
    (f.addNode element metadata).2 with ⟨_ | _, g⟩ <;>
  · rw [hout] at hall
    exact hall.carriesOn

/-- A new node over nodes that exist leaves a forest well-formed. -/
theorem wellFormed_newNode (hf : f.WellFormed) (element : Element) (nodes : List NodeId)
    (hlt : ∀ n ∈ nodes, n < f.size) :
    (outcome (newNode element (nodes.map .node) []) f).2.WellFormed := by
  refine (carriesOn_newNode hf element (by simp [Value.nodesEntries])
    fun v hv n hn => ?_).wellFormed
  subst hn
  obtain ⟨m, hm, heq⟩ := List.mem_map.1 hv
  cases heq
  exact hlt n hm

/-- `Extends f g` says that `g` is `f` with nothing but new roots without children. -/
structure Extends (f g : Forest) : Prop where
  wellFormed : g.WellFormed
  size_le : f.size ≤ g.size
  parent?_eq (m : NodeId) : g.parent? m = f.parent? m
  children_eq (m : NodeId) : g.children m = f.children m
  element_eq (m : NodeId) (hm : m < f.size) : g.element m = f.element m
  metadata_eq (m : NodeId) (hm : m < f.size) : g.metadata m = f.metadata m

theorem Extends.refl (hf : f.WellFormed) : f.Extends f :=
  ⟨hf, Nat.le_refl _, fun _ => rfl, fun _ => rfl, fun _ _ => rfl, fun _ _ => rfl⟩

theorem Extends.trans (hfg : f.Extends g) (hgh : g.Extends h) : f.Extends h where
  wellFormed := hgh.wellFormed
  size_le := Nat.le_trans hfg.size_le hgh.size_le
  parent?_eq m := by rw [hgh.parent?_eq, hfg.parent?_eq]
  children_eq m := by rw [hgh.children_eq, hfg.children_eq]
  element_eq m hm := by
    rw [hgh.element_eq m (Nat.lt_of_lt_of_le hm hfg.size_le), hfg.element_eq m hm]
  metadata_eq m hm := by
    rw [hgh.metadata_eq m (Nat.lt_of_lt_of_le hm hfg.size_le), hfg.metadata_eq m hm]

theorem Extends.ancestor (hfg : f.Extends g) {a : NodeId} (ha : g.Ancestor a n) : f.Ancestor a n :=
  ancestor_of_parent?_imp (fun m p hp => by rwa [hfg.parent?_eq] at hp) ha

theorem size_addNode (f : Forest) (element : Element) (metadata : Entries) :
    (f.addNode element metadata).2.size = f.size + 1 := by
  simp [addNode, addRoot, addElement, addRecord, size]

theorem extends_addNode (hf : f.WellFormed) (element : Element) {metadata : Entries}
    (hmeta : ∀ c ∈ Value.nodesEntries metadata, c < f.size) :
    f.Extends (f.addNode element metadata).2 where
  wellFormed := hf.addNode f element metadata hmeta
  size_le := by
    rw [size_addNode]
    omega
  parent?_eq m := parent?_addRoot ((f.addElement element).addRecord metadata) _ _ m
  children_eq m := children_addRoot ((f.addElement element).addRecord metadata) _ _ m
  element_eq m hm := by
    have hroot := element_addRoot ((f.addElement element).addRecord metadata) f.elements.size
      f.records.size m (Nat.ne_of_lt hm)
    refine hroot.trans ?_
    change (f.elements.push element)[f.elementKey m]?.getD default = _
    rw [Array.getElem?_push_lt (hf.elementKey_lt m hm), Forest.element,
      Array.getElem?_eq_getElem (hf.elementKey_lt m hm)]
  metadata_eq m hm := by
    have hroot := metadata_addRoot ((f.addElement element).addRecord metadata) f.elements.size
      f.records.size m (Nat.ne_of_lt hm)
    refine hroot.trans ?_
    change (f.records.push metadata)[f.recordKey m]?.getD [] = _
    rw [Array.getElem?_push_lt (hf.recordKey_lt m hm), Forest.metadata,
      Array.getElem?_eq_getElem (hf.recordKey_lt m hm)]

theorem element_addNode (f : Forest) (element : Element) (metadata : Entries) :
    (f.addNode element metadata).2.element f.size = element := by
  simp [addNode, addRoot, addElement, addRecord, size, Forest.element, elementKey]

theorem metadata_addNode (f : Forest) (element : Element) (metadata : Entries) :
    (f.addNode element metadata).2.metadata f.size = metadata := by
  simp [addNode, addRoot, addElement, addRecord, size, Forest.metadata, recordKey]

theorem carriesOn_updateElement (hf : f.WellFormed) (n : NodeId) (element : Element)
    (hkind : element.kind = f.kind n) : f.CarriesOn (f.updateElement n element) := by
  have hall (key : Nat) : (f.updateElement n element).kindAt key = f.kindAt key := by
    simp only [kindAt, updateElement, Array.getElem?_setIfInBounds]
    by_cases hk : f.elementKey n = key
    · subst hk
      by_cases hlt : f.elementKey n < f.elements.size
      · simp [hlt, hkind, kind, Forest.element]
      · simp [hlt]
    · simp [hk]
  have hsize : (f.updateElement n element).elements.size = f.elements.size := by
    simp [updateElement]
  have hle := Nat.le_of_eq hsize.symm
  exact ⟨hf.of_nodes_eq rfl hle (fun key _ => hall key) (Nat.le_refl _) hf.lt_of_mem_record,
    Nat.le_refl _, hle, Nat.le_refl _, fun key _ => hall key⟩

theorem carriesOn_updateMetadata (hf : f.WellFormed) (n : NodeId) (change : Entries → Entries)
    (hchange : ∀ c ∈ Value.nodesEntries (change (f.metadata n)), c < f.size) :
    f.CarriesOn (f.updateMetadata n change) := by
  have hsize : (f.updateMetadata n change).records.size = f.records.size := by
    simp [updateMetadata]
  have hle := Nat.le_of_eq hsize.symm
  refine ⟨hf.of_nodes_eq rfl (Nat.le_refl _) (fun _ _ => rfl) hle ?_, Nat.le_refl _, Nat.le_refl _,
    hle, fun _ _ => rfl⟩
  intro r entries hr c hc
  simp only [updateMetadata, Array.getElem?_modify] at hr
  split at hr
  · rename_i hk
    obtain ⟨old, hold, rfl⟩ := Option.map_eq_some_iff.1 hr
    refine hchange c ?_
    rwa [metadata, hk, hold]
  · exact hf.lt_of_mem_record r entries hr c hc

theorem mem_nodesEntries_put {entries : Entries} {name : String}
    (hc : c ∈ Value.nodesEntries (entries.put name v)) :
    c ∈ Value.nodesEntries entries ∨ c ∈ v.nodes := by
  induction entries with
  | nil => simpa [Entries.put, Value.nodesEntries] using hc
  | cons entry rest ih =>
      obtain ⟨key, old⟩ := entry
      unfold Entries.put at hc
      split at hc
      · simp only [Value.nodesEntries, List.mem_append] at hc ⊢
        rcases hc with hc | hc
        · exact Or.inr hc
        · exact Or.inl (Or.inr hc)
      · simp only [Value.nodesEntries, List.mem_append] at hc ⊢
        rcases hc with hc | hc
        · exact Or.inl (Or.inl hc)
        · rcases ih hc with hc | hc
          · exact Or.inl (Or.inr hc)
          · exact Or.inr hc

theorem mem_nodesEntries_of_get? {entries : Entries} {name : String}
    (hv : entries.get? name = some v) (hc : c ∈ v.nodes) : c ∈ Value.nodesEntries entries := by
  induction entries with
  | nil => simp at hv
  | cons entry rest ih =>
      obtain ⟨key, old⟩ := entry
      rw [Entries.get?_cons] at hv
      simp only [Value.nodesEntries, List.mem_append]
      split at hv
      · cases hv
        exact Or.inl hc
      · exact Or.inr (ih hv)

theorem mem_nodesList_append {items : List Value} (hc : c ∈ Value.nodesList (items ++ [v])) :
    c ∈ Value.nodesList items ∨ c ∈ v.nodes := by
  induction items with
  | nil => exact Or.inr (by simpa [Value.nodesList] using hc)
  | cons w items ih =>
      simp only [List.cons_append, Value.nodesList, List.mem_append] at hc ⊢
      rcases hc with hc | hc
      · exact Or.inl (Or.inl hc)
      · rcases ih hc with hc | hc
        · exact Or.inl (Or.inr hc)
        · exact Or.inr hc

theorem mem_nodes_of_push {v w : Value} {item : Value} (hw : v.push item = .ok w)
    (hc : c ∈ w.nodes) : c ∈ v.nodes ∨ c ∈ item.nodes := by
  cases v with
  | list items =>
      cases hw
      exact mem_nodesList_append hc
  | _ => cases hw

theorem WellFormed.lt_of_mem_entries (hf : f.WellFormed) {record : Nat}
    (hc : c ∈ Value.nodesEntries (f.records[record]?.getD [])) : c < f.size := by
  cases hr : f.records[record]? with
  | none => simp [hr, Value.nodesEntries] at hc
  | some entries =>
      rw [hr] at hc
      exact hf.lt_of_mem_record record entries hr c hc

theorem lt_of_mem_metadata (hf : f.WellFormed) (hc : c ∈ Value.nodesEntries (f.metadata n)) :
    c < f.size :=
  hf.lt_of_mem_entries hc

theorem carriesOn_setEntry (hf : f.WellFormed) (n : NodeId) (name : String)
    (hv : ∀ c ∈ v.nodes, c < f.size) : f.CarriesOn (outcome (setEntry n name v) f).2 := by
  refine carriesOn_updateMetadata hf n _ fun c hc => ?_
  rcases mem_nodesEntries_put hc with hc | hc
  · exact lt_of_mem_metadata hf hc
  · exact hv c hc

theorem carriesOn_appendToEntry (hf : f.WellFormed) (n : NodeId) (name : String) {item : Value}
    (hv : ∀ c ∈ item.nodes, c < f.size) :
    f.CarriesOn (outcome (appendToEntry n name item) f).2 := by
  simp only [appendToEntry, outcome_bind, outcome_get]
  cases hold : (f.metadata n).get? name with
  | none => exact .refl hf
  | some old =>
      cases hpush : old.push item with
      | error e =>
          simp only [outcome_bind, outcome_liftM, hpush]
          exact .refl hf
      | ok w =>
          simp only [outcome_bind, outcome_liftM, hpush]
          refine carriesOn_setEntry hf n name fun c hc => ?_
          rcases mem_nodes_of_push hpush hc with hc | hc
          · exact lt_of_mem_metadata hf (mem_nodesEntries_of_get? hold hc)
          · exact hv c hc

theorem carriesOn_assignField (hf : f.WellFormed) (n : NodeId) (name : String) (v : Value) :
    f.CarriesOn (outcome (assignField n name v) f).2 := by
  simp only [assignField, outcome_bind, outcome_get]
  cases hset : (f.element n).set? name v with
  | none =>
      by_cases hname : name.toList.head? = some '_'
      · simp only [hname, if_true, outcome_pure]
        exact .refl hf
      · simp only [hname, if_false, outcome_throw]
        exact .refl hf
  | some element =>
      refine carriesOn_updateElement hf n element ?_
      unfold Element.set? at hset
      split at hset
      · cases hset
        rfl
      · cases hset

theorem carriesOn_appendToField (hf : f.WellFormed) (n : NodeId) (name : String) (item : Value) :
    f.CarriesOn (outcome (appendToField n name item) f).2 := by
  simp only [appendToField, outcome_bind, outcome_get]
  cases (f.element n).get? name with
  | none => exact .refl hf
  | some old =>
      cases hpush : old.push item with
      | error e =>
          simp only [outcome_bind, outcome_liftM, hpush]
          exact .refl hf
      | ok w =>
          simp only [outcome_bind, outcome_liftM, hpush]
          exact carriesOn_assignField hf n name w

end MarkdownTree.Forest
