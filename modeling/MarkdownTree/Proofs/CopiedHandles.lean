import MarkdownTree.Proofs.FencedCopies
import MarkdownTree.Proofs.FencedHandles
import MarkdownTree.Proofs.Subtrees

/-!
Heaps in which every list and every dictionary has a handle, and copies of trees on them. A copy is
made of the copies of its nodes' metadata and elements, one node after the other in pre-order. Each
of these steps gives every list and dictionary that it makes a handle with new numbers.
-/

namespace MarkdownTree.Heap

open Forest Asking

variable {f g : Forest} {h k : Heap} {n : NodeId} {key : Nat}

/-- Every list and every dictionary in the elements and the metadata of a heap has a handle, whose
number is taken. -/
structure Labelled (h : Heap) : Prop where
  elements : List.Forall₂ (fun handles e => Handle.FitAll handles (e.fields.map (·.2)))
    h.handles.elements.toList h.forest.elements.toList
  records : List.Forall₂ (fun handle entries => handle.Fits (.mapping entries))
    h.handles.records.toList h.forest.records.toList
  element_lt (handles : List Handle) (hmem : handles ∈ h.handles.elements.toList) (o : Nat)
    (ho : o ∈ Handle.numbersOf handles) : o < h.handles.next
  record_lt (handle : Handle) (hmem : handle ∈ h.handles.records.toList) (o : Nat)
    (ho : o ∈ handle.numbers) : o < h.handles.next

theorem forall₂_getElem? {α β : Type} {R : α → β → Prop} {xs : List α} {ys : List β}
    (h : List.Forall₂ R xs ys) {i : Nat} {y : β} (hy : ys[i]? = some y) :
    ∃ x, xs[i]? = some x ∧ R x y := by
  obtain ⟨hi, rfl⟩ := List.getElem?_eq_some_iff.1 hy
  have hlt : i < xs.length := h.length_eq ▸ hi
  exact ⟨xs[i], List.getElem?_eq_getElem hlt, h.get hlt hi⟩

namespace Labelled

variable (hl : h.Labelled)

include hl

theorem fits_element {e : Element} (he : h.forest.elements[key]? = some e) :
    Handle.FitAll (h.handles.ofElement key) (e.fields.map (·.2)) := by
  rw [← Array.getElem?_toList] at he
  obtain ⟨handles, hget, hfit⟩ := forall₂_getElem? hl.elements he
  rw [Array.getElem?_toList] at hget
  rwa [Handles.ofElement, hget]

theorem fits_record {entries : Entries} (hr : h.forest.records[key]? = some entries) :
    (h.handles.ofRecord key).Fits (.mapping entries) := by
  rw [← Array.getElem?_toList] at hr
  obtain ⟨handle, hget, hfit⟩ := forall₂_getElem? hl.records hr
  rw [Array.getElem?_toList] at hget
  rwa [Handles.ofRecord, hget]

theorem ofElement_lt {o : Nat} (ho : o ∈ Handle.numbersOf (h.handles.ofElement key)) :
    o < h.handles.next := by
  rw [Handles.ofElement] at ho
  cases hget : h.handles.elements[key]? with
  | none =>
      rw [hget] at ho
      cases ho
  | some handles =>
      rw [hget] at ho
      exact hl.element_lt handles (Array.mem_toList_iff.2 (Array.mem_of_getElem? hget)) o ho

theorem ofRecord_lt {o : Nat} (ho : o ∈ (h.handles.ofRecord key).numbers) :
    o < h.handles.next := by
  rw [Handles.ofRecord] at ho
  cases hget : h.handles.records[key]? with
  | none =>
      rw [hget] at ho
      cases ho
  | some handle =>
      rw [hget] at ho
      exact hl.record_lt handle (Array.mem_toList_iff.2 (Array.mem_of_getElem? hget)) o ho

/-- Copies of elements and dictionaries, perhaps with other nodes in the dictionaries, are labelled
with the handles that are added for them. -/
theorem addCopies (elements records : List Nat) (nodes : Array Node) (r : NodeId → NodeId)
    (helements : ∀ key ∈ elements, key < h.forest.elements.size)
    (hrecords : ∀ key ∈ records, key < h.forest.records.size) :
    Labelled ⟨⟨nodes,
      h.forest.elements ++
        (elements.map fun key => h.forest.elements[key]?.getD default).toArray,
      h.forest.records ++ (records.map fun key =>
        Value.mapNodesEntries r (h.forest.records[key]?.getD [])).toArray⟩,
      h.handles.addCopies elements records⟩ where
  elements := by
    simp only [Handles.addCopies, Array.toList_append]
    refine List.rel_append hl.elements ?_
    rw [List.forall₂_map_left_iff, List.forall₂_map_right_iff, List.forall₂_same]
    intro key hkey
    rw [Array.getElem?_eq_getElem (helements key hkey)]
    exact Handle.FitAll.renewAll _ _ _
      (hl.fits_element (Array.getElem?_eq_getElem (helements key hkey)))
  records := by
    simp only [Handles.addCopies, Array.toList_append]
    refine List.rel_append hl.records ?_
    rw [List.forall₂_map_left_iff, List.forall₂_map_right_iff, List.forall₂_same]
    intro key hkey
    rw [Array.getElem?_eq_getElem (hrecords key hkey)]
    exact (Handle.Fits.renew _ _ _
      (hl.fits_record (Array.getElem?_eq_getElem (hrecords key hkey)))).mapNodes r _ _
  element_lt handles hmem o ho := by
    simp only [Handles.addCopies, Array.toList_append, List.mem_append, List.mem_map] at hmem ⊢
    rcases hmem with hmem | ⟨key, -, rfl⟩
    · exact Nat.lt_of_lt_of_le (hl.element_lt handles hmem o ho) (Nat.le_add_right _ _)
    · rw [Handle.numbersOf_renewAll] at ho
      obtain ⟨old, hold, rfl⟩ := List.mem_map.1 ho
      exact Nat.add_lt_add_left (hl.ofElement_lt hold) _
  record_lt handle hmem o ho := by
    simp only [Handles.addCopies, Array.toList_append, List.mem_append, List.mem_map] at hmem ⊢
    rcases hmem with hmem | ⟨key, -, rfl⟩
    · exact Nat.lt_of_lt_of_le (hl.record_lt handle hmem o ho) (Nat.le_add_right _ _)
    · rw [Handle.numbers_renew] at ho
      obtain ⟨old, hold, rfl⟩ := List.mem_map.1 ho
      exact Nat.add_lt_add_left (hl.ofRecord_lt hold) _

theorem copyRecord (hf : h.forest.WellFormed) (hkey : key < h.forest.records.size) :
    (h.copyRecord key).Labelled := by
  have hclosed := closed_recordNodes hf key
  refine hl.addCopies _ _ _ _ (fun element hmem => ?_) fun record hmem => ?_
  · obtain ⟨m, hm, rfl⟩ := List.mem_map.1 (List.mem_eraseDups.1 hmem)
    exact hf.elementKey_lt m (hclosed.lt_size m hm)
  · rcases List.mem_cons.1 (List.mem_eraseDups.1 hmem) with rfl | hmem
    · exact hkey
    · obtain ⟨m, hm, rfl⟩ := List.mem_map.1 hmem
      exact hf.recordKey_lt m (hclosed.lt_size m hm)

theorem copyElement (hkey : key < h.forest.elements.size) : (h.copyElement key).Labelled := by
  have hcopy : (h.copyElement key).forest = ⟨h.forest.nodes,
      h.forest.elements ++ ([key].map fun key => h.forest.elements[key]?.getD default).toArray,
      h.forest.records ++ (([] : List Nat).map fun key =>
        Value.mapNodesEntries id (h.forest.records[key]?.getD [])).toArray⟩ := by
    simp [Heap.copyElement, addElement]
  have hadded := hl.addCopies [key] [] h.forest.nodes id (by simpa using hkey) (by simp)
  rwa [← hcopy] at hadded

end Labelled

/-! ### Copies of payloads -/

theorem within_copyPayload (h : Heap) (n : NodeId) : h.forest.Within (h.copyPayload n).forest :=
  (within_copyRecord h.forest _).trans (within_addElement _ _)

theorem within_foldl (list : List NodeId) (h : Heap) :
    h.forest.Within (list.foldl copyPayload h).forest := by
  induction list generalizing h with
  | nil => exact .refl _
  | cons n list ih => exact (within_copyPayload h n).trans (ih _)

/-- The forest is what a copy of the tree makes of it for a node. -/
theorem forest_copyPayload (hkey : h.forest.elementKey n < h.forest.elements.size) :
    (h.copyPayload n).forest =
      (addPayload (h.forest.elementKey n) n (.own (h.forest.element n)) h.forest).2 := by
  have hold := elements_copyRecord_old (h.forest.recordKey n) hkey
  simp only [copyPayload, copyElement, copyRecord, hold]
  rfl

theorem wellFormed_copyPayload (hf : h.forest.WellFormed) (hn : n < h.forest.size) :
    (h.copyPayload n).forest.WellFormed := by
  rw [forest_copyPayload (hf.elementKey_lt n hn)]
  have hcheck : h.forest.checkPayload none (h.forest.elementKey n) (.own (h.forest.element n)) =
    .ok () := rfl
  exact (carriesOn_addPayload hf (hf.elementKey_lt n hn) hcheck n).1.wellFormed

theorem Labelled.copyPayload (hl : h.Labelled) (hf : h.forest.WellFormed)
    (hn : n < h.forest.size) : (h.copyPayload n).Labelled := by
  have hrecord := hl.copyRecord hf (hf.recordKey_lt n hn)
  refine hrecord.copyElement (Nat.lt_of_lt_of_le (hf.elementKey_lt n hn) ?_)
  exact (within_copyRecord h.forest _).elements_le

theorem Labelled.foldl (hl : h.Labelled) (hf : h.forest.WellFormed) {list : List NodeId}
    (hlist : ∀ n ∈ list, n < h.forest.size) : (list.foldl Heap.copyPayload h).Labelled := by
  induction list generalizing h with
  | nil => exact hl
  | cons n list ih =>
      have hn := hlist n List.mem_cons_self
      refine ih (hl.copyPayload hf hn) (wellFormed_copyPayload hf hn) fun m hm => ?_
      exact Nat.lt_of_lt_of_le (hlist m (List.mem_cons_of_mem n hm))
        (within_copyPayload h n).size_le

/-! ### Copies of trees -/

section
variable {parent : Option Kind} {depth turns i : Nat} {u : Unit}

/-- The choice of the payload of a node adds it to the forest. -/
theorem forest_choosePayload (hkey : h.forest.elementKey n < h.forest.elements.size)
    {chosen : Kind × Nat × Nat}
    (hres : result (choosePayload sameElements parent n) h.forest () = (.ok chosen, g, u)) :
    g = (h.copyPayload n).forest := by
  have hask : result ((sameElements : PayloadMap Unit TreeFault).ask CopyFailure.choice n)
      h.forest () = (.ok (.own (h.forest.element n)), h.forest, ()) := rfl
  simp only [choosePayload, result_bind, result_forest, hask] at hres
  cases hcheck : h.forest.checkPayload parent (h.forest.elementKey n)
      (.own (h.forest.element n)) with
  | error e =>
      rw [hcheck] at hres
      cases hres
  | ok _ =>
      rw [hcheck] at hres
      cases hres
      exact (forest_copyPayload hkey).symm

/-- The drafts of children add the payloads of their trees, one child after the other. -/
theorem forest_draftFrom {draftOne : NodeId → Copying Unit TreeFault Draft} (hfh : f.Within h.forest)
    (hn : n < f.size)
    (hone : ∀ c ∈ f.children n, ∀ (h : Heap) d g u, f.Within h.forest →
      result (draftOne c) h.forest () = (.ok d, g, u) →
        g = ((f.preorder c).foldl copyPayload h).forest)
    {ds : List Draft} (hres : result (draftFrom draftOne n turns i) h.forest () = (.ok ds, g, u)) :
    g = ((((f.children n).drop i).flatMap f.preorder).foldl copyPayload h).forest := by
  induction turns generalizing h i ds with
  | zero => cases hres
  | succ turns ih =>
      rw [draftFrom, result_bind, result_forest] at hres
      simp only [hfh.children_eq hn] at hres
      cases hc : (f.children n)[i]? with
      | none =>
          rw [hc] at hres
          cases hres
          rw [List.drop_eq_nil_of_le (List.getElem?_eq_none_iff.1 hc)]
          rfl
      | some c =>
          rw [hc] at hres
          obtain ⟨d, g₁, u₁, hfirst, hres⟩ := result_bind_eq_ok_iff.1 hres
          obtain ⟨rest, g₂, u₂, hrest, hres⟩ := result_bind_eq_ok_iff.1 hres
          cases hres
          obtain ⟨hi, hget⟩ := List.getElem?_eq_some_iff.1 hc
          obtain rfl := hone c (List.mem_of_getElem? hc) h d g₁ u₁ hfh hfirst
          have hlater := ih (hfh.trans (within_foldl (f.preorder c) h)) hrest
          rw [List.drop_eq_getElem_cons hi, hget, List.flatMap_cons, List.foldl_append]
          exact hlater

/-- The draft of a tree adds the payloads of its nodes in pre-order. -/
theorem forest_draftWithin (hf : f.WellFormed) (hfh : f.Within h.forest) (hn : n < f.size)
    {d : Draft}
    (hres : result (draftWithin sameElements 0 depth parent n) h.forest () = (.ok d, g, u)) :
    g = ((f.preorder n).foldl copyPayload h).forest := by
  induction depth generalizing h n parent d g u with
  | zero => cases hres
  | succ depth ih =>
      obtain ⟨⟨kind, element, record⟩, g₁, u₁, hchosen, hres⟩ := result_bind_eq_ok_iff.1 hres
      rw [result_bind, result_forest] at hres
      obtain ⟨children, g₂, u₂, hchildren, hres⟩ := result_bind_eq_ok_iff.1 hres
      cases hres
      have hkey : h.forest.elementKey n < h.forest.elements.size := by
        rw [hfh.elementKey_eq hn]
        exact Nat.lt_of_lt_of_le (hf.elementKey_lt n hn) hfh.elements_le
      obtain rfl := forest_choosePayload hkey hchosen
      have hlater := forest_draftFrom (hfh.trans (within_copyPayload h n)) hn
        (fun c hc k d g u hfk hone => ih hfk (hf.lt_size_of_mem hc) hone) hchildren
      rwa [hf.preorder_eq, List.foldl_cons]

end

mutual

theorem records_plant : ∀ (d : Draft) (f : Forest), (plant d f).2.records = f.records
  | .node element record children, f => by
      have hdata := sameData_attach ((plantAll children f).2.addRoot element record).2
        (plantAll children f).2.size (plantAll children f).1 (plantAll children f).1
      exact hdata.records_eq.trans (records_plantAll children f)

theorem records_plantAll : ∀ (ds : List Draft) (f : Forest),
    (plantAll ds f).2.records = f.records
  | [], _ => rfl
  | d :: ds, f => (records_plantAll ds (plant d f).2).trans (records_plant d f)

end

/-- A tree in a labelled heap is copied as it is in its forest, and the heap is labelled
afterwards. -/
theorem exists_copyTree (hl : h.Labelled) (hf : h.forest.WellFormed) (hn : n < h.forest.size) :
    ∃ c k, h.copyTree n = .ok (c, k) ∧ outcome (Forest.copyTree n) h.forest = (.ok c, k.forest) ∧
      k.handles = ((h.forest.preorder n).foldl copyPayload h).handles ∧ k.Labelled := by
  obtain ⟨c, g, hcopy, -⟩ := exists_copyOf hf hn
  refine ⟨c, ⟨g, ((h.forest.preorder n).foldl copyPayload h).handles⟩, ?_, hcopy, rfl, ?_⟩
  · have hrun : (Forest.copyTree n).run.run h.forest = (.ok c, g) := hcopy
    rw [copyTree, hrun]
  · rw [outcome_copyTree, result_copyTreeWith, Nat.add_zero] at hcopy
    rcases hdraft : result (draftWithin sameElements 0 (h.forest.size + 1) none n) h.forest ()
      with ⟨(e | e | _) | d, g', u⟩ <;> rw [hdraft] at hcopy <;> cases hcopy
    have hlist : ∀ m ∈ h.forest.preorder n, m < h.forest.size := fun m hm =>
      (hf.mem_preorder_iff.1 hm).lt_size hn
    have hfold := hl.foldl hf hlist
    obtain rfl := forest_draftWithin hf (.refl _) hn hdraft
    refine ⟨?_, ?_, hfold.element_lt, hfold.record_lt⟩
    · simp only [elements_plant]
      exact hfold.elements
    · simp only [records_plant]
      exact hfold.records

end MarkdownTree.Heap
