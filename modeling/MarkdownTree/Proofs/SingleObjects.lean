import MarkdownTree.Proofs.CopiedHandles

/-!
Objects that stand in one place only. To change such an object in place is to change the forest at
this place: the operations on heaps then do what the operations on forests do.
-/

namespace MarkdownTree

open Forest

variable {f : Forest} {l : Handles} {h : Heap} {n : NodeId} {name : String} {v content item : Value}
  {entries : Entries} {handle : Handle} {handles parts inner : List Handle} {key number d : Nat}

theorem Entries.has_of_get? (h : entries.get? name = some v) : entries.has name = true := by
  obtain ⟨entry, hentry, -⟩ := Option.map_eq_some_iff.1 h
  have hname := List.find?_some hentry
  exact List.any_eq_true.2 ⟨entry, List.mem_of_find?_eq_some hentry, hname⟩

namespace Handle

theorem FitAll.length_eq {values : List Value} (h : FitAll handles values) :
    values.length = handles.length := by
  induction handles generalizing values with
  | nil =>
      cases values with
      | nil => rfl
      | cons v values => exact h.elim
  | cons handle handles ih =>
      cases values with
      | nil => exact h.elim
      | cons v values => rw [List.length_cons, ih h.2, List.length_cons]

/-- An object that stands among entries in one place, under a name, is filled as the entry is put. -/
theorem zip_fillValues (hlength : entries.length = handles.length)
    (hunder : under entries.names handles name = .object number inner)
    (honce : number ∉ numbersOf (put entries.names handles name .plain)) :
    entries.names.zip (fillValues number content handles (entries.map (·.2))) =
      entries.put name content := by
  induction entries generalizing handles with
  | nil => cases hunder
  | cons entry rest ih =>
      obtain ⟨key, old⟩ := entry
      cases handles with
      | nil => cases hlength
      | cons handle handles =>
          simp only [Entries.names, List.map_cons, under, put, fillValues, List.zip_cons_cons,
            Entries.put] at hunder honce ⊢
          by_cases hkey : key == name
          · rw [if_pos hkey] at hunder honce ⊢
            subst hunder
            have hrest : number ∉ numbersOf handles := honce
            rw [fillValue, if_pos rfl, fillValues_eq_self _ _ hrest, List.zip_map']
            simp
          · rw [if_neg hkey] at hunder honce ⊢
            obtain ⟨hfirst, hrest⟩ := not_or.1 (mt List.mem_append.2 honce)
            rw [fillValue_eq_self _ _ hfirst]
            exact congrArg _ (ih (Nat.succ.inj hlength) hunder hrest)

end Handle

namespace Handles

/-- An object that stands in no element and in one dictionary is filled there. -/
theorem fillForest_record (hfields : ∀ key, number ∉ Handle.numbersOf (l.ofElement key))
    (hothers : ∀ other, other ≠ key → number ∉ (l.ofRecord other).numbers)
    (change : Entries → Entries)
    (hfill : ∀ entries, f.records[key]? = some entries →
      fillEntries number content (l.ofRecord key) entries = change entries) :
    l.fillForest number content f = { f with records := f.records.modify key change } := by
  have helements : (l.fillForest number content f).elements = f.elements := by
    refine Array.ext_getElem? fun i => ?_
    simp only [fillForest, Array.getElem?_mapIdx]
    cases f.elements[i]? <;>
      simp [Handle.fillValues_eq_self _ _ (hfields i), Entries.names, List.zip_map']
  have hrecords : (l.fillForest number content f).records = f.records.modify key change := by
    refine Array.ext_getElem? fun i => ?_
    simp only [fillForest, Array.getElem?_mapIdx, Array.getElem?_modify]
    cases hr : f.records[i]? with
    | none => simp
    | some entries =>
        by_cases hi : key = i
        · subst hi
          simp [hfill entries hr]
        · simp [hi, fillEntries_eq_self (hothers i (Ne.symm hi))]
  calc l.fillForest number content f
      = ⟨f.nodes, (l.fillForest number content f).elements,
          (l.fillForest number content f).records⟩ := rfl
    _ = _ := by rw [helements, hrecords]

/-- An object that stands in no dictionary and in one element is filled there. -/
theorem fillForest_element (hrecords : ∀ key, number ∉ (l.ofRecord key).numbers)
    (hothers : ∀ other, other ≠ key → number ∉ Handle.numbersOf (l.ofElement other)) {e : Element}
    (he : f.elements[key]? = some e) {fields : Entries}
    (hfill : e.fields.names.zip (Handle.fillValues number content (l.ofElement key)
      (e.fields.map (·.2))) = fields) :
    l.fillForest number content f =
      { f with elements := f.elements.setIfInBounds key { e with fields } } := by
  have hrecords : (l.fillForest number content f).records = f.records := by
    refine Array.ext_getElem? fun i => ?_
    simp only [fillForest, Array.getElem?_mapIdx]
    cases f.records[i]? <;> simp [fillEntries_eq_self (hrecords i)]
  have helements : (l.fillForest number content f).elements =
      f.elements.setIfInBounds key { e with fields } := by
    refine Array.ext_getElem? fun i => ?_
    simp only [fillForest, Array.getElem?_mapIdx, Array.getElem?_setIfInBounds]
    by_cases hi : key = i
    · subst hi
      rw [if_pos rfl, if_pos (Array.getElem?_eq_some_iff.1 he).1, he, Option.map_some, hfill]
    · rw [if_neg hi]
      cases f.elements[i]? <;>
        simp [Handle.fillValues_eq_self _ _ (hothers i (Ne.symm hi)), Entries.names, List.zip_map']
  calc l.fillForest number content f
      = ⟨f.nodes, (l.fillForest number content f).elements,
          (l.fillForest number content f).records⟩ := rfl
    _ = _ := by rw [helements, hrecords]

end Handles

namespace Heap

/-- To set an entry of a dictionary that stands nowhere else is to set it in the forest. -/
theorem forest_setEntry (hdictionary : h.handles.ofRecord (h.forest.recordKey n) = .object d parts)
    (hfields : ∀ key, d ∉ Handle.numbersOf (h.handles.ofElement key))
    (hothers : ∀ key, key ≠ h.forest.recordKey n → d ∉ (h.handles.ofRecord key).numbers) :
    (h.setEntry n name v handle).forest = (outcome (Forest.setEntry n name v) h.forest).2 := by
  rw [setEntry, hdictionary]
  refine Handles.fillForest_record hfields hothers (·.put name v) fun entries hr => ?_
  rw [hdictionary, Handles.fillEntries, Handle.fillValue, if_pos rfl, metadata, hr]
  rfl

/-- To add to a list in a dictionary that stands nowhere else is to add to it in the forest. -/
theorem forest_appendToEntry (hl : h.Labelled) (hn : h.forest.recordKey n < h.forest.records.size)
    (hdictionary : h.handles.ofRecord (h.forest.recordKey n) = .object d parts) (hd : d ≠ number)
    (hlist : Handle.under (h.forest.metadata n).names parts name = .object number inner)
    (honce : number ∉ Handle.numbersOf (Handle.put (h.forest.metadata n).names parts name .plain))
    (hfields : ∀ key, number ∉ Handle.numbersOf (h.handles.ofElement key))
    (hothers : ∀ key, key ≠ h.forest.recordKey n → number ∉ (h.handles.ofRecord key).numbers) :
    (h.appendToEntry n name item handle).map (·.forest) =
      match outcome (Forest.appendToEntry n name item) h.forest with
      | (.error e, _) => .error e
      | (.ok _, f) => .ok f := by
  have hmeta : h.forest.records[h.forest.recordKey n]? = some (h.forest.metadata n) := by
    rw [metadata, Array.getElem?_eq_getElem hn]
    rfl
  have hfits := hl.fits_record hmeta
  rw [hdictionary] at hfits
  have hlength : (h.forest.metadata n).length = parts.length := by
    simpa [Value.parts] using hfits.2.length_eq
  simp only [appendToEntry, Forest.appendToEntry, outcome_bind, outcome_get, hdictionary,
    Handle.parts, hlist]
  cases hv : (h.forest.metadata n).get? name with
  | none => rfl
  | some v =>
      cases hpush : v.push item with
      | error e => simp [append, hpush, outcome_bind]; rfl
      | ok content =>
          have hfill : h.handles.fillForest number content h.forest =
              h.forest.updateMetadata n (·.put name content) := by
            refine Handles.fillForest_record hfields hothers _ fun entries hr => ?_
            cases hmeta.symm.trans hr
            simp only [hdictionary, Handles.fillEntries, Handle.fillValue, if_neg hd,
              Value.withParts]
            exact Handle.zip_fillValues hlength hlist honce
          simp only [append, hpush, Forest.setEntry]
          exact congrArg Except.ok hfill

/-- To add to a list in an element that stands nowhere else is to add to it in the forest. -/
theorem forest_appendToField (hl : h.Labelled)
    (hn : h.forest.elementKey n < h.forest.elements.size)
    (hlist : Handle.under (h.forest.element n).fields.names
      (h.handles.ofElement (h.forest.elementKey n)) name = .object number inner)
    (honce : number ∉ Handle.numbersOf (Handle.put (h.forest.element n).fields.names
      (h.handles.ofElement (h.forest.elementKey n)) name .plain))
    (hrecords : ∀ key, number ∉ (h.handles.ofRecord key).numbers)
    (hothers : ∀ key, key ≠ h.forest.elementKey n →
      number ∉ Handle.numbersOf (h.handles.ofElement key)) :
    (h.appendToField n name item handle).map (·.forest) =
      match outcome (Forest.appendToField n name item) h.forest with
      | (.error e, _) => .error e
      | (.ok _, f) => .ok f := by
  have he : h.forest.elements[h.forest.elementKey n]? = some (h.forest.element n) := by
    rw [Forest.element, Array.getElem?_eq_getElem hn]
    rfl
  have hlength : (h.forest.element n).fields.length =
      (h.handles.ofElement (h.forest.elementKey n)).length := by
    simpa using (hl.fits_element he).length_eq
  simp only [appendToField, Forest.appendToField, outcome_bind, outcome_get, hlist]
  cases hv : (h.forest.element n).get? name with
  | none => rfl
  | some v =>
      cases hpush : v.push item with
      | error e => simp [append, hpush, outcome_bind]; rfl
      | ok content =>
          have hhas : (h.forest.element n).fields.has name = true := Entries.has_of_get? hv
          have hfill : h.handles.fillForest number content h.forest =
              h.forest.updateElement n { h.forest.element n with
                fields := (h.forest.element n).fields.put name content } :=
            Handles.fillForest_element hrecords hothers he
              (Handle.zip_fillValues hlength hlist honce)
          simp only [append, hpush, outcome_liftM, Forest.assignField, outcome_bind, outcome_get,
            Element.set?, hhas, if_true, outcome_change]
          exact congrArg Except.ok hfill

end Heap

end MarkdownTree
