import MarkdownTree.Proofs.Fences
import MarkdownTree.Proofs.Handles

/-!
Objects of a fenced region. The elements and dictionaries in such a region are made of objects that
stand nowhere outside, and nothing outside is made of others. So an object from outside can be
filled with anything from outside, and no handle in the region changes. Copies are made of new
objects, whatever they are copies of.
-/

namespace MarkdownTree

/-- A region of a heap: some of the nodes, elements, dictionaries and objects. -/
structure Territory extends Region where
  object : Nat → Prop

/-! ### Rows of handles -/

section
variable {α : Type} {keys objects : Nat → Prop} {numbers : α → List Nat} {rows later last : Array α}

/-- The rows under some keys tell of some objects only, and the other rows tell of none of these. -/
structure Parted (keys objects : Nat → Prop) (numbers : α → List Nat) (rows : Array α) : Prop where
  key_lt (key : Nat) (hk : keys key) : key < rows.size
  inside (key : Nat) (row : α) (hrow : rows[key]? = some row) (hk : keys key) (o : Nat)
    (ho : o ∈ numbers row) : objects o
  outside (key : Nat) (row : α) (hrow : rows[key]? = some row) (hk : ¬ keys key) (o : Nat)
    (ho : o ∈ numbers row) : ¬ objects o

/-- Parted rows are followed by others in which those under the keys are the same. -/
structure StaysParted (keys objects : Nat → Prop) (numbers : α → List Nat) (rows later : Array α) :
    Prop where
  parted : Parted keys objects numbers later
  size_le : rows.size ≤ later.size
  row_eq (key : Nat) (hk : keys key) : later[key]? = rows[key]?

theorem StaysParted.trans (h : StaysParted keys objects numbers rows later)
    (h' : StaysParted keys objects numbers later last) :
    StaysParted keys objects numbers rows last where
  parted := h'.parted
  size_le := Nat.le_trans h.size_le h'.size_le
  row_eq key hk := (h'.row_eq key hk).trans (h.row_eq key hk)

namespace Parted

variable (h : Parted keys objects numbers rows)

include h

theorem refl : StaysParted keys objects numbers rows rows :=
  ⟨h, Nat.le_refl _, fun _ _ => rfl⟩

/-- Rows stay parted if none under the keys changes and none of the others gets to an object of
these. -/
theorem stays (hsize : rows.size ≤ later.size)
    (hsame : ∀ key, keys key → later[key]? = rows[key]?)
    (hnew : ∀ key row, later[key]? = some row → ¬ keys key →
      rows[key]? = some row ∨ ∀ o ∈ numbers row, ¬ objects o) :
    StaysParted keys objects numbers rows later where
  parted :=
    { key_lt := fun key hk => Nat.lt_of_lt_of_le (h.key_lt key hk) hsize
      inside := fun key row hrow hk => h.inside key row (hsame key hk ▸ hrow) hk
      outside := fun key row hrow hk => by
        rcases hnew key row hrow hk with hold | hnew
        · exact h.outside key row hold hk
        · exact hnew }
  size_le := hsize
  row_eq := hsame

theorem append {new : List α} (hnew : ∀ row ∈ new, ∀ o ∈ numbers row, ¬ objects o) :
    StaysParted keys objects numbers rows (rows ++ new.toArray) := by
  refine h.stays (by simp) (fun key hk => Array.getElem?_append_left (h.key_lt key hk))
    fun key row hrow _ => ?_
  rw [Array.getElem?_append] at hrow
  split at hrow
  · exact Or.inl hrow
  · rw [List.getElem?_toArray] at hrow
    exact Or.inr (hnew row (List.mem_of_getElem? hrow))

theorem push {row : α} (hrow : ∀ o ∈ numbers row, ¬ objects o) :
    StaysParted keys objects numbers rows (rows.push row) := by
  rw [Array.push_eq_append]
  exact h.append fun row' hmem => List.mem_singleton.1 hmem ▸ hrow

theorem set {key : Nat} (hk : ¬ keys key) {row : α} (hrow : ∀ o ∈ numbers row, ¬ objects o) :
    StaysParted keys objects numbers rows (rows.setIfInBounds key row) := by
  refine h.stays (by simp) (fun key' hk' => ?_) fun key' row' hrow' _ => ?_
  · rw [Array.getElem?_setIfInBounds_ne]
    rintro rfl
    exact hk hk'
  · rw [Array.getElem?_setIfInBounds] at hrow'
    split at hrow'
    · split at hrow' <;> cases hrow'
      exact Or.inr hrow
    · exact Or.inl hrow'

/-- A change of all rows that leaves alone what is made of the objects, and leads to none of
them. -/
theorem map {g : α → α} (hsame : ∀ row, (∀ o ∈ numbers row, objects o) → g row = row)
    (hnew : ∀ row, ∀ o ∈ numbers (g row), o ∈ numbers row ∨ ¬ objects o) :
    StaysParted keys objects numbers rows (rows.map g) := by
  refine h.stays (by simp) (fun key hk => ?_) fun key row hrow hk => Or.inr fun o ho => ?_
  · have hrow := Array.getElem?_eq_getElem (h.key_lt key hk)
    rw [Array.getElem?_map, hrow, Option.map_some, hsame _ (h.inside key _ hrow hk)]
  · rw [Array.getElem?_map] at hrow
    obtain ⟨old, hold, rfl⟩ := Option.map_eq_some_iff.1 hrow
    exact (hnew old o ho).elim (h.outside key old hold hk o) id

end Parted

section
variable {size next size' next' : Nat}

/-- All rows, and all numbers up to a bound. -/
theorem parted_upTo (hsize : rows.size = size)
    (hlt : ∀ row ∈ rows.toList, ∀ o ∈ numbers row, o < next) :
    Parted (· < size) (· < next) numbers rows where
  key_lt _ hk := hsize.symm ▸ hk
  inside _ row hrow _ := hlt row (Array.mem_toList_iff.2 (Array.mem_of_getElem? hrow))
  outside _ _ hrow hk := absurd (hsize ▸ (Array.getElem?_eq_some_iff.1 hrow).1) hk

/-- The rows that were added, and the numbers that are new. -/
theorem parted_since (h : Parted (· < size) (· < next) numbers later) (hsize : later.size = size')
    (hlt : ∀ row ∈ later.toList, ∀ o ∈ numbers row, o < next') :
    Parted (fun key => size ≤ key ∧ key < size') (fun o => next ≤ o ∧ o < next') numbers later where
  key_lt _ hk := hsize.symm ▸ hk.2
  inside key row hrow hk o ho :=
    ⟨Nat.le_of_not_lt (h.outside key row hrow (Nat.not_lt.2 hk.1) o ho),
      hlt row (Array.mem_toList_iff.2 (Array.mem_of_getElem? hrow)) o ho⟩
  outside key row hrow hk o ho hnew := by
    have hkey : key < size' := hsize ▸ (Array.getElem?_eq_some_iff.1 hrow).1
    have hold : key < size := Nat.lt_of_not_le fun hle => hk ⟨hle, hkey⟩
    exact Nat.not_lt.2 hnew.1 (h.inside key row hrow hold o ho)

end

end

variable {P : Territory} {l k : Handles} {fields parts : List Handle} {dictionary handle : Handle}
  {key number o : Nat}

/-! ### Fences -/

/-- A handle that tells of no object of a territory. -/
def Handle.Outside (P : Territory) (handle : Handle) : Prop :=
  ∀ o ∈ handle.numbers, ¬ P.object o

def Handle.AllOutside (P : Territory) (handles : List Handle) : Prop :=
  ∀ o ∈ numbersOf handles, ¬ P.object o

namespace Handles

/-- The objects of a territory are the ones that its elements and dictionaries are made of. -/
structure Fenced (P : Territory) (l : Handles) : Prop where
  elements : Parted P.element P.object Handle.numbersOf l.elements
  records : Parted P.record P.object Handle.numbers l.records
  object_lt (o : Nat) (ho : P.object o) : o < l.next

/-- The handles in a territory are the same later on, and the objects of the territory still stand
nowhere else. -/
structure Spares (P : Territory) (l k : Handles) : Prop where
  elements : StaysParted P.element P.object Handle.numbersOf l.elements k.elements
  records : StaysParted P.record P.object Handle.numbers l.records k.records
  next_le : l.next ≤ k.next

namespace Spares

theorem fenced (hlk : l.Spares P k) (hl : l.Fenced P) : k.Fenced P where
  elements := hlk.elements.parted
  records := hlk.records.parted
  object_lt o ho := Nat.lt_of_lt_of_le (hl.object_lt o ho) hlk.next_le

theorem refl (hl : l.Fenced P) : l.Spares P l :=
  ⟨hl.elements.refl, hl.records.refl, Nat.le_refl _⟩

theorem trans {m : Handles} (hlk : l.Spares P k) (hkm : k.Spares P m) : l.Spares P m :=
  ⟨hlk.elements.trans hkm.elements, hlk.records.trans hkm.records,
    Nat.le_trans hlk.next_le hkm.next_le⟩

end Spares

theorem le_nextAfter (next : Nat) (handles : List Handle) : next ≤ nextAfter next handles := by
  unfold nextAfter
  generalize Handle.numbersOf handles = list
  induction list generalizing next with
  | nil => exact Nat.le_refl _
  | cons number list ih => exact Nat.le_trans (Nat.le_max_left _ _) (ih _)

namespace Fenced

variable (hl : l.Fenced P)

include hl

theorem add (hfields : Handle.AllOutside P fields) (hdictionary : dictionary.Outside P) :
    l.Spares P (l.add fields dictionary) where
  elements := hl.elements.push hfields
  records := hl.records.push hdictionary
  next_le := le_nextAfter _ _

theorem assign (hk : ¬ P.element key) (hfields : Handle.AllOutside P fields) :
    l.Spares P (l.assign key fields) where
  elements := hl.elements.set hk hfields
  records := hl.records.refl
  next_le := le_nextAfter _ _

theorem fill (hnumber : ¬ P.object number) (hparts : Handle.AllOutside P parts) :
    l.Spares P (l.fill number parts) where
  elements := hl.elements.map
    (fun row hrow => Handle.fillAll_eq_self row fun h => hnumber (hrow number h))
    fun row o ho => (Handle.mem_numbersOf_fillAll row ho).imp_right (hparts o)
  records := hl.records.map
    (fun row hrow => Handle.fill_eq_self row fun h => hnumber (hrow number h))
    fun row o ho => (Handle.mem_numbers_fill row ho).imp_right (hparts o)
  next_le := le_nextAfter _ _

/-- New numbers are of no object of the territory. -/
theorem not_object_add (n : Nat) : ¬ P.object (l.next + n) :=
  fun h => Nat.not_lt.2 (Nat.le_add_right _ _) (hl.object_lt _ h)

theorem addCopies (elements records : List Nat) : l.Spares P (l.addCopies elements records) where
  elements := hl.elements.append fun row hrow o ho => by
    obtain ⟨key, -, rfl⟩ := List.mem_map.1 hrow
    rw [Handle.numbersOf_renewAll] at ho
    obtain ⟨n, -, rfl⟩ := List.mem_map.1 ho
    exact hl.not_object_add n
  records := hl.records.append fun row hrow o ho => by
    obtain ⟨key, -, rfl⟩ := List.mem_map.1 hrow
    rw [Handle.numbers_renew] at ho
    obtain ⟨n, -, rfl⟩ := List.mem_map.1 ho
    exact hl.not_object_add n
  next_le := Nat.le_add_right _ _

theorem inside_ofElement (hk : P.element key) (ho : o ∈ Handle.numbersOf (l.ofElement key)) :
    P.object o := by
  have hrow := Array.getElem?_eq_getElem (hl.elements.key_lt key hk)
  rw [ofElement, hrow] at ho
  exact hl.elements.inside key _ hrow hk o ho

theorem inside_ofRecord (hk : P.record key) (ho : o ∈ (l.ofRecord key).numbers) : P.object o := by
  have hrow := Array.getElem?_eq_getElem (hl.records.key_lt key hk)
  rw [ofRecord, hrow] at ho
  exact hl.records.inside key _ hrow hk o ho

theorem outside_ofRecord (hk : ¬ P.record key) : (l.ofRecord key).Outside P := by
  intro o ho
  rw [ofRecord] at ho
  cases hrow : l.records[key]? with
  | none =>
      rw [hrow] at ho
      cases ho
  | some row =>
      rw [hrow] at ho
      exact hl.records.outside key row hrow hk o ho

theorem outside_ofElement (hk : ¬ P.element key) : Handle.AllOutside P (l.ofElement key) := by
  intro o ho
  rw [ofElement] at ho
  cases hrow : l.elements[key]? with
  | none =>
      rw [hrow] at ho
      cases ho
  | some row =>
      rw [hrow] at ho
      exact hl.elements.outside key row hrow hk o ho

end Fenced

variable {f : Forest} {content : Value} {entries : Entries} {c : NodeId}

theorem fillEntries_eq_self (h : number ∉ handle.numbers) :
    fillEntries number content handle entries = entries := by
  rw [fillEntries, Handle.fillValue_eq_self handle _ h]

theorem mem_nodes_fillEntries
    (h : c ∈ Value.nodesEntries (fillEntries number content handle entries)) :
    c ∈ Value.nodesEntries entries ∨ c ∈ content.nodes := by
  unfold fillEntries at h
  split at h
  · rename_i filled hfilled
    have hc : c ∈ (Handle.fillValue number content handle (.mapping entries)).nodes := by
      rw [hfilled]
      exact h
    exact Handle.mem_nodes_fillValue handle _ hc
  · exact .inl h

/-- An object from outside is filled with what is outside, and the region does not change. -/
theorem Fenced.fillForest (hl : l.Fenced P) (hf : f.Fenced P.toRegion)
    (hnumber : ¬ P.object number) (hcontent : ∀ c ∈ content.nodes, f.Outside P.toRegion c) :
    f.Spares P.toRegion (l.fillForest number content f) := by
  refine hf.spares (Nat.le_refl _) (by simp [Handles.fillForest]) (by simp [Handles.fillForest])
    (fun _ _ => rfl) (fun key hk => ?_) (fun key hk => ?_) (fun _ _ hnode _ => .inl hnode)
    fun key entries hr hk => ?_
  · have hfree : number ∉ Handle.numbersOf (l.ofElement key) := fun h =>
      hnumber (hl.inside_ofElement hk h)
    have he := Array.getElem?_eq_getElem (hf.element_lt key hk)
    simp [Handles.fillForest, Array.getElem?_mapIdx, he, Handle.fillValues_eq_self _ _ hfree,
      Entries.names, List.zip_map']
  · have hfree : number ∉ (l.ofRecord key).numbers := fun h => hnumber (hl.inside_ofRecord hk h)
    have hr := Array.getElem?_eq_getElem (hf.record_lt key hk)
    simp [Handles.fillForest, Array.getElem?_mapIdx, hr, fillEntries_eq_self hfree]
  · simp only [Handles.fillForest, Array.getElem?_mapIdx] at hr
    obtain ⟨old, hold, rfl⟩ := Option.map_eq_some_iff.1 hr
    refine .inr fun c hc => ?_
    have hout : f.Outside P.toRegion c := by
      rcases mem_nodes_fillEntries hc with hc | hc
      · exact hf.entries key old hold hk c hc
      · exact hcontent c hc
    exact hout.mono (Nat.le_refl _)

end Handles

end MarkdownTree
