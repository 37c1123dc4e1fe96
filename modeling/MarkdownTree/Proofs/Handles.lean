import MarkdownTree.Forest.Heap
import MarkdownTree.Proofs.Growth

/-!
Handles of values. Where an object does not stand, another content of it changes nothing; elsewhere
there are only the numbers and the nodes from before and those of the new content. The handles of
copies have numbers from a new range, and fit whatever nodes stand in the copied values.
-/

namespace MarkdownTree

variable {v content : Value} {values : List Value} {number base o : Nat} {handle : Handle}
  {handles parts : List Handle} {names : List String} {name : String} {c : NodeId}

namespace Value

theorem withParts_parts (v : Value) : v.withParts v.parts = v := by
  cases v with
  | mapping entries | record _ entries => simp [withParts, parts, Entries.names, List.zip_map']
  | _ => rfl

theorem nodesEntries_eq (entries : Entries) :
    nodesEntries entries = nodesList (entries.map (·.2)) := by
  induction entries with
  | nil => rfl
  | cons entry rest ih => rw [nodesEntries, ih, List.map_cons, nodesList]

theorem mem_nodesList_iff : c ∈ nodesList values ↔ ∃ v ∈ values, c ∈ v.nodes := by
  induction values with
  | nil => simp [nodesList]
  | cons v values ih => simp [nodesList, ih]

theorem mem_nodes_of_mem_parts (h : c ∈ nodesList v.parts) : c ∈ v.nodes := by
  cases v with
  | list items => exact h
  | mapping entries | record _ entries =>
      change c ∈ nodesEntries entries
      rwa [nodesEntries_eq]
  | _ => simp [parts, nodesList] at h

theorem mem_nodes_zip (h : c ∈ nodesEntries (names.zip values)) : c ∈ nodesList values := by
  rw [nodesEntries_eq, mem_nodesList_iff] at h
  obtain ⟨v, hv, hc⟩ := h
  obtain ⟨⟨name, w⟩, hmem, rfl⟩ := List.mem_map.1 hv
  exact mem_nodesList_iff.2 ⟨w, (List.of_mem_zip hmem).2, hc⟩

theorem mem_nodes_withParts (h : c ∈ (v.withParts values).nodes) :
    c ∈ nodesList values ∨ c ∈ v.nodes := by
  cases v with
  | list items => exact .inl h
  | mapping entries | record _ entries => exact .inl (mem_nodes_zip h)
  | _ => exact .inr h

theorem hasParts_mapNodes (g : NodeId → NodeId) (v : Value) :
    (v.mapNodes g).hasParts = v.hasParts := by
  cases v <;> rfl

theorem map_snd_mapNodesEntries (g : NodeId → NodeId) (entries : Entries) :
    (mapNodesEntries g entries).map (·.2) = (entries.map (·.2)).map (mapNodes g) := by
  induction entries with
  | nil => rfl
  | cons entry rest ih => rw [mapNodesEntries, List.map_cons, ih, List.map_cons, List.map_cons]

theorem parts_mapNodes (g : NodeId → NodeId) (v : Value) :
    (v.mapNodes g).parts = v.parts.map (mapNodes g) := by
  cases v with
  | list items =>
      change mapNodesList g items = items.map (mapNodes g)
      induction items with
      | nil => rfl
      | cons v rest ih => rw [mapNodesList, ih, List.map_cons]
  | mapping entries | record _ entries => exact map_snd_mapNodesEntries g entries
  | _ => rfl

end Value

namespace Handle

theorem numbersOf_append (handles others : List Handle) :
    numbersOf (handles ++ others) = numbersOf handles ++ numbersOf others := by
  induction handles with
  | nil => rfl
  | cons handle rest ih => rw [List.cons_append, numbersOf, ih, numbersOf, List.append_assoc]

theorem numbersOf_parts_subset : numbersOf handle.parts ⊆ numbers handle := by
  cases handle with
  | plain => exact List.nil_subset _
  | object number parts => exact List.subset_cons_self _ _

mutual

theorem fill_eq_self : ∀ handle : Handle, number ∉ numbers handle →
    fill number parts handle = handle
  | .plain, _ => rfl
  | .object other inner, h => by
      obtain ⟨hne, hinner⟩ := not_or.1 (mt List.mem_cons.2 h)
      rw [fill, if_neg (Ne.symm hne), fillAll_eq_self inner hinner]

theorem fillAll_eq_self : ∀ handles : List Handle, number ∉ numbersOf handles →
    fillAll number parts handles = handles
  | [], _ => rfl
  | handle :: rest, h => by
      obtain ⟨hfirst, hrest⟩ := not_or.1 (mt List.mem_append.2 h)
      rw [fillAll, fill_eq_self handle hfirst, fillAll_eq_self rest hrest]

end

mutual

theorem fillValue_eq_self : ∀ (handle : Handle) (v : Value), number ∉ numbers handle →
    fillValue number content handle v = v
  | .plain, _, _ => rfl
  | .object other inner, v, h => by
      obtain ⟨hne, hinner⟩ := not_or.1 (mt List.mem_cons.2 h)
      rw [fillValue, if_neg (Ne.symm hne), fillValues_eq_self inner v.parts hinner,
        v.withParts_parts]

theorem fillValues_eq_self : ∀ (handles : List Handle) (values : List Value),
    number ∉ numbersOf handles → fillValues number content handles values = values
  | [], _, _ => rfl
  | _ :: _, [], _ => rfl
  | handle :: rest, v :: values, h => by
      obtain ⟨hfirst, hrest⟩ := not_or.1 (mt List.mem_append.2 h)
      rw [fillValues, fillValue_eq_self handle v hfirst, fillValues_eq_self rest values hrest]

end

mutual

theorem mem_numbers_fill : ∀ handle : Handle, o ∈ numbers (fill number parts handle) →
    o ∈ numbers handle ∨ o ∈ numbersOf parts
  | .plain, h => .inl h
  | .object other inner, h => by
      rw [fill, numbers] at h
      rcases List.mem_cons.1 h with rfl | h
      · exact .inl List.mem_cons_self
      split at h
      · exact .inr h
      · exact (mem_numbersOf_fillAll inner h).imp_left (List.mem_cons_of_mem _)

theorem mem_numbersOf_fillAll : ∀ handles : List Handle,
    o ∈ numbersOf (fillAll number parts handles) → o ∈ numbersOf handles ∨ o ∈ numbersOf parts
  | [], h => .inl h
  | handle :: rest, h => by
      rcases List.mem_append.1 h with h | h
      · exact (mem_numbers_fill handle h).imp_left (List.mem_append_left _)
      · exact (mem_numbersOf_fillAll rest h).imp_left (List.mem_append_right _)

end

mutual

theorem mem_nodes_fillValue : ∀ (handle : Handle) (v : Value),
    c ∈ (fillValue number content handle v).nodes → c ∈ v.nodes ∨ c ∈ content.nodes
  | .plain, _, h => .inl h
  | .object other inner, v, h => by
      rw [fillValue] at h
      split at h
      · exact .inr h
      rcases Value.mem_nodes_withParts h with h | h
      · exact (mem_nodesList_fillValues inner v.parts h).imp_left Value.mem_nodes_of_mem_parts
      · exact .inl h

theorem mem_nodesList_fillValues : ∀ (handles : List Handle) (values : List Value),
    c ∈ Value.nodesList (fillValues number content handles values) →
      c ∈ Value.nodesList values ∨ c ∈ content.nodes
  | [], _, h => .inl h
  | _ :: _, [], h => .inl h
  | handle :: rest, v :: values, h => by
      rcases List.mem_append.1 h with h | h
      · exact (mem_nodes_fillValue handle v h).imp_left (List.mem_append_left _)
      · exact (mem_nodesList_fillValues rest values h).imp_left (List.mem_append_right _)

end

mutual

theorem numbers_renew (base : Nat) : ∀ handle : Handle,
    numbers (renew base handle) = (numbers handle).map (base + ·)
  | .plain => rfl
  | .object number parts => by
      rw [renew, numbers, numbersOf_renewAll base parts, numbers, List.map_cons]

theorem numbersOf_renewAll (base : Nat) : ∀ handles : List Handle,
    numbersOf (renewAll base handles) = (numbersOf handles).map (base + ·)
  | [] => rfl
  | handle :: rest => by
      rw [renewAll, numbersOf, numbers_renew base handle, numbersOf_renewAll base rest, numbersOf,
        List.map_append]

end

mutual

/-- A handle with other numbers fits what it fitted. -/
theorem Fits.renew (base : Nat) : ∀ (handle : Handle) (v : Value),
    handle.Fits v → (handle.renew base).Fits v
  | .plain, _, h => h
  | .object _ parts, v, h => ⟨h.1, FitAll.renewAll base parts v.parts h.2⟩

theorem FitAll.renewAll (base : Nat) : ∀ (handles : List Handle) (values : List Value),
    FitAll handles values → FitAll (renewAll base handles) values
  | [], [], _ => trivial
  | handle :: rest, v :: values, h =>
      ⟨Fits.renew base handle v h.1, FitAll.renewAll base rest values h.2⟩
  | [], _ :: _, h => h.elim
  | _ :: _, [], h => h.elim

end

mutual

/-- A handle fits a value also with other nodes in it. -/
theorem Fits.mapNodes (g : NodeId → NodeId) : ∀ (handle : Handle) (v : Value),
    handle.Fits v → handle.Fits (v.mapNodes g)
  | .plain, v, h => (Value.hasParts_mapNodes g v).trans h
  | .object _ parts, v, h => by
      refine ⟨(Value.hasParts_mapNodes g v).trans h.1, ?_⟩
      rw [Value.parts_mapNodes]
      exact FitAll.map_mapNodes g parts v.parts h.2

theorem FitAll.map_mapNodes (g : NodeId → NodeId) :
    ∀ (handles : List Handle) (values : List Value), FitAll handles values →
      FitAll handles (values.map (Value.mapNodes g))
  | [], [], _ => trivial
  | handle :: rest, v :: values, h =>
      ⟨Fits.mapNodes g handle v h.1, FitAll.map_mapNodes g rest values h.2⟩
  | [], _ :: _, h => h.elim
  | _ :: _, [], h => h.elim

end

theorem mem_numbersOf_put (h : o ∈ numbersOf (put names handles name handle)) :
    o ∈ numbersOf handles ∨ o ∈ numbers handle := by
  fun_induction put names handles name handle with
  | case1 key names old handles hkey =>
      rcases List.mem_append.1 h with h | h
      · exact .inr h
      · exact .inl (List.mem_append_right _ h)
  | case2 key names old handles hkey ih =>
      rcases List.mem_append.1 h with h | h
      · exact .inl (List.mem_append_left _ h)
      · exact (ih h).imp_left (List.mem_append_right _)
  | case3 => exact .inr (by simpa [numbersOf] using h)

theorem numbers_under_subset : numbers (under names handles name) ⊆ numbersOf handles := by
  fun_induction under names handles name with
  | case1 key names handle handles hkey => exact List.subset_append_left _ _
  | case2 key names handle handles hkey ih => exact fun o ho => List.mem_append_right _ (ih ho)
  | case3 => exact List.nil_subset _

end Handle

end MarkdownTree
