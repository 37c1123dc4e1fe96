import MarkdownTree.Forest.Copy
import MarkdownTree.Proofs.Growth

/-!
Copies of metadata records. What can be reached from the nodes of a record is closed under parents,
children and metadata, so the copies of these nodes are linked among themselves exactly as the nodes
are, and the rest of the forest does not notice them.
-/

namespace MarkdownTree.Forest

variable {f : Forest} {c k m n p : Nat} {seen frontier listed : List NodeId} {steps : Nat}

/-! ### Reaching -/

theorem nodup_eraseDups (list : List Nat) : list.eraseDups.Nodup := by
  generalize hlen : list.length = len
  induction len using Nat.strongRecOn generalizing list with
  | ind len ih =>
      cases list with
      | nil => simp
      | cons a rest =>
          rw [List.eraseDups_cons]
          have hshort : (rest.filter fun b => !b == a).length < len := by
            have hle := List.length_filter_le (fun b => !b == a) rest
            rw [List.length_cons] at hlen
            omega
          refine List.nodup_cons.2 ⟨fun ha => ?_, ih _ hshort _ rfl⟩
          have hmem := List.mem_eraseDups.1 ha
          simp at hmem

def unseen (seen frontier : List NodeId) : List NodeId :=
  (frontier.filter (!seen.contains ·)).eraseDups

theorem mem_unseen : m ∈ unseen seen frontier ↔ m ∈ frontier ∧ m ∉ seen := by
  simp [unseen, List.mem_eraseDups, List.mem_filter]

theorem lt_size_of_mem_neighbours (hf : f.WellFormed) (hm : m ∈ f.neighbours n) : m < f.size := by
  simp only [neighbours, List.mem_append, Option.mem_toList] at hm
  rcases hm with (hm | hm) | hm
  · exact lt_size_of_mem_children (hf.mem_of_parent? hm)
  · exact hf.lt_size_of_mem hm
  · exact lt_of_mem_metadata hf hm

/-- What a search has found after some rounds: each node once, and all neighbours of a node that was
seen are seen or are next. -/
structure Searching (f : Forest) (seen frontier : List NodeId) : Prop where
  nodup : seen.Nodup
  seen_lt : ∀ n ∈ seen, n < f.size
  frontier_lt : ∀ n ∈ frontier, n < f.size
  covered : ∀ n ∈ seen, ∀ m ∈ f.neighbours n, m ∈ seen ∨ m ∈ frontier

theorem Searching.length_le (h : f.Searching seen frontier) : seen.length ≤ f.size := by
  have hsub : seen ⊆ List.range f.size := fun n hn => List.mem_range.2 (h.seen_lt n hn)
  simpa using (List.subperm_of_subset h.nodup hsub).length_le

theorem Searching.advance (hf : f.WellFormed) (h : f.Searching seen frontier) :
    f.Searching (seen ++ unseen seen frontier)
      ((unseen seen frontier).flatMap f.neighbours) where
  nodup := by
    refine List.nodup_append'.2 ⟨h.nodup, nodup_eraseDups _, fun n hn hn' => ?_⟩
    exact (mem_unseen.1 hn').2 hn
  seen_lt n hn := by
    rcases List.mem_append.1 hn with hn | hn
    · exact h.seen_lt n hn
    · exact h.frontier_lt n (mem_unseen.1 hn).1
  frontier_lt n hn := by
    obtain ⟨m, -, hm⟩ := List.mem_flatMap.1 hn
    exact lt_size_of_mem_neighbours hf hm
  covered n hn m hm := by
    rcases List.mem_append.1 hn with hn | hn
    · by_cases hs : m ∈ seen
      · exact Or.inl (List.mem_append_left _ hs)
      · have hmf := (h.covered n hn m hm).resolve_left hs
        exact Or.inl (List.mem_append_right _ (mem_unseen.2 ⟨hmf, hs⟩))
    · exact Or.inr (List.mem_flatMap.2 ⟨n, hn, hm⟩)

/-- A search with a round for each node that was not seen, and one more, misses nothing. -/
theorem reachWithin_closed (hf : f.WellFormed) (h : f.Searching seen frontier)
    (hsteps : f.size < seen.length + steps) :
    f.Searching (f.reachWithin steps seen frontier) [] ∧
      seen ⊆ f.reachWithin steps seen frontier ∧ frontier ⊆ f.reachWithin steps seen frontier := by
  induction steps generalizing seen frontier with
  | zero =>
      -- There are not that many nodes.
      have hle := h.length_le
      omega
  | succ steps ih =>
      show f.Searching (if (unseen seen frontier).isEmpty then seen else _) [] ∧
        seen ⊆ (if (unseen seen frontier).isEmpty then seen else _) ∧
        frontier ⊆ (if (unseen seen frontier).isEmpty then seen else _)
      by_cases hempty : (unseen seen frontier).isEmpty = true
      · rw [if_pos hempty]
        have hin : ∀ m ∈ frontier, m ∈ seen := by
          intro m hm
          by_contra hs
          have hmem := mem_unseen.2 ⟨hm, hs⟩
          rw [List.isEmpty_iff.1 hempty] at hmem
          cases hmem
        refine ⟨⟨h.nodup, h.seen_lt, by simp, fun n hn m hm => ?_⟩, List.Subset.refl _, hin⟩
        exact Or.inl ((h.covered n hn m hm).elim id (hin m))
      · rw [if_neg hempty]
        -- A round that finds a node makes up for the step that it takes.
        have hpos : 0 < (unseen seen frontier).length := by
          rw [List.length_pos_iff]
          simpa using hempty
        obtain ⟨hdone, hsub, -⟩ := ih (h.advance hf) (by rw [List.length_append]; omega)
        refine ⟨hdone, fun n hn => hsub (List.mem_append_left _ hn), fun n hn => ?_⟩
        by_cases hs : n ∈ seen
        · exact hsub (List.mem_append_left _ hs)
        · exact hsub (List.mem_append_right _ (mem_unseen.2 ⟨hn, hs⟩))

/-- The nodes to copy: each once, all existing, with the parent, the children and the metadata of
each. -/
structure Closed (f : Forest) (listed : List NodeId) : Prop where
  nodup : listed.Nodup
  lt_size : ∀ n ∈ listed, n < f.size
  mem_of_neighbours : ∀ n ∈ listed, ∀ m ∈ f.neighbours n, m ∈ listed

theorem reach_closed (hf : f.WellFormed) (hlt : ∀ n ∈ frontier, n < f.size) :
    f.Closed (f.reach frontier) ∧ frontier ⊆ f.reach frontier := by
  have hstart : f.Searching [] frontier := ⟨List.nodup_nil, by simp, hlt, by simp⟩
  have hrounds : f.size < ([] : List NodeId).length + (f.size + 1) := by simp
  obtain ⟨hdone, -, hsub⟩ := reachWithin_closed hf hstart hrounds
  refine ⟨⟨hdone.nodup, hdone.seen_lt, fun n hn m hm => ?_⟩, hsub⟩
  exact (hdone.covered n hn m hm).resolve_right (by simp)

namespace Closed

variable (h : f.Closed listed)

include h

theorem mem_of_parent? (hn : n ∈ listed) (hp : f.parent? n = some p) : p ∈ listed := by
  refine h.mem_of_neighbours n hn p ?_
  simp [neighbours, hp]

theorem mem_of_mem_children (hn : n ∈ listed) (hc : c ∈ f.children n) : c ∈ listed := by
  refine h.mem_of_neighbours n hn c ?_
  simp [neighbours, hc]

end Closed

/-! ### Numbers of copies -/

theorem renumber_of_not_mem (base : Nat) (hn : n ∉ listed) : renumber listed base n = n := by
  have hnone : listed.findIdx? (· == n) = none := by
    rw [List.findIdx?_eq_none_iff]
    intro m hm
    simpa using fun hmn : m = n => hn (hmn ▸ hm)
  simp [renumber, hnone]

/-- A listed number becomes the base plus its place. -/
theorem exists_renumber (base : Nat) (hn : n ∈ listed) :
    ∃ i, listed[i]? = some n ∧ renumber listed base n = base + i := by
  obtain ⟨i, hi⟩ := exists_indexOf hn
  unfold indexOf at hi
  cases hfind : listed.findIdx? (· == n) with
  | none => simp [hfind] at hi
  | some j =>
      refine ⟨j, ?_, by simp [renumber, hfind]⟩
      obtain ⟨hj, heq, -⟩ := List.findIdx?_eq_some_iff_getElem.1 hfind
      rw [List.getElem?_eq_getElem hj]
      exact congrArg some (by simpa using heq)

theorem renumber_getElem? (hlisted : listed.Nodup) (base : Nat) {i : Nat}
    (hi : listed[i]? = some n) : renumber listed base n = base + i := by
  obtain ⟨j, hj, heq⟩ := exists_renumber base (List.mem_of_getElem? hi)
  obtain ⟨hil, hin⟩ := List.getElem?_eq_some_iff.1 hi
  obtain ⟨hjl, hjn⟩ := List.getElem?_eq_some_iff.1 hj
  have hij : i = j := (hlisted.getElem_inj_iff).1 (hin.trans hjn.symm)
  rw [heq, hij]

theorem renumber_inj {a b : Nat} (base : Nat) (ha : a ∈ listed) (hb : b ∈ listed)
    (hab : renumber listed base a = renumber listed base b) : a = b := by
  obtain ⟨i, hi, hai⟩ := exists_renumber base ha
  obtain ⟨j, hj, hbj⟩ := exists_renumber base hb
  have hij : i = j := by omega
  rw [hij, hj] at hi
  exact (Option.some.inj hi).symm

theorem renumber_lt (hn : n < k) : renumber listed k n < k + listed.length := by
  by_cases hmem : n ∈ listed
  · obtain ⟨i, hi, heq⟩ := exists_renumber k hmem
    have hlen := (List.getElem?_eq_some_iff.1 hi).1
    omega
  · rw [renumber_of_not_mem k hmem]
    omega

/-! ### Linked copies -/

/-- `Copied f g listed` says that `g` has the nodes of `f` and after them copies of the listed ones,
linked among themselves. -/
structure Copied (f g : Forest) (listed : List NodeId) : Prop where
  size_eq : g.size = f.size + listed.length
  parent?_old (n : NodeId) (hn : n < f.size) : g.parent? n = f.parent? n
  children_old (n : NodeId) (hn : n < f.size) : g.children n = f.children n
  kind_old (n : NodeId) (hn : n < f.size) : g.kind n = f.kind n
  parent?_new (i : Nat) (n : NodeId) (hi : listed[i]? = some n) :
    g.parent? (f.size + i) = (f.parent? n).map (renumber listed f.size)
  children_new (i : Nat) (n : NodeId) (hi : listed[i]? = some n) :
    g.children (f.size + i) = (f.children n).map (renumber listed f.size)
  kind_new (i : Nat) (n : NodeId) (hi : listed[i]? = some n) : g.kind (f.size + i) = f.kind n

namespace Copied

variable {g : Forest} (hg : f.Copied g listed) (hf : f.WellFormed) (hl : f.Closed listed)

include hg

/-- A node of the result is an old one, or the copy of a listed one. -/
theorem old_or_new (hm : m < g.size) :
    m < f.size ∨ ∃ i n, listed[i]? = some n ∧ m = f.size + i := by
  rcases Nat.lt_or_ge m f.size with hlt | hge
  · exact Or.inl hlt
  · have hi : m - f.size < listed.length := by
      have hsize := hg.size_eq
      omega
    exact Or.inr ⟨m - f.size, _, List.getElem?_eq_getElem hi, by omega⟩

include hf hl

theorem mem_children_iff (p c : NodeId) : c ∈ g.children p ↔ g.parent? c = some p := by
  constructor
  · intro hc
    rcases hg.old_or_new (lt_size_of_mem_children hc) with hp | ⟨i, n, hi, rfl⟩
    · rw [hg.children_old p hp] at hc
      rw [hg.parent?_old c (hf.lt_size_of_mem hc)]
      exact hf.parent?_of_mem hc
    · rw [hg.children_new i n hi] at hc
      obtain ⟨k, hk, rfl⟩ := List.mem_map.1 hc
      have hn := List.mem_of_getElem? hi
      obtain ⟨j, hj, hkj⟩ := exists_renumber f.size (hl.mem_of_mem_children hn hk)
      rw [hkj, hg.parent?_new j k hj, hf.parent?_of_mem hk, Option.map_some,
        renumber_getElem? hl.nodup f.size hi]
  · intro hp
    rcases hg.old_or_new (lt_size_of_parent? hp) with hc | ⟨j, k, hj, rfl⟩
    · rw [hg.parent?_old c hc] at hp
      have hmem := hf.mem_of_parent? hp
      rw [hg.children_old p (lt_size_of_mem_children hmem)]
      exact hmem
    · rw [hg.parent?_new j k hj] at hp
      obtain ⟨n, hn, rfl⟩ := Option.map_eq_some_iff.1 hp
      have hk := List.mem_of_getElem? hj
      obtain ⟨i, hi, hni⟩ := exists_renumber f.size (hl.mem_of_parent? hk hn)
      rw [hni, hg.children_new i n hi, ← renumber_getElem? hl.nodup f.size hj]
      exact List.mem_map_of_mem (hf.mem_of_parent? hn)

theorem nodup_children (p : NodeId) : (g.children p).Nodup := by
  by_cases hp : p < g.size
  · rcases hg.old_or_new hp with hp | ⟨i, n, hi, rfl⟩
    · rw [hg.children_old p hp]
      exact hf.nodup_children p
    · rw [hg.children_new i n hi]
      refine (List.nodup_map_iff_inj_on (hf.nodup_children n)).2 fun a ha b hb hab => ?_
      have hn := List.mem_of_getElem? hi
      exact renumber_inj f.size (hl.mem_of_mem_children hn ha) (hl.mem_of_mem_children hn hb) hab
  · rw [show g.children p = [] by simp [children, show g.nodes.size ≤ p from Nat.le_of_not_lt hp]]
    exact List.nodup_nil

/-- Ancestors of a copy are copies of ancestors; those of an old node are old. -/
theorem ancestor_source {a b : Nat} (hab : g.Ancestor a b) :
    (b < f.size ∧ f.Ancestor a b) ∨
      ∃ i j m n, listed[i]? = some m ∧ listed[j]? = some n ∧ a = f.size + i ∧ b = f.size + j ∧
        f.Ancestor m n := by
  induction hab with
  | @parent b hp =>
      rcases hg.old_or_new (lt_size_of_parent? hp) with hb | ⟨j, n, hj, rfl⟩
      · exact Or.inl ⟨hb, .parent (by rwa [hg.parent?_old b hb] at hp)⟩
      · rw [hg.parent?_new j n hj] at hp
        obtain ⟨m, hm, rfl⟩ := Option.map_eq_some_iff.1 hp
        obtain ⟨i, hi, hmi⟩ :=
          exists_renumber f.size (hl.mem_of_parent? (List.mem_of_getElem? hj) hm)
        exact Or.inr ⟨i, j, m, n, hi, hj, hmi, rfl, .parent hm⟩
  | @above b q hq _ ih =>
      rcases hg.old_or_new (lt_size_of_parent? hq) with hb | ⟨j, n, hj, rfl⟩
      · rw [hg.parent?_old b hb] at hq
        have hqs : q < f.size := lt_size_of_mem_children (hf.mem_of_parent? hq)
        rcases ih with ⟨-, ha⟩ | ⟨i, j, m, n, -, -, -, hqj, -⟩
        · exact Or.inl ⟨hb, .above hq ha⟩
        · rw [hqj] at hqs
          exact absurd hqs (Nat.not_lt.2 (Nat.le_add_right _ _))
      · rw [hg.parent?_new j n hj] at hq
        obtain ⟨k, hk, rfl⟩ := Option.map_eq_some_iff.1 hq
        obtain ⟨l, hlk, hkl⟩ :=
          exists_renumber f.size (hl.mem_of_parent? (List.mem_of_getElem? hj) hk)
        rcases ih with ⟨hlt, -⟩ | ⟨i, j', m, n', hi, hj', ha, hn', hmn⟩
        · omega
        · have hjl : j' = l := by omega
          rw [hjl, hlk] at hj'
          cases hj'
          exact Or.inr ⟨i, j, m, n, hi, hj, ha, rfl, .above hk hmn⟩

theorem not_ancestor_self (n : Nat) : ¬ g.Ancestor n n := by
  intro hn
  rcases hg.ancestor_source hf hl hn with ⟨-, hn⟩ | ⟨i, j, m, k, hi, hj, hni, hnj, hmk⟩
  · exact hf.not_ancestor_self n hn
  · have hij : i = j := by omega
    rw [hij, hj] at hi
    cases hi
    exact hf.not_ancestor_self _ hmk

theorem canContain_of_mem (p c : NodeId) (hc : c ∈ g.children p) :
    (g.kind p).canContain (g.kind c) = true := by
  rcases hg.old_or_new (lt_size_of_mem_children hc) with hp | ⟨i, n, hi, rfl⟩
  · rw [hg.children_old p hp] at hc
    rw [hg.kind_old p hp, hg.kind_old c (hf.lt_size_of_mem hc)]
    exact hf.canContain_of_mem p c hc
  · rw [hg.children_new i n hi] at hc
    obtain ⟨k, hk, rfl⟩ := List.mem_map.1 hc
    obtain ⟨j, hj, hkj⟩ :=
      exists_renumber f.size (hl.mem_of_mem_children (List.mem_of_getElem? hi) hk)
    rw [hkj, hg.kind_new i n hi, hg.kind_new j k hj]
    exact hf.canContain_of_mem n k hk

end Copied

/-! ### Copies of records -/

def recordNodes (f : Forest) (record : Nat) : List NodeId :=
  f.reach (Value.nodesEntries (f.records[record]?.getD []))

theorem closed_recordNodes (hf : f.WellFormed) (record : Nat) :
    f.Closed (f.recordNodes record) :=
  (reach_closed hf fun _ => hf.lt_of_mem_entries).1

def recordElements (f : Forest) (record : Nat) : List Nat :=
  ((f.recordNodes record).map f.elementKey).eraseDups

def recordRecords (f : Forest) (record : Nat) : List Nat :=
  (record :: (f.recordNodes record).map f.recordKey).eraseDups

theorem nodes_copyRecord_old (record : Nat) (hn : n < f.size) :
    (f.copyRecord record).2.nodes[n]? = f.nodes[n]? :=
  Array.getElem?_append_left hn

theorem nodes_copyRecord_new {i record : Nat} (hi : (f.recordNodes record)[i]? = some n) :
    (f.copyRecord record).2.nodes[f.size + i]? = some
      ⟨renumber (f.recordElements record) f.elements.size (f.elementKey n),
        (f.parent? n).map (renumber (f.recordNodes record) f.size),
        (f.children n).map (renumber (f.recordNodes record) f.size),
        renumber (f.recordRecords record) f.records.size (f.recordKey n)⟩ := by
  change (f.nodes ++ _)[f.nodes.size + i]? = _
  rw [Array.getElem?_append_right (Nat.le_add_right _ _), Nat.add_sub_cancel_left,
    List.getElem?_toArray, List.getElem?_map]
  change Option.map _ (f.recordNodes record)[i]? = _
  rw [hi]
  rfl

theorem elements_copyRecord_old {key : Nat} (record : Nat) (hk : key < f.elements.size) :
    (f.copyRecord record).2.elements[key]? = f.elements[key]? :=
  Array.getElem?_append_left hk

theorem elements_copyRecord_new {i key record : Nat}
    (hi : (f.recordElements record)[i]? = some key) :
    (f.copyRecord record).2.elements[f.elements.size + i]? =
      some (f.elements[key]?.getD default) := by
  change (f.elements ++ _)[f.elements.size + i]? = _
  rw [Array.getElem?_append_right (Nat.le_add_right _ _), Nat.add_sub_cancel_left,
    List.getElem?_toArray, List.getElem?_map]
  change Option.map _ (f.recordElements record)[i]? = _
  rw [hi]
  rfl

theorem size_elements_copyRecord (f : Forest) (record : Nat) :
    (f.copyRecord record).2.elements.size =
      f.elements.size + (f.recordElements record).length := by
  simp [copyRecord, recordElements, recordNodes]

theorem size_records_copyRecord (f : Forest) (record : Nat) :
    (f.copyRecord record).2.records.size = f.records.size + (f.recordRecords record).length := by
  simp [copyRecord, recordRecords, recordNodes]

theorem kindAt_copyRecord {key : Nat} (record : Nat) (hk : key < f.elements.size) :
    (f.copyRecord record).2.kindAt key = f.kindAt key := by
  rw [kindAt, kindAt, elements_copyRecord_old record hk]

theorem renumber_lt_of_mem {k n : Nat} (hn : n ∈ listed) :
    renumber listed k n < k + listed.length := by
  obtain ⟨i, hi, heq⟩ := exists_renumber k hn
  have hlen := (List.getElem?_eq_some_iff.1 hi).1
  omega

theorem elementKey_mem_recordElements {record : Nat} (hn : n ∈ f.recordNodes record) :
    f.elementKey n ∈ f.recordElements record :=
  List.mem_eraseDups.2 (List.mem_map_of_mem hn)

theorem recordKey_mem_recordRecords {record : Nat} (hn : n ∈ f.recordNodes record) :
    f.recordKey n ∈ f.recordRecords record :=
  List.mem_eraseDups.2 (List.mem_cons_of_mem _ (List.mem_map_of_mem hn))

theorem copied_copyRecord (hf : f.WellFormed) (record : Nat) :
    f.Copied (f.copyRecord record).2 (f.recordNodes record) where
  size_eq := by simp [copyRecord, recordNodes, size]
  parent?_old n hn := by rw [parent?, parent?, nodes_copyRecord_old record hn]
  children_old n hn := by rw [children, children, nodes_copyRecord_old record hn]
  kind_old n hn := by
    change (f.copyRecord record).2.kindAt _ = f.kindAt (f.elementKey n)
    rw [elementKey, nodes_copyRecord_old record hn]
    exact kindAt_copyRecord record (hf.elementKey_lt n hn)
  parent?_new i n hi := by rw [parent?, nodes_copyRecord_new hi, Option.bind_some]
  children_new i n hi := by rw [children, nodes_copyRecord_new hi]
  kind_new i n hi := by
    obtain ⟨j, hj, heq⟩ := exists_renumber f.elements.size
      (elementKey_mem_recordElements (List.mem_of_getElem? hi))
    change (f.copyRecord record).2.kindAt _ = f.kindAt (f.elementKey n)
    rw [elementKey, nodes_copyRecord_new hi]
    change (f.copyRecord record).2.kindAt (renumber _ _ _) = _
    rw [heq, kindAt, elements_copyRecord_new hj]
    rfl

/-! ### Node references of copies -/

mutual

theorem mem_nodes_mapNodes {g : Nat → Nat} :
    ∀ (v : Value), c ∈ (v.mapNodes g).nodes → ∃ n ∈ v.nodes, c = g n
  | .node id, hc => ⟨id, by simp [Value.nodes], by simpa [Value.mapNodes, Value.nodes] using hc⟩
  | .list items, hc => mem_nodesList_mapNodes items hc
  | .mapping entries, hc => mem_nodesEntries_mapNodes entries hc
  | .record _ fields, hc => mem_nodesEntries_mapNodes fields hc
  | .null, hc | .bool _, hc | .int _, hc | .float _, hc | .str _, hc | .moment _, hc => by
      simp [Value.mapNodes, Value.nodes] at hc

theorem mem_nodesList_mapNodes {g : Nat → Nat} :
    ∀ (items : List Value), c ∈ Value.nodesList (Value.mapNodesList g items) →
      ∃ n ∈ Value.nodesList items, c = g n
  | [], hc => by simp [Value.mapNodesList, Value.nodesList] at hc
  | v :: rest, hc => by
      simp only [Value.mapNodesList, Value.nodesList, List.mem_append] at hc ⊢
      rcases hc with hc | hc
      · obtain ⟨n, hn, rfl⟩ := mem_nodes_mapNodes v hc
        exact ⟨n, Or.inl hn, rfl⟩
      · obtain ⟨n, hn, rfl⟩ := mem_nodesList_mapNodes rest hc
        exact ⟨n, Or.inr hn, rfl⟩

theorem mem_nodesEntries_mapNodes {g : Nat → Nat} :
    ∀ (entries : List (String × Value)),
      c ∈ Value.nodesEntries (Value.mapNodesEntries g entries) →
      ∃ n ∈ Value.nodesEntries entries, c = g n
  | [], hc => by simp [Value.mapNodesEntries, Value.nodesEntries] at hc
  | (_, v) :: rest, hc => by
      simp only [Value.mapNodesEntries, Value.nodesEntries, List.mem_append] at hc ⊢
      rcases hc with hc | hc
      · obtain ⟨n, hn, rfl⟩ := mem_nodes_mapNodes v hc
        exact ⟨n, Or.inl hn, rfl⟩
      · obtain ⟨n, hn, rfl⟩ := mem_nodesEntries_mapNodes rest hc
        exact ⟨n, Or.inr hn, rfl⟩

end

theorem records_copyRecord {r record : Nat} {entries : Entries}
    (hr : (f.copyRecord record).2.records[r]? = some entries) :
    f.records[r]? = some entries ∨ ∃ r' : Nat, entries =
      Value.mapNodesEntries (renumber (f.recordNodes record) f.size) (f.records[r']?.getD []) := by
  change (f.records ++ _)[r]? = _ at hr
  rw [Array.getElem?_append] at hr
  split at hr
  · exact Or.inl hr
  · rw [List.getElem?_toArray, List.getElem?_map] at hr
    obtain ⟨r', -, rfl⟩ := Option.map_eq_some_iff.1 hr
    exact Or.inr ⟨r', rfl⟩

/-- Copying a record adds nodes, elements and records, and disturbs nothing. -/
theorem carriesOn_copyRecord (hf : f.WellFormed) (record : Nat) :
    f.CarriesOn (f.copyRecord record).2 where
  wellFormed := by
    have hg := copied_copyRecord hf record
    have hl := closed_recordNodes hf record
    refine ⟨hg.mem_children_iff hf hl, hg.nodup_children hf hl, hg.not_ancestor_self hf hl,
      hg.canContain_of_mem hf hl, ?_, ?_, ?_⟩
    · intro n hn
      rw [size_elements_copyRecord]
      rcases hg.old_or_new hn with hn | ⟨i, m, hi, rfl⟩
      · rw [elementKey, nodes_copyRecord_old record hn]
        exact Nat.lt_of_lt_of_le (hf.elementKey_lt n hn) (Nat.le_add_right _ _)
      · rw [elementKey, nodes_copyRecord_new hi]
        exact renumber_lt_of_mem (elementKey_mem_recordElements (List.mem_of_getElem? hi))
    · intro n hn
      rw [size_records_copyRecord]
      rcases hg.old_or_new hn with hn | ⟨i, m, hi, rfl⟩
      · rw [recordKey, nodes_copyRecord_old record hn]
        exact Nat.lt_of_lt_of_le (hf.recordKey_lt n hn) (Nat.le_add_right _ _)
      · rw [recordKey, nodes_copyRecord_new hi]
        exact renumber_lt_of_mem (recordKey_mem_recordRecords (List.mem_of_getElem? hi))
    · intro r entries hr c hc
      rw [hg.size_eq]
      rcases records_copyRecord hr with hr | ⟨r', rfl⟩
      · exact Nat.lt_of_lt_of_le (hf.lt_of_mem_record r entries hr c hc) (Nat.le_add_right _ _)
      · obtain ⟨n, hn, rfl⟩ := mem_nodesEntries_mapNodes _ hc
        cases hold : f.records[r']? with
        | none => simp [hold, Value.nodesEntries] at hn
        | some old =>
            rw [hold] at hn
            exact renumber_lt (hf.lt_of_mem_record r' old hold n hn)
  size_le := by
    rw [(copied_copyRecord hf record).size_eq]
    exact Nat.le_add_right _ _
  elements_le := by
    rw [size_elements_copyRecord]
    exact Nat.le_add_right _ _
  records_le := by
    rw [size_records_copyRecord]
    exact Nat.le_add_right _ _
  kindAt_eq _ hk := kindAt_copyRecord record hk

theorem copyRecord_lt (f : Forest) (record : Nat) :
    (f.copyRecord record).1 < (f.copyRecord record).2.records.size := by
  rw [size_records_copyRecord]
  exact renumber_lt_of_mem (List.mem_eraseDups.2 List.mem_cons_self)

end MarkdownTree.Forest
