import MarkdownTree.Proofs.CopiedTrees
import MarkdownTree.Proofs.Subtrees
import MarkdownTree.Proofs.Within

/-!
Copies that match their sources. A copy of a tree always succeeds in a well-formed forest, leaves
everything that was there as it was, and matches the source: equal elements in the same places, and
equal metadata wherever those refer to no nodes. A draft of the copy depicts the source as soon as
it is made, and goes on to do so while the forest grows; planting it turns it into a tree that
matches.
-/

namespace MarkdownTree.Forest

variable {f g h : Forest} {c k m n p : NodeId} {depth : Nat} {nodes : List NodeId} {d : Draft}
  {ds : List Draft}

/-! ### Trees that match -/

/-- Down to a depth, the tree below `c` in `g` matches the one below `n` in `f`. Metadata are
compared where they refer to no nodes. -/
def MatchesWithin (f g : Forest) : Nat → NodeId → NodeId → Prop
  | 0, _, _ => True
  | depth + 1, n, c => g.element c = f.element n ∧
      (Value.nodesEntries (f.metadata n) = [] → g.metadata c = f.metadata n) ∧
      List.Forall₂ (MatchesWithin f g depth) (f.children n) (g.children c)

/-- The tree below `c` in `g` matches the one below `n` in `f`. -/
def Matches (f g : Forest) (n c : NodeId) : Prop :=
  ∀ depth, f.MatchesWithin g depth n c

theorem Within.sameTree (hg : g.WellFormed) (hgh : g.Within h) (hc : c < g.size) :
    g.SameTree h c := by
  intro m hm
  have hlt := hm.lt_size hc
  exact ⟨hgh.children_eq hlt, hgh.element_eq hg hlt, hgh.metadata_eq hg hlt⟩

/-- A tree that stayed as it was still matches what it matched. -/
theorem MatchesWithin.sameTree (hg : g.WellFormed) (hsame : g.SameTree h c)
    (hmatch : f.MatchesWithin g depth n c) : f.MatchesWithin h depth n c := by
  induction depth generalizing n c with
  | zero => trivial
  | succ depth ih =>
      obtain ⟨helement, hmetadata, hchildren⟩ := hmatch
      refine ⟨by rw [hsame.element_eq, helement], fun hplain => ?_, ?_⟩
      · rw [hsame.metadata_eq, hmetadata hplain]
      · rw [hsame.children_eq]
        exact forall₂_imp_of_mem hchildren fun m _ k hk hmk => ih (hsame.child hg hk) hmk

theorem Matches.sameTree (hg : g.WellFormed) (hsame : g.SameTree h c) (hmatch : f.Matches g n c) :
    f.Matches h n c :=
  fun depth => (hmatch depth).sameTree hg hsame

/-- What matches a tree matches it as it was before, as long as it stayed as it was. -/
theorem MatchesWithin.of_sameTree (hf : f.WellFormed) (hsame : f.SameTree g n)
    (hmatch : g.MatchesWithin h depth n c) : f.MatchesWithin h depth n c := by
  induction depth generalizing n c with
  | zero => trivial
  | succ depth ih =>
      obtain ⟨helement, hmetadata, hchildren⟩ := hmatch
      rw [hsame.element_eq] at helement
      rw [hsame.metadata_eq] at hmetadata
      rw [hsame.children_eq] at hchildren
      refine ⟨helement, hmetadata, ?_⟩
      exact forall₂_imp_of_mem hchildren fun m hm k _ hmk => ih (hsame.child hf hm) hmk

theorem Matches.of_sameTree (hf : f.WellFormed) (hsame : f.SameTree g n)
    (hmatch : g.Matches h n c) : f.Matches h n c :=
  fun depth => (hmatch depth).of_sameTree hf hsame

/-! ### Copies of metadata -/

theorem within_copyRecord (f : Forest) (record : Nat) : f.Within (f.copyRecord record).2 where
  node_eq _ hn := nodes_copyRecord_old record hn
  elements_eq _ hk := elements_copyRecord_old record hk
  records_eq _ hk := Array.getElem?_append_left hk

theorem le_renumber {listed : List Nat} {base : Nat} (hn : n ∈ listed) :
    base ≤ renumber listed base n := by
  obtain ⟨i, -, heq⟩ := exists_renumber base hn
  rw [heq]
  exact Nat.le_add_right base i

theorem enclosed_copyRecord (hf : f.WellFormed) (record : Nat) :
    f.Enclosed (f.copyRecord record).2 where
  within := within_copyRecord f record
  le_recordKey n hn hlt := by
    rcases (copied_copyRecord hf record).old_or_new hlt with hold | ⟨i, m, hi, rfl⟩
    · exact absurd hold (Nat.not_lt.2 hn)
    · rw [recordKey, nodes_copyRecord_new hi]
      exact le_renumber (recordKey_mem_recordRecords (List.mem_of_getElem? hi))

theorem le_copyRecord (f : Forest) (record : Nat) :
    f.records.size ≤ (f.copyRecord record).1 :=
  le_renumber (List.mem_eraseDups.2 List.mem_cons_self)

mutual

/-- A value without references to nodes stays as it is when nodes are renumbered. -/
theorem mapNodes_of_plain {r : NodeId → NodeId} :
    ∀ (v : Value), v.nodes = [] → v.mapNodes r = v
  | .node id, h => absurd h (List.cons_ne_nil id [])
  | .list items, h => congrArg Value.list (mapNodesList_of_plain items h)
  | .mapping entries, h => congrArg Value.mapping (mapNodesEntries_of_plain entries h)
  | .record type fields, h => congrArg (Value.record type) (mapNodesEntries_of_plain fields h)
  | .null, _ | .bool _, _ | .int _, _ | .float _, _ | .str _, _ | .moment _, _ => rfl

theorem mapNodesList_of_plain {r : NodeId → NodeId} :
    ∀ (items : List Value), Value.nodesList items = [] → Value.mapNodesList r items = items
  | [], _ => rfl
  | v :: rest, h => by
      rw [Value.nodesList, List.append_eq_nil_iff] at h
      rw [Value.mapNodesList, mapNodes_of_plain v h.1, mapNodesList_of_plain rest h.2]

theorem mapNodesEntries_of_plain {r : NodeId → NodeId} :
    ∀ (entries : List (String × Value)), Value.nodesEntries entries = [] →
      Value.mapNodesEntries r entries = entries
  | [], _ => rfl
  | (name, v) :: rest, h => by
      rw [Value.nodesEntries, List.append_eq_nil_iff] at h
      rw [Value.mapNodesEntries, mapNodes_of_plain v h.1, mapNodesEntries_of_plain rest h.2]

end

/-- A record without references to nodes is copied as it is. -/
theorem records_copyRecord_of_plain {record : Nat}
    (h : Value.nodesEntries (f.records[record]?.getD []) = []) :
    (f.copyRecord record).2.records[(f.copyRecord record).1]? =
      some (f.records[record]?.getD []) := by
  have hnodes : f.recordNodes record = [] := by
    rw [recordNodes, h]
    rfl
  have hrecords : f.recordRecords record = [record] := by
    rw [recordRecords, hnodes, List.map_nil, List.eraseDups_cons]
    rfl
  have hlisted : (f.recordRecords record)[0]? = some record := by rw [hrecords]; rfl
  have hnodup : (f.recordRecords record).Nodup := by
    rw [hrecords]
    exact List.nodup_singleton record
  have hnew : (f.copyRecord record).1 = f.records.size + 0 :=
    renumber_getElem? hnodup f.records.size hlisted
  rw [hnew]
  change (f.records ++ ((f.recordRecords record).map _).toArray)[f.records.size + 0]? = _
  rw [Array.getElem?_append_right (Nat.le_add_right _ _), Nat.add_sub_cancel_left,
    List.getElem?_toArray, List.getElem?_map, hlisted]
  exact congrArg some (mapNodesEntries_of_plain _ h)

/-! ### Drafts -/

mutual

/-- A draft depicts the tree below a node: it has elements and metadata like those of the nodes of
the tree, in the same places, and records of its own. -/
def Depicts (f g : Forest) : Draft → NodeId → Prop
  | .node element record children, n =>
    f.records.size ≤ record ∧ g.elements[element]? = some (f.element n) ∧
      (Value.nodesEntries (f.metadata n) = [] → g.records[record]? = some (f.metadata n)) ∧
      DepictsAll f g children (f.children n)

/-- Drafts depict the trees below nodes, one after the other. -/
def DepictsAll (f g : Forest) : List Draft → List NodeId → Prop
  | [], [] => True
  | d :: ds, n :: nodes => Depicts f g d n ∧ DepictsAll f g ds nodes
  | _, _ => False

end

mutual

/-- A draft still depicts a tree when the forest grows. -/
theorem Depicts.within (hgh : g.Within h) :
    ∀ (d : Draft) (n : NodeId), f.Depicts g d n → f.Depicts h d n
  | .node element record children, n, hd => by
      unfold Depicts at hd ⊢
      obtain ⟨hown, helement, hrecord, hchildren⟩ := hd
      have hlt := (Array.getElem?_eq_some_iff.1 helement).1
      refine ⟨hown, by rw [hgh.elements_eq element hlt, helement], fun hplain => ?_,
        DepictsAll.within hgh children (f.children n) hchildren⟩
      have hlt := (Array.getElem?_eq_some_iff.1 (hrecord hplain)).1
      rw [hgh.records_eq record hlt, hrecord hplain]

theorem DepictsAll.within (hgh : g.Within h) :
    ∀ (ds : List Draft) (nodes : List NodeId), f.DepictsAll g ds nodes → f.DepictsAll h ds nodes
  | [], [], _ => trivial
  | d :: ds, n :: nodes, hds =>
      ⟨Depicts.within hgh d n hds.1, DepictsAll.within hgh ds nodes hds.2⟩
  | [], _ :: _, hds => hds.elim
  | _ :: _, [], hds => hds.elim

end

section
open Asking
variable {σ ε : Type}

/-- What a part of a copy comes to that succeeds: the forest grows, and an answer of some kind is
made. -/
def Grows {α : Type} (x : Copying Unit TreeFault α) (g : Forest) (post : α → Forest → Prop) :
    Prop :=
  ∃ a h, result x g () = (.ok a, h, ()) ∧ g.Enclosed h ∧ h.WellFormed ∧ post a h

theorem Grows.bind {α β : Type} {x : Copying Unit TreeFault α} {next : α → Copying Unit TreeFault β}
    {mid : α → Forest → Prop} {post : β → Forest → Prop} (hx : Grows x g mid)
    (hnext : ∀ a h, g.Enclosed h → h.WellFormed → mid a h → Grows (next a) h post) :
    Grows (x >>= next) g post := by
  obtain ⟨a, h, hres, hgh, hh, hmid⟩ := hx
  obtain ⟨b, k, hres', hhk, hk, hpost⟩ := hnext a h hgh hh hmid
  exact ⟨b, k, by rw [result_bind, hres]; exact hres', hgh.trans hhk, hk, hpost⟩

theorem Grows.pure {α : Type} {a : α} {post : α → Forest → Prop} (hg : g.WellFormed)
    (h : post a g) : Grows (Pure.pure a) g post :=
  ⟨a, g, rfl, .refl g, hg, h⟩

theorem Grows.forest {α : Type} {next : Forest → Copying Unit TreeFault α}
    {post : α → Forest → Prop} (h : Grows (next g) g post) :
    Grows (Asking.forest >>= next) g post := by
  obtain ⟨a, h, hres, hkept⟩ := h
  exact ⟨a, h, by rw [result_bind, result_forest]; exact hres, hkept⟩

/-- The element and the metadata of the copy of a node. -/
theorem grows_choosePayload {parent : Option Kind} (hg : g.WellFormed) (hn : n < g.size)
    (hparent : ∀ k, parent = some k → k.canContain (g.kind n) = true) :
    Grows (choosePayload sameElements parent n) g fun chosen h => chosen.1 = g.kind n ∧
      g.records.size ≤ chosen.2.2 ∧ h.elements[chosen.2.1]? = some (g.element n) ∧
      (Value.nodesEntries (g.metadata n) = [] →
        h.records[chosen.2.2]? = some (g.metadata n)) := by
  have hcheck : g.checkPayload parent (g.elementKey n) (.own (g.element n)) = .ok () := by
    cases parent with
    | none => rfl
    | some k =>
        have hkind : k.canContain (g.element n).kind = true := hparent k rfl
        simp only [checkPayload, checkKinds, payloadKind, hkind, if_true]
  have hask : result ((sameElements : PayloadMap Unit TreeFault).ask CopyFailure.choice n) g () =
      (.ok (.own (g.element n)), g, ()) := rfl
  have hcarry := (carriesOn_addPayload hg (hg.elementKey_lt n hn) hcheck n).1
  refine ⟨(g.kind n, (addPayload (g.elementKey n) n (.own (g.element n)) g).1),
    (addPayload (g.elementKey n) n (.own (g.element n)) g).2, ?_, ?_, hcarry.wellFormed, rfl,
    le_copyRecord g (g.recordKey n), ?_, fun hplain => ?_⟩
  · simp only [choosePayload, result_bind, result_forest, hask, hcheck, result_change, result_pure]
    rfl
  · exact (enclosed_copyRecord hg _).trans (enclosed_addElement _ _)
  · simp [addPayload, addElement]
  · exact records_copyRecord_of_plain hplain

/-- The drafts of the children of a node depict them, if the draft of each child does. -/
theorem grows_draftFrom {draftOne : NodeId → Copying Unit TreeFault Draft} (hfg : f.Within g)
    (hg : g.WellFormed) (hn : n < f.size)
    (hone : ∀ c ∈ f.children n, ∀ g, f.Within g → g.WellFormed →
      Grows (draftOne c) g fun d h => f.Depicts h d c) {turns i : Nat}
    (hi : i ≤ (f.children n).length) (hturns : (f.children n).length < turns + i) :
    Grows (draftFrom draftOne n turns i) g fun ds h =>
      f.DepictsAll h ds ((f.children n).drop i) := by
  induction turns generalizing g i with
  | zero => omega
  | succ turns ih =>
      refine .forest ?_
      rw [hfg.children_eq hn]
      rcases Nat.lt_or_ge i (f.children n).length with hlt | hge
      · rw [List.getElem?_eq_getElem hlt]
        refine (hone _ (List.getElem_mem hlt) g hfg hg).bind fun d h hgh hh hd => ?_
        refine (ih (hfg.trans hgh.within) hh hlt (by omega)).bind fun ds k hhk hk hds => ?_
        refine .pure hk ?_
        rw [List.drop_eq_getElem_cons hlt]
        exact ⟨hd.within hhk.within d _, hds⟩
      · rw [List.getElem?_eq_none hge, List.drop_eq_nil_of_le hge]
        exact .pure hg trivial

/-- The draft of a tree depicts it. -/
theorem grows_draftWithin (hf : f.WellFormed) (hfg : f.Within g) (hg : g.WellFormed)
    (hn : n < f.size) (hdepth : f.EnoughFor n depth) {parent : Option Kind}
    (hparent : ∀ k, parent = some k → k.canContain (f.kind n) = true) :
    Grows (draftWithin sameElements 0 depth parent n) g fun d h => f.Depicts h d n := by
  induction depth generalizing g n parent with
  | zero => exact absurd hdepth.1 (Nat.lt_irrefl 0)
  | succ depth ih =>
      have hkind := hfg.kind_eq hf hn
      rw [← hkind] at hparent
      refine (grows_choosePayload hg (Nat.lt_of_lt_of_le hn hfg.size_le) hparent).bind
        fun chosen h hgh hh hchosen => .forest ?_
      obtain ⟨kind, element, record⟩ := chosen
      obtain ⟨rfl, hown, helement, hrecord⟩ := hchosen
      rw [hfg.element_eq hf hn] at helement
      rw [hfg.metadata_eq hf hn] at hrecord
      have hfh := hfg.trans hgh.within
      -- The kinds are those of the source, and there the child fits below its parent.
      have hbelow (c : NodeId) (hc : c ∈ f.children n) (k : Forest) (hfk : f.Within k)
          (hk : k.WellFormed) :
          Grows (draftWithin sameElements 0 depth (some (g.kind n)) c) k
            fun d h => f.Depicts h d c := by
        refine ih hfk hk (hf.lt_size_of_mem hc) (hdepth.child hf hc) fun kind heq => ?_
        cases heq
        rw [hkind]
        exact hf.canContain_of_mem n c hc
      refine (grows_draftFrom hfh hh hn hbelow (Nat.zero_le _) ?_).bind fun ds k hhk hk hds => ?_
      · rw [hfh.children_eq hn]
        omega
      refine .pure hk ?_
      unfold Depicts
      refine ⟨Nat.le_trans hfg.records_le hown, ?_, fun hplain => ?_, hds⟩
      · rw [hhk.within.elements_eq element (Array.getElem?_eq_some_iff.1 helement).1, helement]
      · have hlt := (Array.getElem?_eq_some_iff.1 (hrecord hplain)).1
        rw [hhk.within.records_eq record hlt, hrecord hplain]

end

/-! ### Planting -/

theorem element_addRoot_self (f : Forest) (element record : Nat) :
    (f.addRoot element record).2.element f.size = f.elements[element]?.getD default := by
  rw [Forest.element, elementKey_addRoot, if_pos rfl]
  rfl

theorem metadata_addRoot_self (f : Forest) (element record : Nat) :
    (f.addRoot element record).2.metadata f.size = f.records[record]?.getD [] := by
  rw [metadata, recordKey_addRoot, if_pos rfl]
  rfl

/-- Trees beside a forest that are joined below a new root stay as they are below that. -/
theorem sameTree_join {element record : Nat} (hc : c < g.size) :
    g.SameTree ((g.addRoot element record).2.attach g.size nodes nodes) c := by
  have hdata := sameData_attach (g.addRoot element record).2 g.size nodes nodes
  have hlast := lt_size_addRoot g element record
  intro m hm
  have hne : m ≠ g.size := Nat.ne_of_lt (hm.lt_size hc)
  refine ⟨?_, ?_, ?_⟩
  · rw [children_attach hlast, if_neg hne, children_addRoot]
  · rw [hdata.element_eq, element_addRoot g element record m hne]
  · rw [hdata.metadata_eq, metadata_addRoot g element record m hne]

/-- What planting drafts that depict trees comes to: the forest lies unchanged in the result, and
the new nodes have no records of that in which the trees stand. -/
structure Grown (f g h : Forest) : Prop where
  within : g.Within h
  le_recordKey (m : NodeId) (hm : g.size ≤ m) (hlt : m < h.size) : f.records.size ≤ h.recordKey m

theorem Grown.trans {k : Forest} (hgh : Grown f g h) (hhk : Grown f h k) : Grown f g k where
  within := hgh.within.trans hhk.within
  le_recordKey m hm hlt := by
    rcases Nat.lt_or_ge m h.size with hmh | hmh
    · rw [hhk.within.recordKey_eq hmh]
      exact hgh.le_recordKey m hm hmh
    · exact hhk.le_recordKey m hmh hlt

theorem Enclosed.planted (hfg : f.Enclosed g) (hgh : Grown f g h) : f.Enclosed h where
  within := hfg.within.trans hgh.within
  le_recordKey m hm hlt := by
    rcases Nat.lt_or_ge m g.size with hmg | hmg
    · rw [hgh.within.recordKey_eq hmg]
      exact hfg.le_recordKey m hm hmg
    · exact hgh.le_recordKey m hmg hlt

/-- A new root with a record of its own, over trees that were planted. -/
theorem Grown.join {element record : Nat} (hgh : Grown f g h) (hown : f.records.size ≤ record)
    (hnodes : ∀ k ∈ nodes, g.size ≤ k) :
    Grown f g ((h.addRoot element record).2.attach h.size nodes nodes) where
  within :=
    (hgh.within.trans (within_addRoot h element record)).attach hgh.within.size_le hnodes nodes
  le_recordKey m hm hlt := by
    have hdata := sameData_attach (h.addRoot element record).2 h.size nodes nodes
    rw [hdata.size_eq, size_addRoot] at hlt
    rw [hdata.recordKey_eq, recordKey_addRoot]
    by_cases hlast : m = h.size
    · rwa [if_pos hlast]
    · rw [if_neg hlast]
      exact hgh.le_recordKey m hm (Nat.lt_of_le_of_ne (Nat.le_of_lt_succ hlt) hlast)

mutual

/-- What a draft depicts, the planted tree matches. -/
theorem matches_plant : ∀ (d : Draft) (f g : Forest) (n : NodeId), g.WellFormed → d.Sound g →
    f.Depicts g d n → Grown f g (plant d g).2 ∧ f.Matches (plant d g).2 n (plant d g).1
  | .node element record children, f, g, n, hg, hsound, hd => by
      cases hsound with
      | node helement hrecord hsound hkind =>
          unfold Depicts at hd
          obtain ⟨hown, hlike, hplain, hchildren⟩ := hd
          have hplanted := planted_plantAll children g hg hsound
          obtain ⟨hgrown, hmatches⟩ :=
            matches_plantAll children f g (f.children n) hg hsound hchildren
          change Grown f g (((plantAll children g).2.addRoot element record).2.attach
              (plantAll children g).2.size (plantAll children g).1 (plantAll children g).1) ∧
            f.Matches (((plantAll children g).2.addRoot element record).2.attach
              (plantAll children g).2.size (plantAll children g).1 (plantAll children g).1) n
              (plantAll children g).2.size
          generalize (plantAll children g).2 = h at hplanted hgrown hmatches ⊢
          generalize (plantAll children g).1 = nodes at hplanted hmatches ⊢
          have hdata := sameData_attach (h.addRoot element record).2 h.size nodes nodes
          have hlast := lt_size_addRoot h element record
          refine ⟨hgrown.join hown fun k hk => (hplanted.new k hk).1, fun depth => ?_⟩
          cases depth with
          | zero => trivial
          | succ depth =>
              refine ⟨?_, fun hnone => ?_, ?_⟩
              · rw [hdata.element_eq, element_addRoot_self, hplanted.elements_eq, hlike]
                rfl
              · rw [hdata.metadata_eq, metadata_addRoot_self, hplanted.records_eq, hplain hnone]
                rfl
              · rw [children_attach hlast, if_pos rfl]
                refine forall₂_imp_of_mem hmatches fun m _ k hk hmk => ?_
                exact (hmk depth).sameTree hplanted.wellFormed
                  (sameTree_join (hplanted.new k hk).2.1)

theorem matches_plantAll : ∀ (ds : List Draft) (f g : Forest) (nodes : List NodeId),
    g.WellFormed → (∀ d ∈ ds, d.Sound g) → f.DepictsAll g ds nodes →
    Grown f g (plantAll ds g).2 ∧
      List.Forall₂ (f.Matches (plantAll ds g).2) nodes (plantAll ds g).1
  | [], f, g, [], _, _, _ => ⟨⟨.refl g, fun _ hm hlt => absurd hlt (Nat.not_lt.2 hm)⟩, .nil⟩
  | d :: ds, f, g, n :: nodes, hg, hsound, hds => by
      obtain ⟨hfirst, hmatch⟩ := matches_plant d f g n hg (hsound d List.mem_cons_self) hds.1
      have hplanted := planted_plant d g hg (hsound d List.mem_cons_self)
      obtain ⟨hrest, hmatches⟩ := matches_plantAll ds f (plant d g).2 nodes hplanted.wellFormed
        (fun d' hd' => (hsound d' (List.mem_cons_of_mem d hd')).carriesOn hplanted.carriesOn)
        (hds.2.within hfirst.within ds nodes)
      have hroot := hplanted.new _ (List.mem_singleton.2 rfl)
      refine ⟨hfirst.trans hrest, .cons ?_ hmatches⟩
      exact hmatch.sameTree hplanted.wellFormed
        (hrest.within.sameTree hplanted.wellFormed hroot.2.1)
  | [], _, _, _ :: _, _, _, hds => hds.elim
  | _ :: _, _, _, [], _, _, hds => hds.elim

end

/-! ### Copies -/

/-- What is known of the copy of the tree below a node: it is a tree of its own that matches, and
the forest lies unchanged beside it. -/
structure CopyOf (f g : Forest) (n c : NodeId) : Prop where
  enclosed : f.Enclosed g
  wellFormed : g.WellFormed
  le : f.size ≤ c
  lt_size : c < g.size
  isRoot : g.parent? c = none
  matched : f.Matches g n c

open Asking in
/-- A tree in a well-formed forest can always be copied. -/
theorem exists_copyOf (hf : f.WellFormed) (hn : n < f.size) :
    ∃ c g, outcome (copyTree n) f = (.ok c, g) ∧ f.CopyOf g n c := by
  have hgrows : Grows (draftWithin sameElements 0 (f.size + 1) none n) f
      fun d g => f.Depicts g d n :=
    grows_draftWithin hf (.refl f) hf hn (.size_succ f n) nofun
  obtain ⟨d, g, hdraft, hfg, hg, hdepicts⟩ := hgrows
  have hkeeps := keeps_draftWithin choosing_sameElements 0 (f.size + 1) none n f
    () _ _ _ hdraft trivial
  have hsound := ((hkeeps.2 hf hn).2 d rfl).sound
  have hplanted := planted_plant d g hg hsound
  obtain ⟨hgrown, hmatch⟩ := matches_plant d f g n hg hsound hdepicts
  obtain ⟨hle, hlt, hroot⟩ := hplanted.new _ (List.mem_singleton.2 rfl)
  refine ⟨(plant d g).1, (plant d g).2, ?_, hfg.planted hgrown, hplanted.wellFormed,
    Nat.le_trans hfg.within.size_le hle, hlt, hroot, hmatch⟩
  rw [outcome_copyTree, result_copyTreeWith, Nat.add_zero, hdraft]

end MarkdownTree.Forest
