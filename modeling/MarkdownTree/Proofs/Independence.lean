import MarkdownTree.Proofs.CopiedHandles
import MarkdownTree.Proofs.FencedPasses

/-!
Copies share nothing with their sources. Whatever can be reached from a copy did not exist before:
no node, element or dictionary of metadata, and no list or dictionary inside one of these. So no
operations on the source, or on anything else that existed before or was made later, change anything
within reach of the copy, and no operations on the copy, or on anything that was made later, change
what existed before.
-/

namespace MarkdownTree

open Forest Asking

variable {P : Region} {f g : Forest} {c m n : NodeId}

/-! ### Operations outside a region -/

/-- `LinksOutside P f g` says that one operation on nodes outside a region leads from `f` to `g`
that makes a node for an element and a dictionary, or changes links, or assigns anything from
outside to a node: links, an element, a dictionary. -/
inductive Forest.LinksOutside (P : Region) : Forest → Forest → Prop
  | addRoot {f : Forest} (element record : Nat) (helement : f.ElementOutside P element)
      (hrecord : f.RecordOutside P record) : LinksOutside P f (f.addRoot element record).2
  | insertChild {f : Forest} (p : NodeId) (i : Int) (v : Value) (hp : f.Outside P p)
      (hv : f.ValueOutside P v) : LinksOutside P f (outcome (insertChild p i v) f).2
  | appendChild {f : Forest} (p : NodeId) (v : Value) (hp : f.Outside P p)
      (hv : f.ValueOutside P v) : LinksOutside P f (outcome (appendChild p v) f).2
  | prependChild {f : Forest} (p : NodeId) (v : Value) (hp : f.Outside P p)
      (hv : f.ValueOutside P v) : LinksOutside P f (outcome (prependChild p v) f).2
  | insertBefore {f : Forest} (n : NodeId) (v : Value) (hn : f.Outside P n)
      (hv : f.ValueOutside P v) : LinksOutside P f (outcome (insertBefore n v) f).2
  | insertAfter {f : Forest} (n : NodeId) (v : Value) (hn : f.Outside P n)
      (hv : f.ValueOutside P v) : LinksOutside P f (outcome (insertAfter n v) f).2
  | removeChild {f : Forest} (p : NodeId) (v : Value) (hp : f.Outside P p) :
      LinksOutside P f (outcome (removeChild p v) f).2
  | unlink {f : Forest} (n : NodeId) (hn : f.Outside P n) :
      LinksOutside P f (outcome (unlink n) f).2
  | replaceChildBy {f : Forest} (rounds : Nat) (p : NodeId) (v : Value) (seq : Sequence)
      (hp : f.Outside P p) (hseq : f.SequenceOutside P seq) :
      LinksOutside P f (outcome (replaceChildBy rounds p v seq) f).2
  | updateNode {f : Forest} (n : NodeId) (change : Node → Node) (hn : f.Outside P n)
      (hchange : ∀ node, f.nodes[n]? = some node → f.Apart P (change node)) :
      LinksOutside P f (f.updateNode n change)

theorem Forest.LinksOutside.spares (h : LinksOutside P f g) (hf : f.Fenced P) : f.Spares P g := by
  cases h with
  | addRoot element record helement hrecord => exact (hf.addRoot helement hrecord).1
  | insertChild p i v hp hv => exact hf.attachAt isIndex hp i hv
  | appendChild p v hp hv => exact hf.appendChild hp hv
  | prependChild p v hp hv => exact hf.attachAt isIndex hp 0 hv
  | insertBefore n v hn hv => exact hf.insertSibling hn hv 0
  | insertAfter n v hn hv => exact hf.insertSibling hn hv 1
  | removeChild p v hp => exact hf.removeChild hp v
  | unlink n hn => exact hf.unlink hn
  | replaceChildBy rounds p v seq hp hseq => exact hf.replaceChildBy hp rounds v hseq
  | updateNode n change hn hchange => exact hf.updateNode hn.not_mem change hchange

namespace Heap

variable {T : Territory} {h k e : Heap}

/-- `LeadsOutside T h k` says that finitely many operations lead from `h` to `k` that are called on
nodes, elements, dictionaries and lists outside a territory: operations on trees, assignments to
fields and entries, changes of lists and dictionaries in place, copies, and passes. In a pass, what
the visitor does when it is called is of this kind; `handles i` are the handles before its call `i`,
and the pass itself changes none. -/
inductive LeadsOutside (T : Territory) : Heap → Heap → Prop
  | refl (h : Heap) : LeadsOutside T h h
  | trans {h k e : Heap} (hhk : LeadsOutside T h k) (hke : LeadsOutside T k e) :
      LeadsOutside T h e
  | link {h : Heap} {g : Forest} (hlink : h.forest.LinksOutside T.toRegion g) :
      LeadsOutside T h ⟨g, h.handles⟩
  | make {h : Heap} (element : Element) (fields : List Handle) (metadata : Entries)
      (dictionary : Handle) (hfields : Handle.AllOutside T fields)
      (hmeta : ∀ c ∈ Value.nodesEntries metadata, h.forest.Outside T.toRegion c)
      (hdictionary : dictionary.Outside T) :
      LeadsOutside T h (h.make element fields metadata dictionary)
  | newNode {h : Heap} (element : Element) (fields : List Handle) (children : Sequence)
      (metadata : Entries) (dictionary : Handle) (hfields : Handle.AllOutside T fields)
      (hchildren : h.forest.SequenceOutside T.toRegion children)
      (hmeta : ∀ c ∈ Value.nodesEntries metadata, h.forest.Outside T.toRegion c)
      (hdictionary : dictionary.Outside T) :
      LeadsOutside T h (h.newNode element fields children metadata dictionary).2
  | copyTree {h k : Heap} {c : NodeId} (n : NodeId) (hn : h.forest.Outside T.toRegion n)
      (hcopy : h.copyTree n = .ok (c, k)) : LeadsOutside T h k
  | assignElement {h : Heap} (n : NodeId) (element : Element) (fields : List Handle)
      (hn : h.forest.Outside T.toRegion n) (helement : ¬ T.element (h.forest.elementKey n))
      (hfields : Handle.AllOutside T fields) : LeadsOutside T h (h.assignElement n element fields)
  | assignField {h : Heap} (n : NodeId) (name : String) (v : Value) (handle : Handle)
      (hn : h.forest.Outside T.toRegion n) (helement : ¬ T.element (h.forest.elementKey n))
      (hhandle : handle.Outside T) : LeadsOutside T h (h.assignField n name v handle)
  | appendToField {h k : Heap} (n : NodeId) (name : String) (item : Value) (handle : Handle)
      (helement : ¬ T.element (h.forest.elementKey n))
      (hfield : ∀ v, (h.forest.element n).get? name = some v →
        ∀ c ∈ v.nodes, h.forest.Outside T.toRegion c)
      (hitem : ∀ c ∈ item.nodes, h.forest.Outside T.toRegion c) (hhandle : handle.Outside T)
      (happend : h.appendToField n name item handle = .ok k) : LeadsOutside T h k
  | setEntry {h : Heap} (n : NodeId) (name : String) (v : Value) (handle : Handle)
      (hn : h.forest.Outside T.toRegion n) (hrecord : ¬ T.record (h.forest.recordKey n))
      (hv : ∀ c ∈ v.nodes, h.forest.Outside T.toRegion c) (hhandle : handle.Outside T) :
      LeadsOutside T h (h.setEntry n name v handle)
  | appendToEntry {h k : Heap} (n : NodeId) (name : String) (item : Value) (handle : Handle)
      (hn : h.forest.Outside T.toRegion n) (hrecord : ¬ T.record (h.forest.recordKey n))
      (hitem : ∀ c ∈ item.nodes, h.forest.Outside T.toRegion c) (hhandle : handle.Outside T)
      (happend : h.appendToEntry n name item handle = .ok k) : LeadsOutside T h k
  | fill {h : Heap} (number : Nat) (content : Value) (parts : List Handle)
      (hnumber : ¬ T.object number) (hcontent : ∀ c ∈ content.nodes, h.forest.Outside T.toRegion c)
      (hparts : Handle.AllOutside T parts) : LeadsOutside T h (h.fill number content parts)
  | revise {h : Heap} {σ ε : Type} (visit : Revision.Responder σ ε) (rounds steps : Nat)
      (root : NodeId) (s : σ) (handles : Nat → Handles) (hstart : handles 0 = h.handles)
      (hroot : h.forest.Outside T.toRegion root)
      (hcalls : ∀ i call, (Revision.Live.passCalls visit rounds steps root h.forest s)[i]? =
        some call → LeadsOutside T ⟨call.before, handles i⟩ ⟨call.after, handles (i + 1)⟩)
      (hnames : ∀ call ∈ Revision.Live.passCalls visit rounds steps root h.forest s,
        ∀ reply decision, call.answer = .ok reply → reply.toDecision call.node = .ok decision →
          decision.Names fun n => call.after.Outside T.toRegion n) :
      LeadsOutside T h ⟨(result (Revision.Live.revise visit rounds steps root) h.forest s).2.1,
        handles (Revision.Live.passCalls visit rounds steps root h.forest s).length⟩

/-! ### What an operation comes to -/

/-- Nothing is done, or an object outside is filled with what is outside in a fenced forest. -/
def FillsOutside (T : Territory) (h k : Heap) : Prop :=
  k = h ∨ ∃ number content parts, ¬ T.object number ∧ Handle.AllOutside T parts ∧
    (h.forest.Fenced T.toRegion → ∀ c ∈ content.nodes, h.forest.Outside T.toRegion c) ∧
    k = h.fill number content parts

theorem FillsOutside.handles (hfill : FillsOutside T h k) (hl : h.handles.Fenced T) :
    h.handles.Spares T k.handles := by
  obtain rfl | ⟨number, content, parts, hnumber, hparts, -, rfl⟩ := hfill
  · exact .refl hl
  · exact hl.fill hnumber hparts

theorem FillsOutside.forest (hfill : FillsOutside T h k) (hl : h.handles.Fenced T)
    (hf : h.forest.Fenced T.toRegion) : h.forest.Spares T.toRegion k.forest := by
  obtain rfl | ⟨number, content, parts, hnumber, -, hcontent, rfl⟩ := hfill
  · exact .refl hf
  · exact hl.fillForest hf hnumber (hcontent hf)

/-- To add to a list is to fill it, or does not concern an object. -/
theorem fillsOutside_append {v item : Value} {list handle : Handle} (hlist : list.Outside T)
    (hhandle : handle.Outside T)
    (hv : h.forest.Fenced T.toRegion → ∀ c ∈ v.nodes, h.forest.Outside T.toRegion c)
    (hitem : ∀ c ∈ item.nodes, h.forest.Outside T.toRegion c)
    (happend : h.append v list item handle = .ok k) : FillsOutside T h k := by
  obtain ⟨content, hpush, happend⟩ := bind_eq_ok_iff.1 happend
  cases list with
  | plain =>
      cases happend
      exact .inl rfl
  | object number parts =>
      cases happend
      refine .inr ⟨number, content, _, hlist number List.mem_cons_self, fun o ho => ?_,
        fun hf c hc => ?_, rfl⟩
      · rw [Handle.numbersOf_append] at ho
        rcases List.mem_append.1 ho with ho | ho
        · exact hlist o (List.mem_cons_of_mem _ ho)
        · exact hhandle o (by simpa [Handle.numbersOf] using ho)
      · exact (mem_nodes_of_push hpush hc).elim (hv hf c) (hitem c)

section
variable {name : String} {v item : Value} {handle : Handle} (hl : h.handles.Fenced T)
  (hhandle : handle.Outside T)

include hl hhandle

/-- To set an entry is to fill the dictionary of the node. -/
theorem fillsOutside_setEntry (hn : h.forest.Outside T.toRegion n)
    (hrecord : ¬ T.record (h.forest.recordKey n))
    (hv : ∀ c ∈ v.nodes, h.forest.Outside T.toRegion c) :
    FillsOutside T h (h.setEntry n name v handle) := by
  have hout := hl.outside_ofRecord hrecord
  rw [setEntry]
  cases hdictionary : h.handles.ofRecord (h.forest.recordKey n) with
  | plain => exact .inl rfl
  | object number parts =>
      rw [hdictionary] at hout
      refine .inr ⟨number, _, _, hout number List.mem_cons_self, fun o ho => ?_,
        fun hf c hc => ?_, rfl⟩
      · rcases Handle.mem_numbersOf_put ho with ho | ho
        · exact hout o (List.mem_cons_of_mem _ ho)
        · exact hhandle o ho
      · rcases mem_nodesEntries_put hc with hc | hc
        · exact hf.outside_of_mem_metadata hn hc
        · exact hv c hc

theorem fillsOutside_appendToEntry (hn : h.forest.Outside T.toRegion n)
    (hrecord : ¬ T.record (h.forest.recordKey n))
    (hitem : ∀ c ∈ item.nodes, h.forest.Outside T.toRegion c)
    (happend : h.appendToEntry n name item handle = .ok k) : FillsOutside T h k := by
  simp only [appendToEntry] at happend
  split at happend
  · cases happend
  · rename_i v hv
    have hlist := hl.outside_ofRecord hrecord
    refine fillsOutside_append (fun o ho => hlist o ?_) hhandle (fun hf c hc => ?_) hitem happend
    · exact Handle.numbersOf_parts_subset (Handle.numbers_under_subset ho)
    · exact hf.outside_of_mem_metadata hn (mem_nodesEntries_of_get? hv hc)

theorem fillsOutside_appendToField (helement : ¬ T.element (h.forest.elementKey n))
    (hfield : ∀ v, (h.forest.element n).get? name = some v →
      ∀ c ∈ v.nodes, h.forest.Outside T.toRegion c)
    (hitem : ∀ c ∈ item.nodes, h.forest.Outside T.toRegion c)
    (happend : h.appendToField n name item handle = .ok k) : FillsOutside T h k := by
  simp only [appendToField] at happend
  split at happend
  · cases happend
  · rename_i v hv
    refine fillsOutside_append (fun o ho => ?_) hhandle (fun _ => hfield v hv) hitem happend
    exact hl.outside_ofElement helement o (Handle.numbers_under_subset ho)

theorem allOutside_put (helement : ¬ T.element (h.forest.elementKey n)) (names : List String) :
    Handle.AllOutside T
      (Handle.put names (h.handles.ofElement (h.forest.elementKey n)) name handle) := by
  intro o ho
  rcases Handle.mem_numbersOf_put ho with ho | ho
  · exact hl.outside_ofElement helement o ho
  · exact hhandle o ho

end

/-! ### What operations outside spare -/

theorem spares_copyPayload (hl : h.handles.Fenced T) (n : NodeId) :
    h.handles.Spares T (h.copyPayload n).handles := by
  have hrecord : h.handles.Spares T (h.copyRecord (h.forest.recordKey n)).handles :=
    hl.addCopies _ _
  exact hrecord.trans ((hrecord.fenced hl).addCopies _ _)

theorem spares_foldl (hl : h.handles.Fenced T) (list : List NodeId) :
    h.handles.Spares T (list.foldl copyPayload h).handles := by
  induction list generalizing h with
  | nil => exact .refl hl
  | cons n list ih =>
      have hfirst := spares_copyPayload hl n
      exact hfirst.trans (ih (hfirst.fenced hl))

theorem copyTree_eq_ok (hcopy : h.copyTree n = .ok (c, k)) :
    outcome (Forest.copyTree n) h.forest = (.ok c, k.forest) ∧
      k.handles = ((h.forest.preorder n).foldl copyPayload h).handles := by
  rw [copyTree] at hcopy
  split at hcopy <;> cases hcopy
  rename_i hrun
  exact ⟨hrun, rfl⟩

/-- What spares the handles in a fenced territory from one call to the next spares them all along. -/
theorem spares_calls {α : Type} {calls : List α} {handles : Nat → Handles}
    (hl : (handles 0).Fenced T)
    (hcalls : ∀ i call, calls[i]? = some call → (handles i).Fenced T →
      (handles i).Spares T (handles (i + 1))) {i : Nat} (hi : i ≤ calls.length) :
    (handles 0).Spares T (handles i) := by
  induction i with
  | zero => exact .refl hl
  | succ i ih =>
      have hsofar := ih (Nat.le_of_succ_le hi)
      exact hsofar.trans (hcalls i _ (List.getElem?_eq_getElem hi) (hsofar.fenced hl))

namespace LeadsOutside

/-- Handles in a fenced territory do not change. -/
theorem spares_handles (hlead : LeadsOutside T h k) (hl : h.handles.Fenced T) :
    h.handles.Spares T k.handles := by
  induction hlead with
  | refl h => exact .refl hl
  | trans _ _ ih ih' =>
      have hfirst := ih hl
      exact hfirst.trans (ih' (hfirst.fenced hl))
  | link hlink => exact .refl hl
  | make element fields metadata dictionary hfields hmeta hdictionary =>
      exact hl.add hfields hdictionary
  | newNode element fields children metadata dictionary hfields hchildren hmeta hdictionary =>
      exact hl.add hfields hdictionary
  | copyTree n hn hcopy =>
      rw [(copyTree_eq_ok hcopy).2]
      exact spares_foldl hl _
  | assignElement n element fields hn helement hfields => exact hl.assign helement hfields
  | assignField n name v handle hn helement hhandle =>
      rw [Heap.assignField]
      split
      · exact hl.assign helement (allOutside_put hl hhandle helement _)
      · exact .refl hl
  | appendToField n name item handle helement hfield hitem hhandle happend =>
      exact (fillsOutside_appendToField hl hhandle helement hfield hitem happend).handles hl
  | setEntry n name v handle hn hrecord hv hhandle =>
      exact (fillsOutside_setEntry hl hhandle hn hrecord hv).handles hl
  | appendToEntry n name item handle hn hrecord hitem hhandle happend =>
      exact (fillsOutside_appendToEntry hl hhandle hn hrecord hitem happend).handles hl
  | fill number content parts hnumber hcontent hparts => exact hl.fill hnumber hparts
  | revise visit rounds steps root s handles hstart hroot hcalls hnames ih =>
      rw [← hstart] at hl ⊢
      exact spares_calls hl ih (Nat.le_refl _)

/-- Nor does anything else there. -/
theorem spares (hlead : LeadsOutside T h k) (hl : h.handles.Fenced T)
    (hf : h.forest.Fenced T.toRegion) : h.forest.Spares T.toRegion k.forest := by
  induction hlead with
  | refl h => exact .refl hf
  | trans hhk _ ih ih' =>
      have hfirst := ih hl hf
      exact hfirst.trans (ih' ((hhk.spares_handles hl).fenced hl) hfirst.fenced)
  | link hlink => exact hlink.spares hf
  | make element fields metadata dictionary hfields hmeta hdictionary =>
      obtain ⟨helement, -⟩ := hf.addElement element
      exact helement.trans (helement.fenced.addRecord fun c hc => helement.outside (hmeta c hc)).1
  | newNode element fields children metadata dictionary hfields hchildren hmeta hdictionary =>
      exact hf.newNodeBy element hchildren hmeta
  | copyTree n hn hcopy =>
      have hspares := (hf.copyTree hn).1
      rwa [(copyTree_eq_ok hcopy).1] at hspares
  | assignElement n element fields hn helement hfields => exact hf.updateElement hn element
  | assignField n name v handle hn helement hhandle =>
      rw [Heap.assignField]
      split
      · exact hf.updateElement hn _
      · exact .refl hf
  | appendToField n name item handle helement hfield hitem hhandle happend =>
      exact (fillsOutside_appendToField hl hhandle helement hfield hitem happend).forest hl hf
  | setEntry n name v handle hn hrecord hv hhandle =>
      exact (fillsOutside_setEntry hl hhandle hn hrecord hv).forest hl hf
  | appendToEntry n name item handle hn hrecord hitem hhandle happend =>
      exact (fillsOutside_appendToEntry hl hhandle hn hrecord hitem happend).forest hl hf
  | fill number content parts hnumber hcontent hparts => exact hl.fillForest hf hnumber hcontent
  | revise visit rounds steps root s handles hstart hroot hcalls hnames ih =>
      refine Revision.Live.spares_revise hf hroot fun call hc hbefore _ => ?_
      obtain ⟨i, hi, hget⟩ := List.getElem_of_mem hc
      have hcall := List.getElem?_eq_getElem hi
      rw [hget] at hcall
      rw [← hstart] at hl
      have hsofar := spares_calls hl (fun i call hcall => (hcalls i call hcall).spares_handles)
        (Nat.le_of_lt hi)
      exact ⟨ih i call hcall (hsofar.fenced hl) hbefore, hnames call hc⟩

end LeadsOutside

end Heap

/-! ### The territory of a copy -/

def Region.upTo (f : Forest) : Region :=
  ⟨(· < f.size), (· < f.elements.size), (· < f.records.size)⟩

def Region.since (f g : Forest) : Region where
  node n := f.size ≤ n ∧ n < g.size
  element key := f.elements.size ≤ key ∧ key < g.elements.size
  record key := f.records.size ≤ key ∧ key < g.records.size

theorem fenced_upTo (f : Forest) : f.Fenced (.upTo f) where
  node_lt _ hn := hn
  element_lt _ hk := hk
  record_lt _ hk := hk
  apart _ _ hnode hn := absurd (Array.getElem?_eq_some_iff.1 hnode).1 hn
  entries _ _ hr hk := absurd (Array.getElem?_eq_some_iff.1 hr).1 hk

theorem Forest.Spares.within (hfg : f.Spares (.upTo f) g) : f.Within g :=
  ⟨hfg.node_eq, hfg.element_eq, hfg.record_eq⟩

/-- A well-formed forest does not refer to what is added to it. -/
theorem fenced_since (hf : f.WellFormed) (hfg : f.Within g) : g.Fenced (.since f g) := by
  have hout {n : NodeId} (hn : n < f.size) : g.Outside (.since f g) n :=
    ⟨Nat.lt_of_lt_of_le hn hfg.size_le, fun h => Nat.not_lt.2 h.1 hn⟩
  refine ⟨fun _ hn => hn.2, fun _ hk => hk.2, fun _ hk => hk.2, ?_, ?_⟩
  · intro n node hnode hno
    have hn : n < f.size := by
      by_contra hge
      exact hno ⟨Nat.le_of_not_lt hge, (Array.getElem?_eq_some_iff.1 hnode).1⟩
    rw [hfg.node_eq n hn] at hnode
    have hkey : f.elementKey n = node.element := by rw [elementKey, hnode]
    have hrecord : f.recordKey n = node.record := by rw [recordKey, hnode]
    have helement := hkey ▸ hf.elementKey_lt n hn
    have hmeta := hrecord ▸ hf.recordKey_lt n hn
    refine ⟨⟨Nat.lt_of_lt_of_le helement hfg.elements_le, fun h => Nat.not_lt.2 h.1 helement⟩,
      fun p hp => hout ?_, fun c hc => hout ?_,
      ⟨Nat.lt_of_lt_of_le hmeta hfg.records_le, fun h => Nat.not_lt.2 h.1 hmeta⟩⟩
    · have hparent : f.parent? n = some p := by rw [parent?, hnode]; exact hp
      exact lt_size_of_mem_children (hf.mem_of_parent? hparent)
    · have hmem : c ∈ f.children n := by rw [children, hnode]; exact hc
      exact hf.lt_size_of_mem hmem
  · intro key entries hr hno c hc
    have hk : key < f.records.size := by
      by_contra hge
      exact hno ⟨Nat.le_of_not_lt hge, (Array.getElem?_eq_some_iff.1 hr).1⟩
    rw [hfg.records_eq key hk] at hr
    exact hout (hf.lt_of_mem_record key entries hr c hc)

namespace Forest

/-- The nodes that a node leads to in one step: its parent, its children, and those that its
metadata and its element refer to. -/
def references (f : Forest) (n : NodeId) : List NodeId :=
  f.neighbours n ++ Value.nodesEntries (f.element n).fields

/-- `WithinReach f n m` says that `m` can be reached from `n`. -/
inductive WithinReach (f : Forest) (n : NodeId) : NodeId → Prop
  | refl : WithinReach f n n
  | step {m k : NodeId} (hm : WithinReach f n m) (hk : k ∈ f.references m) : WithinReach f n k

/-- What is reached from outside a fenced region is outside, if the elements refer to no nodes. -/
theorem WithinReach.outside (hm : f.WithinReach n m) (hf : f.Fenced P) (hn : f.Outside P n)
    (hplain : ∀ m, Value.nodesEntries (f.element m).fields = []) : f.Outside P m := by
  induction hm with
  | refl => exact hn
  | step _ hk ih =>
      rw [references, hplain, List.append_nil] at hk
      exact hf.outside_of_mem_neighbours ih hk

/-- A node with its links, its element and its metadata are the same in two forests. -/
structure SameAt (f g : Forest) (n : NodeId) : Prop where
  node_eq : g.nodes[n]? = f.nodes[n]?
  element_eq : g.elements[f.elementKey n]? = f.elements[f.elementKey n]?
  record_eq : g.records[f.recordKey n]? = f.records[f.recordKey n]?

end Forest

variable {T : Territory} {h k : Heap}

/-- Everything that there is in a heap. -/
def Territory.upTo (h : Heap) : Territory where
  toRegion := .upTo h.forest
  object := (· < h.handles.next)

/-- Everything that there is in a later heap, but not in an earlier one. -/
def Territory.since (h k : Heap) : Territory where
  toRegion := .since h.forest k.forest
  object o := h.handles.next ≤ o ∧ o < k.handles.next

namespace Heap

theorem Labelled.size_elements (hl : h.Labelled) :
    h.handles.elements.size = h.forest.elements.size := by
  simpa using hl.elements.length_eq

theorem Labelled.size_records (hl : h.Labelled) :
    h.handles.records.size = h.forest.records.size := by
  simpa using hl.records.length_eq

theorem Labelled.fenced_upTo (hl : h.Labelled) : h.handles.Fenced (.upTo h) where
  elements := parted_upTo hl.size_elements hl.element_lt
  records := parted_upTo hl.size_records hl.record_lt
  object_lt _ ho := ho

theorem Labelled.fenced_since (hk : k.Labelled) (hhk : h.handles.Spares (.upTo h) k.handles) :
    k.handles.Fenced (.since h k) where
  elements := parted_since hhk.elements.parted hk.size_elements hk.element_lt
  records := parted_since hhk.records.parted hk.size_records hk.record_lt
  object_lt _ ho := ho.2

/-! ### Independence -/

/-- A node with its element, its dictionary, and the objects in these, is not yet there in an
earlier heap. -/
structure NewSince (h k : Heap) (m : NodeId) : Prop where
  node_le : h.forest.size ≤ m
  node_lt : m < k.forest.size
  element_le : h.forest.elements.size ≤ k.forest.elementKey m
  record_le : h.forest.records.size ≤ k.forest.recordKey m
  fields_le (o : Nat)
    (ho : o ∈ Handle.numbersOf (k.handles.ofElement (k.forest.elementKey m))) : h.handles.next ≤ o
  dictionary_le (o : Nat) (ho : o ∈ (k.handles.ofRecord (k.forest.recordKey m)).numbers) :
    h.handles.next ≤ o

/-- A node with its element and its dictionary are the same in two heaps, and so are the objects
that these are made of. -/
structure SameAt (h k : Heap) (m : NodeId) : Prop extends h.forest.SameAt k.forest m where
  fields_eq :
    k.handles.elements[h.forest.elementKey m]? = h.handles.elements[h.forest.elementKey m]?
  dictionary_eq :
    k.handles.records[h.forest.recordKey m]? = h.handles.records[h.forest.recordKey m]?

theorem sameAt_of_spares (hforest : h.forest.Spares T.toRegion k.forest)
    (hhandles : h.handles.Spares T k.handles) (hm : T.node m)
    (helement : T.element (h.forest.elementKey m)) (hrecord : T.record (h.forest.recordKey m)) :
    h.SameAt k m :=
  ⟨⟨hforest.node_eq m hm, hforest.element_eq _ helement, hforest.record_eq _ hrecord⟩,
    hhandles.elements.row_eq _ helement, hhandles.records.row_eq _ hrecord⟩

/-- A copy of a tree shares nothing with what existed before, so what is done to one leaves the
other as it is. -/
theorem copy_independent (hl : h.Labelled) (hf : h.forest.Tidy) (hn : n < h.forest.size) :
    ∃ c k, h.copyTree n = .ok (c, k) ∧ k.Labelled ∧
      (∀ m, k.forest.WithinReach c m → h.NewSince k m) ∧
      (∀ e, LeadsOutside (.upTo h) k e → ∀ m < h.forest.size, h.SameAt e m) ∧
      (∀ e, LeadsOutside (.since h k) k e → ∀ m, k.forest.WithinReach c m → k.SameAt e m) := by
  obtain ⟨c, k, hcopy, hres, hhandles, hk⟩ := exists_copyTree hl hf.wellFormed hn
  obtain ⟨c', g, hres', hcopyOf⟩ := exists_copyOf hf.wellFormed hn
  rw [hres] at hres'
  cases hres'
  obtain ⟨hforest, hplain, hout⟩ := hf.spares_copyTree (fenced_upTo h.forest) hn
  rw [hres] at hforest hplain hout
  have hkeep : h.handles.Spares (.upTo h) k.handles := by
    rw [hhandles]
    exact spares_foldl hl.fenced_upTo _
  have htidy : k.forest.Tidy := ⟨hcopyOf.wellFormed, hplain⟩
  have hreach (m : NodeId) (hm : k.forest.WithinReach c m) :
      k.forest.Outside (.upTo h.forest) m :=
    hm.outside hforest.fenced (hout c rfl) htidy.nodes_element
  have hnew (m : NodeId) (hm : k.forest.WithinReach c m) : h.NewSince k m := by
    have hmout := hreach m hm
    have helement := (hforest.fenced.elementOutside hmout).not_mem
    have hrecord := (hforest.fenced.recordOutside hmout).not_mem
    have hfenced := hkeep.fenced hl.fenced_upTo
    exact ⟨Nat.le_of_not_lt hmout.not_mem, hmout.lt_size, Nat.le_of_not_lt helement,
      Nat.le_of_not_lt hrecord,
      fun o ho => Nat.le_of_not_lt (hfenced.outside_ofElement helement o ho),
      fun o ho => Nat.le_of_not_lt (hfenced.outside_ofRecord hrecord o ho)⟩
  refine ⟨c, k, hcopy, hk, hnew, fun e hke m hm => ?_, fun e hke m hm => ?_⟩
  · have hsource := hkeep.fenced hl.fenced_upTo
    exact sameAt_of_spares (hforest.trans (hke.spares hsource hforest.fenced))
      (hkeep.trans (hke.spares_handles hsource)) hm (hf.wellFormed.elementKey_lt m hm)
      (hf.wellFormed.recordKey_lt m hm)
  · obtain ⟨hle, hlt, helement, hrecord, -, -⟩ := hnew m hm
    have hcopied := hk.fenced_since hkeep
    exact sameAt_of_spares
      (hke.spares hcopied (fenced_since hf.wellFormed hforest.within)) (hke.spares_handles hcopied)
      ⟨hle, hlt⟩ ⟨helement, hcopyOf.wellFormed.elementKey_lt m hlt⟩
      ⟨hrecord, hcopyOf.wellFormed.recordKey_lt m hlt⟩

/-- A list that leads back to the nodes in whose metadata it stands. -/
def backLinks : Value := .list [.node 1, .mapping [("self", .node 0)]]

def backLinksHandle : Handle := .object 2 [.plain, .object 3 [.plain]]

/-- A document over a paragraph. One list stands in the metadata of both. -/
def leadingBack : Heap where
  forest :=
    { nodes := #[⟨0, some 1, [], 0⟩, ⟨1, none, [0], 1⟩]
      elements := #[.ofFields .paragraph [], .ofFields .document []]
      records := #[[("links", backLinks)], [("links", backLinks)]] }
  handles :=
    { elements := #[[.plain], [.plain]]
      records := #[.object 0 [backLinksHandle], .object 1 [backLinksHandle]]
      next := 4 }

/-- What is added to the list of the one is added to the list of the other. -/
example : (leadingBack.appendToEntry 1 "links" .null .plain).map (·.forest.metadata 0) =
    .ok [("links", .list [.node 1, .mapping [("self", .node 0)], .null])] := rfl

theorem labelled_leadingBack : leadingBack.Labelled where
  elements := .cons ⟨rfl, trivial⟩ (.cons ⟨rfl, trivial⟩ .nil)
  records := .cons ⟨rfl, ⟨rfl, rfl, ⟨rfl, rfl, trivial⟩, trivial⟩, trivial⟩
    (.cons ⟨rfl, ⟨rfl, rfl, ⟨rfl, rfl, trivial⟩, trivial⟩, trivial⟩ .nil)
  element_lt := by decide
  record_lt := by decide

theorem tidy_leadingBack : leadingBack.forest.Tidy where
  wellFormed := by
    have hparagraph := wellFormed_newNode wellFormed_empty (.ofFields .paragraph []) [] (by simp)
    have hdocument := wellFormed_newNode hparagraph (.ofFields .document []) [0] (by decide)
    have hlinks : ∀ c ∈ backLinks.nodes, c < 2 := by decide
    have hfirst := carriesOn_setEntry hdocument 0 "links" hlinks
    exact (carriesOn_setEntry hfirst.wellFormed 1 "links" hlinks).wellFormed
  plain key e he := by
    match key with
    | 0 | 1 =>
        cases he
        rfl
    | _ + 2 => cases he

/-- The copy of the paragraph comes with a copy of the document, and with copies of both as they are
in the metadata; none of them, and no list or dictionary in them, is one that existed before. -/
theorem copy_independent_leadingBack :
    leadingBack.Labelled ∧ leadingBack.forest.Tidy ∧ 0 < leadingBack.forest.size ∧
      ∃ c k, leadingBack.copyTree 0 = .ok (c, k) ∧ k.Labelled ∧
        (∀ m, k.forest.WithinReach c m → leadingBack.NewSince k m) ∧
        (∀ e, LeadsOutside (.upTo leadingBack) k e → ∀ m < 2, leadingBack.SameAt e m) ∧
        (∀ e, LeadsOutside (.since leadingBack k) k e →
          ∀ m, k.forest.WithinReach c m → k.SameAt e m) :=
  ⟨labelled_leadingBack, tidy_leadingBack, by decide,
    copy_independent labelled_leadingBack tidy_leadingBack (by decide)⟩

end Heap

end MarkdownTree
