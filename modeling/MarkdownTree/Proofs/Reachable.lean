import MarkdownTree.Proofs.LivePasses
import MarkdownTree.Proofs.TabsGrowth

/-!
Forests that can be reached. From the empty forest, operations in any order, with any values, called
one after the other or by each other's visitors and maps, only lead to well-formed forests, whether
they succeed or fail, with two exceptions. No child that may be attached is inserted at an index
that no list takes, and no child gives way to a list of children that leaves any of them over. These
are the two things that break a forest, and they always do.
-/

namespace MarkdownTree

open Forest Asking

variable {f g : Forest} {p : NodeId} {v : Value} {i : Int}

/-- Which calls of `insertChild` are made: the forest, the parent, the index and the child. -/
abbrev Insertions := Forest → NodeId → Int → Value → Prop

def anyInsertion : Insertions :=
  fun _ _ _ _ => True

/-- Calls of `insertChild` that are refused or reach a list with an index that it takes. -/
def fittingInsertion : Insertions := fun f p i v =>
  ∀ c j, f.checkAttach p v = .ok c → f.indexWithout p c i = .ok j → isIndex j = true

/-- Which replacements are made: the forest, the parent, the child and the sequence in its place. -/
abbrev Substitutions := Forest → NodeId → Value → Sequence → Prop

def anySubstitution : Substitutions :=
  fun _ _ _ _ => True

/-- `Leads allowed lists f g` says that finitely many operations lead from `f` to `g`. An operation
is called on a node that exists, and nodes among its arguments exist; apart from this the arguments
are any values, and a sequence of nodes may be the list in which a node keeps its children. What a
map or a visitor does while it is called are operations as well. -/
inductive Leads (allowed : Insertions) (lists : Substitutions) : Forest → Forest → Prop
  | refl (f : Forest) : Leads allowed lists f f
  | trans {f g h : Forest} (hfg : Leads allowed lists f g) (hgh : Leads allowed lists g h) :
      Leads allowed lists f h
  | newNode {f : Forest} (element : Element) (children : Sequence) (metadata : Entries)
      (hchildren : ∀ v ∈ children.items f, f.Known v)
      (hmeta : ∀ c ∈ Value.nodesEntries metadata, c < f.size) :
      Leads allowed lists f (outcome (newNodeBy element children metadata) f).2
  | insertChild {f : Forest} (p : NodeId) (i : Int) (v : Value) (hp : p < f.size)
      (hv : f.Known v) (hi : allowed f p i v) :
      Leads allowed lists f (outcome (insertChild p i v) f).2
  | appendChild {f : Forest} (p : NodeId) (v : Value) (hp : p < f.size) (hv : f.Known v) :
      Leads allowed lists f (outcome (appendChild p v) f).2
  | prependChild {f : Forest} (p : NodeId) (v : Value) (hp : p < f.size) (hv : f.Known v) :
      Leads allowed lists f (outcome (prependChild p v) f).2
  | insertBefore {f : Forest} (n : NodeId) (v : Value) (hv : f.Known v) :
      Leads allowed lists f (outcome (insertBefore n v) f).2
  | insertAfter {f : Forest} (n : NodeId) (v : Value) (hv : f.Known v) :
      Leads allowed lists f (outcome (insertAfter n v) f).2
  | removeChild {f : Forest} (p : NodeId) (v : Value) :
      Leads allowed lists f (outcome (removeChild p v) f).2
  | unlink {f : Forest} (n : NodeId) : Leads allowed lists f (outcome (unlink n) f).2
  | replaceChild {f : Forest} (rounds : Nat) (p : NodeId) (v : Value) (values : Sequence)
      (hvalues : ∀ w ∈ values.items f, f.Known w) (hlist : lists f p v values) :
      Leads allowed lists f (outcome (replaceChildBy rounds p v values) f).2
  | copyTree {f : Forest} (n : NodeId) (hn : n < f.size) :
      Leads allowed lists f (outcome (copyTree n) f).2
  | copyTreeWith {f : Forest} {σ ε : Type} (choose : PayloadMap σ ε) (extra : Nat) (n : NodeId)
      (s : σ) (hn : n < f.size)
      (hcalls : ∀ call ∈ copyCalls choose extra n f s, Leads allowed lists call.before call.after) :
      Leads allowed lists f (result (copyTreeWith choose extra n) f s).2.1
  | revise {f : Forest} {σ ε : Type} (visit : Revision.Responder σ ε) (rounds steps : Nat)
      (root : NodeId) (s : σ)
      (hcalls : ∀ call ∈ Revision.Live.passCalls visit rounds steps root f s,
        Leads allowed lists call.before call.after)
      (hknown : ∀ call ∈ Revision.Live.passCalls visit rounds steps root f s, ∀ a action,
        call.answer = .ok (.answer a) → a.toAction call.node = .ok action →
          action.KnownIn call.after)
      (hlists : ∀ call ∈ Revision.Live.passCalls visit rounds steps root f s, ∀ n final,
        call.answer = .ok (.children n final) → call.node ≠ root →
          ∀ p, lists call.after p (.node call.node) (.childrenOf n)) :
      Leads allowed lists f (result (Revision.Live.revise visit rounds steps root) f s).2.1
  | interleave {f : Forest} (category : Value) (grouped : Bool) (root : NodeId) :
      Leads allowed lists f (Tabs.interleave category grouped root f).2.2
  | stash {f : Forest} (category : Value) (grouped : Bool) (root : NodeId) :
      Leads allowed lists f (Tabs.stash category grouped root f).2.2
  | transform {f : Forest} (settings : Value) (root : NodeId) :
      Leads allowed lists f (Tabs.transform settings root f).2.2
  | setEntry {f : Forest} (n : NodeId) (name : String) (v : Value)
      (hv : ∀ c ∈ v.nodes, c < f.size) : Leads allowed lists f (outcome (setEntry n name v) f).2
  | appendToEntry {f : Forest} (n : NodeId) (name : String) (item : Value)
      (hitem : ∀ c ∈ item.nodes, c < f.size) :
      Leads allowed lists f (outcome (appendToEntry n name item) f).2
  | assignField {f : Forest} (n : NodeId) (name : String) (v : Value) :
      Leads allowed lists f (outcome (assignField n name v) f).2
  | appendToField {f : Forest} (n : NodeId) (name : String) (item : Value) :
      Leads allowed lists f (outcome (appendToField n name item) f).2

/-- Every operation carries a well-formed forest on. -/
theorem Leads.carriesOn (h : Leads fittingInsertion LeavesNothing f g) (hf : f.WellFormed) :
    f.CarriesOn g := by
  induction h with
  | refl f => exact .refl hf
  | trans _ _ ihfg ihgh =>
      have hfg := ihfg hf
      exact hfg.trans (ihgh hfg.wellFormed)
  | newNode element children metadata hchildren hmeta =>
      exact carriesOn_newNodeBy hf element hmeta hchildren
  | insertChild p i v hp hv hi => exact (relinked_insertChild hf hp hv hi).carriesOn
  | appendChild p v hp hv => exact (relinked_appendChild hf hp hv).carriesOn
  | prependChild p v hp hv => exact (relinked_prependChild hf hp hv).carriesOn
  | insertBefore n v hv => exact (relinked_insertSibling hf hv n 0).carriesOn
  | insertAfter n v hv => exact (relinked_insertSibling hf hv n 1).carriesOn
  | removeChild p v => exact (relinked_removeChild hf p v).carriesOn
  | @unlink f n =>
      rw [outcome_unlink hf]
      exact (relinked_detach hf n).carriesOn
  | replaceChild rounds p v values hvalues hlist =>
      exact (relinked_replaceChildBy hf hvalues hlist rounds).carriesOn
  | copyTree n hn => exact (carriesOn_copyTree hf hn).1
  | copyTreeWith choose extra n s hn _ ih => exact carriesOn_copyTreeWith hf hn ih
  | revise visit rounds steps root s _ hknown hlists ih =>
      refine Revision.Live.carriesOn_revise hf fun call hc hbefore => ?_
      refine ⟨ih call hc hbefore, fun reply hreply => ?_⟩
      cases reply with
      | answer a => exact fun action => hknown call hc a action hreply
      | children n final => exact hlists call hc n final hreply
  | interleave category grouped root => exact Tabs.carriesOn_interleave hf category grouped root
  | stash category grouped root => exact Tabs.carriesOn_stash hf category grouped root
  | transform settings root => exact Tabs.carriesOn_transform hf settings root
  | setEntry n name v hv => exact carriesOn_setEntry hf n name hv
  | appendToEntry n name item hitem => exact carriesOn_appendToEntry hf n name hitem
  | assignField n name v => exact carriesOn_assignField hf n name v
  | appendToField n name item => exact carriesOn_appendToField hf n name item

/-- An index that no list takes leaves a child with a parent that does not list it. -/
theorem fitting_of_wellFormed (hf : f.WellFormed) (hv : f.Known v)
    (h : (outcome (insertChild p i v) f).2.WellFormed) : fittingInsertion f p i v := by
  intro c j hc hj
  by_contra hno
  rw [insertChild, outcome_attachAt hf hc hj, if_neg hno] at h
  have hlt : c < f.size := hv c ((checkAttach_eq_ok_iff hf).1 hc).1
  have hparent : ((f.detach c).setParent c (some p)).parent? c = some p := by
    rw [parent?_setParent, if_pos ⟨rfl, (sameData_detach f c).size_eq ▸ hlt⟩]
  have hmem := h.mem_of_parent? hparent
  rw [children_setParent, children_detach hf, List.mem_filter] at hmem
  simp at hmem

def looseParagraph : Forest :=
  (outcome (newNode (.ofFields .paragraph []) [] [])
    (outcome (newNode (.ofFields .document []) [] []) .empty).2).2

theorem leads_looseParagraph (allowed : Insertions) (lists : Substitutions) :
    Leads allowed lists .empty looseParagraph :=
  .trans (.newNode (.ofFields .document []) (.own []) [] nofun nofun)
    (.newNode (.ofFields .paragraph []) (.own []) [] nofun nofun)

theorem wellFormed_looseParagraph : looseParagraph.WellFormed :=
  ((leads_looseParagraph fittingInsertion LeavesNothing).carriesOn wellFormed_empty).wellFormed

theorem known_looseParagraph : looseParagraph.Known (.node 1) := by
  intro c hc
  cases hc
  decide

/-- A forest that is reached is well-formed if only fitting insertions were made and no list of
children that took the place of a child left any of them over. Any other insertion, and any other
list that comes to an end, breaks a well-formed forest at once. -/
theorem wellFormed_of_leads (f : Forest) (p : NodeId) (v : Value) :
    (Leads fittingInsertion LeavesNothing .empty f → f.WellFormed) ∧
      (f.WellFormed → p < f.size → f.Known v → ∀ i,
        ((outcome (insertChild p i v) f).2.WellFormed ↔ fittingInsertion f p i v)) ∧
      (f.WellFormed → ∀ rounds seq, (∀ w ∈ seq.items f, f.Known w) →
        (outcome (replaceChildBy rounds p v seq) f).1 ≠ .ok none →
          ((outcome (replaceChildBy rounds p v seq) f).2.WellFormed ↔
            f.LeavesNothing p v seq)) := by
  refine ⟨fun h => (h.carriesOn wellFormed_empty).wellFormed, fun hf hp hv i => ?_,
    fun hf rounds seq hseq hends => wellFormed_replaceChildBy_iff hf hseq hends⟩
  exact ⟨fitting_of_wellFormed hf hv, fun hi => (relinked_insertChild hf hp hv hi).wellFormed⟩

/-- The paragraph is put below the document, and then gives way to the children of the document,
which are itself alone. -/
theorem wellFormed_looseParagraph_insertChild :
    let attached := (outcome (insertChild 0 7 (.node 1)) looseParagraph).2
    looseParagraph.WellFormed ∧ fittingInsertion looseParagraph 0 7 (.node 1) ∧
      attached.WellFormed ∧ attached.LeavesNothing 0 (.node 1) (.childrenOf 0) ∧
      (outcome (replaceChildBy 0 0 (.node 1) (.childrenOf 0)) attached).2.WellFormed := by
  intro attached
  obtain ⟨hreached, hinsert, -⟩ := wellFormed_of_leads looseParagraph 0 (.node 1)
  have hstart : looseParagraph.WellFormed :=
    hreached (leads_looseParagraph fittingInsertion LeavesNothing)
  have hfits : fittingInsertion looseParagraph 0 7 (.node 1) := by
    intro c j hc hj
    have hcheck : looseParagraph.checkAttach 0 (.node 1) = .ok 1 := rfl
    have hindex : looseParagraph.indexWithout 0 1 7 = .ok 7 := rfl
    rw [hcheck] at hc
    cases hc
    rw [hindex] at hj
    cases hj
    decide
  have hattached : attached.WellFormed :=
    (hinsert hstart (by decide) known_looseParagraph 7).2 hfits
  have hleaves : attached.LeavesNothing 0 (.node 1) (.childrenOf 0) := by
    rintro n c nodes ⟨⟩ ⟨⟩ - -
    have hlist : attached.children 0 = [1] := rfl
    simp [leftover, hlist, leaving, without]
  have hknown : ∀ w ∈ Sequence.items attached (.childrenOf 0), attached.Known w := by
    intro w hw c hc
    obtain rfl : w = .node 1 := List.mem_singleton.1 hw
    cases hc
    decide
  have hends : (outcome (replaceChildBy 0 0 (.node 1) (.childrenOf 0)) attached).1 ≠ .ok none := by
    have hout : (outcome (replaceChildBy 0 0 (.node 1) (.childrenOf 0)) attached).1 =
        .ok (some 0) := rfl
    rw [hout]
    exact fun h => by cases h
  obtain ⟨-, -, hreplace⟩ := wellFormed_of_leads attached 0 (.node 1)
  exact ⟨hstart, hfits, hattached, hleaves,
    (hreplace hattached 0 (.childrenOf 0) hknown hends).2 hleaves⟩

/-- Inserted at this index, the paragraph has the document as its parent and is no child of it. -/
theorem not_wellFormed_tooLargeIndex :
    Leads anyInsertion anySubstitution .empty
        (outcome (insertChild 0 9223372036854775808 (.node 1)) looseParagraph).2 ∧
      ¬ (outcome (insertChild 0 9223372036854775808 (.node 1)) looseParagraph).2.WellFormed := by
  constructor
  · exact (leads_looseParagraph anyInsertion anySubstitution).trans
      (.insertChild 0 _ (.node 1) (by decide) known_looseParagraph trivial)
  · intro h
    have hmem := (h.mem_children_iff 0 1).2 (by decide)
    exact absurd hmem (by decide)

end MarkdownTree
