import MarkdownTree.Proofs.Counterparts
import MarkdownTree.Proofs.Independence
import MarkdownTree.Proofs.RenamedBlocks

/-!
Copying and transforming commute. A tree and its copy are one part under different numbers, and what
is done to the copy leaves the tree as it is, and the other way round. So both come to the same, one
after the other: to the same fault, or to equal trees, and with the same messages.
-/

namespace MarkdownTree

namespace Forest

variable {f g h : Forest} {root : NodeId}

/-- What is added to a forest stays as it is while only other nodes, elements and records change. -/
theorem keepsFrom_of_spares (hg : g.WellFormed) (hfg : f.Spares (.upTo f) g)
    (hgh : g.Spares (.since f g) h) : KeepsFrom f.size g h := by
  have hnode (n : NodeId) (hle : f.size ≤ n) (hlt : n < g.size) : h.nodes[n]? = g.nodes[n]? :=
    hgh.node_eq n ⟨hle, hlt⟩
  have hout {n : NodeId} (hle : f.size ≤ n) (hlt : n < g.size) : g.Outside (.upTo f) n :=
    ⟨hlt, Nat.not_lt.2 hle⟩
  refine ⟨hgh.size_le, fun n hle hlt => ?_, fun n hle hlt => ?_, fun n hle hlt => ?_,
    fun n hle hlt => ?_⟩
  · rw [children, children, hnode n hle hlt]
  · rw [parent?, parent?, hnode n hle hlt]
  · have hkey : f.elements.size ≤ g.elementKey n :=
      Nat.le_of_not_lt (hfg.fenced.elementOutside (hout hle hlt)).not_mem
    have hself : h.elementKey n = g.elementKey n := by
      rw [elementKey, elementKey, hnode n hle hlt]
    rw [element, element, hself, hgh.element_eq _ ⟨hkey, hg.elementKey_lt n hlt⟩]
  · have hkey : f.records.size ≤ g.recordKey n :=
      Nat.le_of_not_lt (hfg.fenced.recordOutside (hout hle hlt)).not_mem
    have hself : h.recordKey n = g.recordKey n := by
      rw [recordKey, recordKey, hnode n hle hlt]
    rw [metadata, metadata, hself, hgh.record_eq _ ⟨hkey, hg.recordKey_lt n hlt⟩]

/-- A node that existed before is outside of what was added. -/
theorem Within.outside_since (hfg : f.Within g) (hlt : root < f.size) :
    g.Outside (.since f g) root :=
  ⟨Nat.lt_of_lt_of_le hlt hfg.size_le, fun hnew => Nat.not_lt.2 hnew.1 hlt⟩

/-- What can be reached from a tree that existed before stays as it is, while only new nodes,
elements and records change. -/
theorem sameAt_of_withinReach (hf : f.Tidy) (hlt : root < f.size) (hfg : f.Spares (.upTo f) g)
    (hg : g.Tidy) (hgh : g.Spares (.upTo f) h) {m : NodeId} (hm : g.WithinReach root m) :
    g.SameAt h m := by
  have hreach := hm.outside (fenced_since hf.wellFormed hfg.within) (hfg.within.outside_since hlt)
    hg.nodes_element
  have hold : m < f.size := Nat.lt_of_not_le fun hle => hreach.not_mem ⟨hle, hreach.lt_size⟩
  have helement : g.elementKey m < f.elements.size := by
    rw [hfg.within.elementKey_eq hold]
    exact hf.wellFormed.elementKey_lt m hold
  have hrecord : g.recordKey m < f.records.size := by
    rw [hfg.within.recordKey_eq hold]
    exact hf.wellFormed.recordKey_lt m hold
  exact ⟨hgh.node_eq m hold, hgh.element_eq _ helement, hgh.record_eq _ hrecord⟩

end Forest

namespace Tabs

open Forest

variable {T : NodeId → Prop} {r : NodeId → NodeId} {f g h : Forest} {c root : NodeId}
  {category : Value} {grouped : Bool}

/-- The ways to turn tabs into markup. -/
inductive Strategy where
  | interleaved
  | stash
  deriving DecidableEq, Repr

namespace Strategy

/-- Turns the tabs of a category into markup in one of the ways. -/
def run : Strategy → Value → Bool → NodeId → Forest →
    Except TreeFault NodeId × List Log.Message × Forest
  | interleaved => interleave
  | stash => Tabs.stash

theorem carriesOn_run (way : Strategy) (hf : f.WellFormed) (category : Value) (grouped : Bool)
    (root : NodeId) : f.CarriesOn (way.run category grouped root f).2.2 := by
  cases way with
  | interleaved => exact carriesOn_interleave hf category grouped root
  | stash => exact carriesOn_stash hf category grouped root

theorem spares_run {P : Region} (way : Strategy) (hf : f.Fenced P) (hroot : f.Outside P root)
    (category : Value) (grouped : Bool) : f.Spares P (way.run category grouped root f).2.2 := by
  cases way with
  | interleaved => exact spares_interleave hf hroot category grouped
  | stash => exact spares_stash hf hroot category grouped

end Strategy

/-- Two runs come to the same: to the same fault, or to equal trees, and with the same messages. -/
structure SameOutcome (first second : Except TreeFault NodeId × List Log.Message × Forest) :
    Prop where
  messages_eq : second.2.1 = first.2.1
  result : (∃ e, first.1 = .error e ∧ second.1 = .error e) ∨
    ∃ top top', first.1 = .ok top ∧ second.1 = .ok top' ∧ second.2.2.agree true top top' = true

section
variable (hf : f.WellFormed) (hlt : root < f.size) (hroot : f.parent? root = none)
  (hplain : ∀ n, f.AtOrAbove root n → f.PlainAt n)

include hf hlt hroot hplain

/-- Both runs go in step with a run on the tree as it was at first. -/
theorem interleave_after_copy (hcopy : f.CopyOf g root c)
    (hfh : f.Within (interleave category grouped c g).2.2)
    (hh : (interleave category grouped c g).2.2.WellFormed)
    (hkeeps : KeepsFrom f.size (interleave category grouped c g).2.2
      (interleave category grouped root (interleave category grouped c g).2.2).2.2) :
    SameOutcome (interleave category grouped c g)
      (interleave category grouped root (interleave category grouped c g).2.2) := by
  obtain ⟨r, hr, rfl, htree, hnew, htwin⟩ := hcopy.exists_twin hf hlt hroot hplain
  have hhas : f.Has (f.TreeOrNew root) root := ⟨Or.inl (.refl f root), hlt⟩
  have hfirst := interleave_renamed hr htwin hcopy.enclosed.within.size_le category grouped hhas
  generalize interleave category grouped (r root) g = first at *
  have htwin' := twin_within hf hh hfh hlt hroot hplain
  have hsecond := interleave_renamed (moveNew_injective hfh.size_le) htwin' hfh.size_le category
    grouped hhas
  rw [moveNew_of_lt hlt] at hsecond
  generalize interleave category grouped root first.2.2 = second at *
  refine ⟨by rw [hsecond.messages_eq, hfirst.messages_eq], ?_⟩
  have hresult := hfirst.result_eq
  have hresult' := hsecond.result_eq
  rcases hreference : (interleave category grouped root f).1 with e | top
  · rw [hreference] at hresult hresult'
    exact Or.inl ⟨e, hresult, hresult'⟩
  · rw [hreference] at hresult hresult'
    refine Or.inr ⟨r top, moveNew f first.2.2 top, hresult, hresult', ?_⟩
    refine hfirst.renamed.agreeWithin hsecond.renamed hkeeps (fun n hn => ?_)
      (hfirst.has top hreference) _
    exact hn.1.elim (fun hover => (htree n hover).1) (hnew n)

/-- The tree is still there when its copy has been transformed, and corresponds to the copy as it
was. -/
theorem stash_after_copy (hcopy : f.CopyOf g root c)
    (hfh : f.Within (stash category grouped c g).2.2)
    (hh : (stash category grouped c g).2.2.WellFormed)
    (hkeeps : KeepsFrom f.size (stash category grouped c g).2.2
      (stash category grouped root (stash category grouped c g).2.2).2.2) :
    SameOutcome (stash category grouped c g)
      (stash category grouped root (stash category grouped c g).2.2) := by
  obtain ⟨r, hr, rfl, htree, -, -⟩ := hcopy.exists_twin hf hlt hroot hplain
  have hsame := hfh.sameTree hf hlt
  have hiff (n : NodeId) : f.AtOrAbove root n ↔
      (stash category grouped (r root) g).2.2.AtOrAbove root n :=
    ⟨hsame.atOrAbove hf hh, hsame.of_atOrAbove hf hh⟩
  generalize hfirst : stash category grouped (r root) g = first at *
  have hold {n : NodeId} (hn : first.2.2.AtOrAbove root n) : f.AtOrAbove root n ∧ n < f.size :=
    ⟨(hiff n).2 hn, ((hiff n).2 hn).lt_size hlt⟩
  have hroot' : first.2.2.parent? root = none := by rw [hfh.parent?_eq hlt, hroot]
  have hrenamed : Renamed (f.AtOrAbove root) r first.2.2 g := by
    refine renamed_tree hh hcopy.wellFormed hroot' (fun n _ => hiff n) (fun n hn => ?_)
      fun n hn => ?_
    · obtain ⟨hn, hlt⟩ := hold hn
      exact (hplain n hn).within hf hfh hlt
    · obtain ⟨hn, hlt⟩ := hold hn
      obtain ⟨hlt', hchildren, hparent, helement, hmetadata⟩ := (htree n hn).2
      exact ⟨hlt', by rw [hfh.children_eq hlt, hchildren], by rw [hfh.parent?_eq hlt, hparent],
        by rw [hfh.element_eq hf hlt, helement], by rw [hfh.metadata_eq hf hlt, hmetadata]⟩
  have hhas : first.2.2.Has (f.AtOrAbove root) root :=
    ⟨.refl f root, Nat.lt_of_lt_of_le hlt hfh.size_le⟩
  have hcomes := Stash.stash_renamed hr hrenamed hhas category grouped hcopy.enclosed.within.size_le
    (fun n hn => (hiff n).1 hn.1) (fun n hn => (htree n hn.1).1) (by rwa [hfirst])
  rw [hfirst] at hcomes
  obtain ⟨hmessages, herror | ⟨top, top', htop, htop', hagree⟩⟩ := hcomes
  · exact ⟨hmessages.symm, Or.inl herror⟩
  · exact ⟨hmessages.symm, Or.inr ⟨top, top', htop, htop', hagree _⟩⟩

end

/-- A copy of a tree can always be made, and transforming the copy first and then the tree itself
comes to the same: to the same fault or to equal trees, metadata included, with the same messages.
What can be reached from the tree is unchanged when the copy has been transformed. -/
theorem transform_commutes_with_copy (way : Strategy) (category : Value) (grouped : Bool)
    (root : NodeId) (f : Forest) (hf : f.Tidy) (hlt : root < f.size) (hroot : f.parent? root = none)
    (hfields : ∀ n ∈ f.preorder root, Value.isKeyedEntries (f.element n).fields = true)
    (hplain : ∀ n ∈ f.preorder root, (f.metadata n).Plain) :
    ∃ c g, outcome (copyTree root) f = (.ok c, g) ∧
      SameOutcome (way.run category grouped c g)
        (way.run category grouped root (way.run category grouped c g).2.2) ∧
      ∀ m, g.WithinReach root m → g.SameAt (way.run category grouped c g).2.2 m := by
  obtain ⟨c, g, hres, hcopy⟩ := exists_copyOf hf.wellFormed hlt
  obtain ⟨hfg, hfields', hout⟩ := hf.spares_copyTree (fenced_upTo f) hlt
  rw [hres] at hfg hfields' hout
  have hgh := way.spares_run hfg.fenced (hout c rfl) category grouped
  have hfh := hfg.trans hgh
  have hh := (way.carriesOn_run hcopy.wellFormed category grouped c).wellFormed
  have hkeeps := keepsFrom_of_spares hh hfh (way.spares_run
    (fenced_since hf.wellFormed hfh.within) (hfh.within.outside_since hlt) category grouped)
  have hat (n : NodeId) (hn : f.AtOrAbove root n) : f.PlainAt n := by
    have hmem := hf.wellFormed.mem_preorder_iff.2 hn
    exact ⟨hf.nodes_element n, hfields n hmem, hplain n hmem⟩
  refine ⟨c, g, hres, ?_, fun m hm => ?_⟩
  · cases way with
    | interleaved =>
        simp only [Strategy.run] at hfh hh hkeeps ⊢
        exact interleave_after_copy hf.wellFormed hlt hroot hat hcopy hfh.within hh hkeeps
    | stash =>
        simp only [Strategy.run] at hfh hh hkeeps ⊢
        exact stash_after_copy hf.wellFormed hlt hroot hat hcopy hfh.within hh hkeeps
  · exact sameAt_of_withinReach hf hlt hfg ⟨hcopy.wellFormed, hfields'⟩ hgh hm

/-- The document with tabs side by side is transformed in both ways as its copy is. -/
theorem transform_commutes_with_copy_sideBySide : Stash.sideBySide.Tidy ∧
    (∃ c g, outcome (copyTree 6) Stash.sideBySide = (.ok c, g) ∧
      SameOutcome (interleave (.str "tabs") true c g)
        (interleave (.str "tabs") true 6 (interleave (.str "tabs") true c g).2.2) ∧
      ∀ m, g.WithinReach 6 m → g.SameAt (interleave (.str "tabs") true c g).2.2 m) ∧
    ∃ c g, outcome (copyTree 6) Stash.sideBySide = (.ok c, g) ∧
      SameOutcome (stash (.str "tabs") true c g)
        (stash (.str "tabs") true 6 (stash (.str "tabs") true c g).2.2) ∧
      ∀ m, g.WithinReach 6 m → g.SameAt (stash (.str "tabs") true c g).2.2 m := by
  have htidy : Stash.sideBySide.Tidy := by
    refine ⟨Stash.wellFormed_sideBySide, fun key e he => ?_⟩
    match key with
    | 0 | 1 | 2 | 3 | 4 | 5 | 6 =>
        cases he
        rfl
    | _ + 7 => cases he
  have hfields : ∀ n ∈ Stash.sideBySide.preorder 6,
      Value.isKeyedEntries (Stash.sideBySide.element n).fields = true := by decide
  exact ⟨htidy,
    transform_commutes_with_copy .interleaved (.str "tabs") true 6 Stash.sideBySide htidy
      (by decide)
      rfl hfields Stash.plain_sideBySide,
    transform_commutes_with_copy .stash (.str "tabs") true 6 Stash.sideBySide htidy (by decide)
      rfl hfields Stash.plain_sideBySide⟩

end Tabs

end MarkdownTree
