import MarkdownTree.Proofs.ComparedTrees
import MarkdownTree.Proofs.FencedCopies
import MarkdownTree.Proofs.MappedCopies
import MarkdownTree.Proofs.TreeOrders

/-!
Copies are equal to their sources. The copy of a tree has equal elements in the same places. In its
metadata twins stand for the nodes that the source holds, and these are made in another way:
everything that is within reach of the held nodes is renumbered at once, so twins of twins are twins
too. Both ways of copying lead from a node and its copy to nodes and their copies, and this carries
the comparison down to any depth.
-/

namespace MarkdownTree

open Relation

namespace Entries

variable {R : Value → Value → Prop} {xs : Entries} {name : String} {twin : NodeId → NodeId}

/-- Nodes are held as values themselves, and not within lists, dictionaries or records. -/
def HoldDirectly (xs : Entries) : Prop :=
  ∀ entry ∈ xs, (∃ m, entry.2 = .node m) ∨ entry.2.nodes = []

theorem length_mapNodes (xs : Entries) : (Value.mapNodesEntries twin xs).length = xs.length := by
  induction xs with
  | nil => rfl
  | cons entry xs ih => rw [Value.mapNodesEntries, List.length_cons, List.length_cons, ih]

theorem get?_mapNodes (xs : Entries) (name : String) :
    get? (Value.mapNodesEntries twin xs) name = (xs.get? name).map (Value.mapNodes twin) := by
  induction xs with
  | nil => rfl
  | cons entry xs ih =>
      obtain ⟨key, v⟩ := entry
      rw [Value.mapNodesEntries, get?_cons, get?_cons, ih]
      split <;> rfl

theorem related_mapNodes (hxs : Value.isKeyedEntries xs = true)
    (h : ∀ entry ∈ xs, R entry.2 (entry.2.mapNodes twin)) :
    Related R xs (Value.mapNodesEntries twin xs) := by
  refine ⟨(length_mapNodes xs).symm, fun entry hentry => ⟨_, ?_, h entry hentry⟩⟩
  rw [get?_mapNodes, get?_of_isKeyed hxs hentry]
  rfl

end Entries

namespace Forest

variable {ε : Type} {f g : Forest} {c m n root : NodeId} {calls : List (Call ε Payload)}
  {depth : Nat} {trees : NodeId → NodeId → Bool} {twin : NodeId → NodeId} {withMetadata : Bool}

/-- Metadata agree with metadata that hold twins in the place of the nodes. -/
theorem metadataAgree_mapNodes {entries : Entries} (h : entries.Comparable)
    (hdirect : entries.HoldDirectly)
    (htwin : ∀ entry ∈ entries, ∀ m, entry.2 = .node m → trees m (twin m) = true) :
    metadataAgree trees entries (Value.mapNodesEntries twin entries) = true := by
  refine metadataAgree_iff.2 (Entries.related_mapNodes h.keyed fun entry hentry => ?_)
  rcases hdirect entry hentry with ⟨m, hm⟩ | hplain
  · refine entryAgrees_iff.2 (.inl ⟨m, twin m, hm, ?_, htwin entry hentry m hm⟩)
    rw [hm]
    rfl
  · have hother : ∀ m, entry.2 ≠ .node m := by
      intro m hm
      rw [hm] at hplain
      exact absurd hplain (List.cons_ne_nil m [])
    rw [mapNodes_of_plain _ hplain]
    refine entryAgrees_iff.2 (.inr ⟨hother, hother, ?_⟩)
    exact Value.agreesWithin_self false _ (Value.isKeyed_of_mem h.keyed hentry)
      (.inr (h.numbers entry hentry))

/-- Down to a depth, the tree below `c` in `g` was made from the one below `n` in `f`: as a copy of
it with equal elements, or along with metadata, as a twin. -/
inductive CopiedAs (f g : Forest) (calls : List (Call ε Payload)) (depth : Nat) :
    NodeId → NodeId → Prop
  | tree {n c : NodeId} (hcopy : f.Replicates g calls n c) (hmatch : f.MatchesWithin g depth n c) :
      CopiedAs f g calls depth n c
  | twin {n : NodeId} {listed : List NodeId} {twin : NodeId → NodeId}
      (hdup : f.Duplicates g listed twin) (hn : n ∈ listed) : CopiedAs f g calls depth n (twin n)

namespace CopiedAs

theorem element_eq (h : f.CopiedAs g calls (depth + 1) n c) : g.element c = f.element n := by
  cases h with
  | tree _ hmatch => exact hmatch.1
  | twin hdup hn => exact hdup.element_eq n hn

/-- The metadata hold copies. -/
theorem exists_metadata_eq (h : f.CopiedAs g calls depth n c) (depth' : Nat) :
    ∃ twin, g.metadata c = Value.mapNodesEntries twin (f.metadata n) ∧
      ∀ m ∈ Value.nodesEntries (f.metadata n), f.CopiedAs g calls depth' m (twin m) := by
  cases h with
  | tree hcopy _ =>
      cases hcopy with
      | node _ _ _ hfill _ =>
          obtain ⟨listed, twin, hdup, hlisted, hrecord⟩ := hfill.metadata
          refine ⟨twin, ?_, fun m hm => .twin hdup (hlisted m hm)⟩
          rw [metadata, hrecord]
          rfl
  | twin hdup hn =>
      refine ⟨_, hdup.metadata_eq n hn, fun m hm => .twin hdup ?_⟩
      exact hdup.closed.mem_of_neighbours n hn m (List.mem_append_right _ hm)

/-- The children are copies. -/
theorem children (h : f.CopiedAs g calls (depth + 1) n c) :
    List.Forall₂ (f.CopiedAs g calls depth) (f.children n) (g.children c) := by
  cases h with
  | tree hcopy hmatch =>
      cases hcopy with
      | node _ _ _ _ hchildren =>
          exact List.Forall₂.mp (fun _ _ => CopiedAs.tree) hchildren hmatch.2.2
  | twin hdup hn =>
      rw [hdup.children_eq n hn, List.forall₂_map_right_iff]
      refine List.forall₂_same.2 fun m hm => .twin hdup ?_
      exact hdup.closed.mem_of_neighbours n hn m
        (List.mem_append_left _ (List.mem_append_right _ hm))

end CopiedAs

/-- Wherever the comparison of a tree leads, nodes are held as metadata values themselves. -/
def HoldsDirectly (f : Forest) (root : NodeId) : Prop :=
  ∀ n, ReflTransGen f.LeadsTo root n → (f.metadata n).HoldDirectly

theorem HoldsDirectly.step (h : f.HoldsDirectly n) (hm : f.LeadsTo n m) : f.HoldsDirectly m :=
  fun k hk => h k (.head hm hk)

/-- What was made from a tree agrees with it, as long as the tree is still there. -/
theorem CopiedAs.agreeWithin (hf : f.WellFormed) (hfg : f.Within g) (hn : n < f.size)
    (hdata : f.Comparable n) (hdirect : f.HoldsDirectly n) (h : f.CopiedAs g calls depth n c) :
    g.agreeWithin withMetadata depth n c = true := by
  induction depth generalizing n c with
  | zero => rfl
  | succ depth ih =>
      have hbelow {m k : NodeId} (hm : f.LeadsTo n m) (hmk : f.CopiedAs g calls depth m k) :
          g.agreeWithin withMetadata depth m k = true :=
        ih (hf.lt_size_of_leadsTo hm) (hdata.step hm) (hdirect.step hm) hmk
      refine agreeWithin_succ.2 ⟨?_, fun _ => ?_, ?_⟩
      · rw [h.element_eq, hfg.element_eq hf hn]
        exact Element.agrees_self (hdata.fields n .refl)
      · obtain ⟨twin, hmetadata, htwins⟩ := h.exists_metadata_eq depth
        rw [hmetadata, hfg.metadata_eq hf hn]
        refine metadataAgree_mapNodes (hdata.metadata n .refl) (hdirect n .refl) ?_
        intro entry hentry m hm
        have hheld : (entry.1, Value.node m) ∈ f.metadata n := hm ▸ hentry
        exact hbelow (.inr ⟨entry.1, hheld⟩) (htwins m (mem_nodesEntries_of_mem hheld))
      · rw [hfg.children_eq hn]
        exact forall₂_imp_of_mem h.children fun m hm k _ => hbelow (.inl hm)

theorem Within.leadsTo_iff (hf : f.WellFormed) (hfg : f.Within g) (hn : n < f.size) :
    g.LeadsTo n m ↔ f.LeadsTo n m := by
  rw [LeadsTo, LeadsTo, hfg.children_eq hn, hfg.metadata_eq hf hn]

theorem Within.reflTransGen_leadsTo (hf : f.WellFormed) (hfg : f.Within g) (hn : n < f.size)
    (h : ReflTransGen g.LeadsTo n m) : ReflTransGen f.LeadsTo n m ∧ m < f.size := by
  induction h with
  | refl => exact ⟨.refl, hn⟩
  | tail _ hstep ih =>
      have hstep := (hfg.leadsTo_iff hf ih.2).1 hstep
      exact ⟨ih.1.tail hstep, hf.lt_size_of_leadsTo hstep⟩

theorem Comparable.within (hf : f.WellFormed) (hfg : f.Within g) (hroot : root < f.size)
    (h : f.Comparable root) : g.Comparable root where
  fields n hn := by
    obtain ⟨hreach, hlt⟩ := hfg.reflTransGen_leadsTo hf hroot hn
    rw [hfg.element_eq hf hlt]
    exact h.fields n hreach
  metadata n hn := by
    obtain ⟨hreach, hlt⟩ := hfg.reflTransGen_leadsTo hf hroot hn
    rw [hfg.metadata_eq hf hlt]
    exact h.metadata n hreach
  not_leadsTo_self n hn hself := by
    obtain ⟨hreach, hlt⟩ := hfg.reflTransGen_leadsTo hf hroot hn
    obtain ⟨k, hk, hkn⟩ := TransGen.tail'_iff.1 hself
    obtain ⟨hback, hklt⟩ := hfg.reflTransGen_leadsTo hf hlt hk
    exact h.not_leadsTo_self n hreach (.tail' hback ((hfg.leadsTo_iff hf hklt).1 hkn))

theorem countNodes_eq (f : Forest) (n : NodeId) : f.countNodes n = (f.preorder n).length := by
  rw [countNodes, fold, List.foldl_add_const, Nat.zero_add, Nat.one_mul]
  exact (WellFormed.perm_postorder f n).length_eq

/-- A tree can be copied, and the copy is a new tree that agrees with it, with metadata and without
them, and has as many nodes. The tree is one whose metadata hold plain values, or nodes directly,
and do not lead back. -/
theorem copyTree_agrees (hf : f.Tidy) (hroot : root < f.size) (hdata : f.Comparable root)
    (hdirect : f.HoldsDirectly root) :
    ∃ c g, outcome (copyTree root) f = (.ok c, g) ∧ f.size ≤ c ∧ g.Comparable root ∧
      (∀ withMetadata, g.agree withMetadata root c = true) ∧
      g.countNodes c = g.countNodes root := by
  obtain ⟨c, g, hout, hcopy⟩ := exists_copyOf hf.wellFormed hroot
  have hfg := hcopy.enclosed.within
  have hnothing : ChangesNothing sameElements := fun _ _ _ => rfl
  -- A copy with equal elements is one whose elements are chosen.
  obtain ⟨calls, answer, h, t, hres, -, -, -, -, hchosen⟩ :=
    runs_copyTreeWith hf.wellFormed.linked hroot hnothing 0 () []
  have hreplicates : f.Replicates g calls root c := by
    rw [outcome_copyTree, (result_of_traced hres).1] at hout
    rcases answer with (e | e | _) | d
    all_goals cases hout
    exact (hchosen c rfl).2.2
  have hagree (withMetadata : Bool) : g.agree withMetadata root c = true :=
    (CopiedAs.tree hreplicates (hcopy.matched _)).agreeWithin hf.wellFormed hfg hroot hdata hdirect
  refine ⟨c, g, hout, hcopy.le, hdata.within hf.wellFormed hfg hroot, hagree, ?_⟩
  rw [countNodes_eq, countNodes_eq]
  exact (agree_false_iff.1 (hagree false)).length_eq.symm

theorem tidy_keepingQuote : keepingQuote.Tidy where
  wellFormed := wellFormed_keepingQuote
  plain key e he := by
    match key with
    | 0 | 1 | 2 | 3 | 4 =>
        cases he
        rfl
    | _ + 5 => cases he

theorem holdsDirectly_keepingQuote (root : NodeId) : keepingQuote.HoldsDirectly root := by
  intro n _
  match n with
  | 0 | 1 | 4 | _ + 5 => exact fun _ hentry => absurd hentry List.not_mem_nil
  | 2 => exact List.forall_mem_cons.2 ⟨.inl ⟨1, rfl⟩, List.forall_mem_singleton.2 (.inr rfl)⟩
  | 3 => exact List.forall_mem_cons.2 ⟨.inr rfl, List.forall_mem_singleton.2 (.inl ⟨1, rfl⟩)⟩

/-- The copy of the document holds two copies of the block quote that both code blocks keep. -/
theorem copyTree_agrees_keepingQuote :
    keepingQuote.Tidy ∧ 4 < keepingQuote.size ∧ keepingQuote.Comparable 4 ∧
      keepingQuote.HoldsDirectly 4 ∧
      ∃ c g, outcome (copyTree 4) keepingQuote = (.ok c, g) ∧ 5 ≤ c ∧ g.Comparable 4 ∧
        (∀ withMetadata, g.agree withMetadata 4 c = true) ∧ g.countNodes c = g.countNodes 4 :=
  have hdata := comparable_keepingQuote 4
  have hdirect := holdsDirectly_keepingQuote 4
  ⟨tidy_keepingQuote, by decide, hdata, hdirect,
    copyTree_agrees tidy_keepingQuote (by decide) hdata hdirect⟩

end Forest

end MarkdownTree
