import MarkdownTree.Proofs.Destinations
import MarkdownTree.Proofs.LiveLists

/-!
Where nodes stand after a child was replaced by a sequence. Main statement: they are put in the
place of the child as they should be if the sequence has items of its own, or nothing in it, and
never if it is a list that the nodes leave while it is gone through.
-/

namespace MarkdownTree.Forest

variable {f g : Forest} {c m n p : NodeId} {before after nodes : List NodeId}

/-- Nodes that leave their list while it is gone through do not stand in the place of the child. -/
theorem not_substituted (hf : f.WellFormed) (h : f.children p = before ++ c :: after)
    (hcheck : f.checkReplacement p [] ((f.children n).map .node) = .ok nodes)
    (hsome : f.children n ≠ []) {rounds i : Nat}
    (hres : outcome (replaceByChildren rounds p (.node c) n) f = (.ok (some i), g)) :
    ¬ f.Substituted g p c (f.children n) := by
  intro hsub
  rcases replaceByChildren_ok hf h hcheck hres with ⟨hnone, rfl⟩ | ⟨⟨hleft, hne⟩, hlist, -⟩
  · obtain ⟨m, hm⟩ := List.exists_mem_of_ne_nil _ hsome
    have hgone : (f.emptied c n).parent? m = none := by
      rw [parent?_emptied, if_pos]
      by_contra hno
      have hleft : m ∈ f.leftover c n := by
        rw [leftover, List.mem_filter, mem_without]
        exact ⟨⟨hm, fun hl => hno (Or.inr hl)⟩, by simpa using fun hc => hno (Or.inl hc)⟩
      rw [hnone] at hleft
      cases hleft
    rw [hsub.parent?_new m hm] at hgone
    cases hgone
  · have hempty : without (f.children n) (f.children n) = [] :=
      List.filter_eq_nil_iff.2 fun m hm => by simpa using hm
    rw [hsub.children_other n hne, hempty] at hlist
    exact hleft hlist.symm

/-- Replacing a child by a sequence of nodes that may stand there succeeds if the sequence stays as
it is: the answer is the number of children before the child that stay, and the nodes stand in its
place, wherever they came from. If the sequence changes with the lists that the nodes leave, they do
not stand there. -/
theorem replaceChildBy_substitutes (hf : f.WellFormed) (hc : c ∈ f.children p) (seq : Sequence)
    (hitems : seq.items f = nodes.map .node) (hfit : f.AllFit p nodes)
    (hlt : ∀ k ∈ nodes, k < f.size) :
    (f.Steady seq → ∀ rounds, ∃ g, outcome (replaceChildBy rounds p (.node c) seq) f =
        (.ok (some (without ((f.children p).takeWhile (· != c)) nodes).length), g) ∧
      f.Substituted g p c nodes) ∧
    (¬ f.Steady seq → ∀ rounds i g,
      outcome (replaceChildBy rounds p (.node c) seq) f = (.ok (some i), g) →
        ¬ f.Substituted g p c nodes) := by
  have hown : ∃ g, outcome (replaceChild p (.node c) (nodes.map .node)) f =
      (.ok (without ((f.children p).takeWhile (· != c)) nodes).length, g) ∧
      f.Substituted g p c nodes := replaceChild_substitutes hf hc hfit hlt
  cases seq with
  | own items =>
      obtain rfl : items = nodes.map .node := hitems
      refine ⟨fun _ rounds => ?_, fun hno => absurd trivial hno⟩
      obtain ⟨g, hout, hsub⟩ := hown
      refine ⟨g, ?_, hsub⟩
      rw [replaceChildBy, outcome_bind, hout]
      rfl
  | childrenOf n =>
      obtain rfl : f.children n = nodes :=
        List.map_injective_iff.2 (fun _ _ h => Value.node.inj h) hitems
      constructor
      · intro hsteady rounds
        have hnone : f.children n = [] := hsteady
        obtain ⟨g, hout, hsub⟩ := hown
        refine ⟨g, ?_, hsub⟩
        rw [hnone, List.map_nil] at hout
        rw [replaceChildBy, outcome_replaceByChildren_empty hnone, hout, hnone]
      · intro hsome rounds i g hres
        obtain ⟨before, after, h⟩ := List.append_of_mem hc
        have hcheck : f.checkReplacement p [] ((f.children n).map .node) = .ok (f.children n) :=
          (checkReplacement_eq_ok_iff hf).2 ⟨rfl, hfit, by simp⟩
        exact not_substituted hf h hcheck hsome hres

/-- The block quote gives way to its neighbours, in another order, with its content between them;
and a paragraph to what it holds, which is nothing. -/
theorem replaceChildBy_substitutes_quoteBetween :
    (1 ∈ quoteBetween.children 4 ∧ quoteBetween.AllFit 4 [3, 0, 2] ∧
      ∃ g, outcome (replaceChildBy 0 4 (.node 1) (.own [.node 3, .node 0, .node 2]))
        quoteBetween = (.ok (some 0), g) ∧ quoteBetween.Substituted g 4 1 [3, 0, 2]) ∧
    quoteBetween.Steady (.childrenOf 2) ∧
      ∃ g, outcome (replaceChildBy 0 4 (.node 2) (.childrenOf 2)) quoteBetween =
        (.ok (some 0), g) ∧ quoteBetween.Substituted g 4 2 [] := by
  have hf := wellFormed_quoteBetween
  have hfit : quoteBetween.AllFit 4 [3, 0, 2] := by
    have htests : ∀ k ∈ [3, 0, 2], (quoteBetween.kind 4).canContain (quoteBetween.kind k) = true ∧
        quoteBetween.isAncestorOf k 4 = false := by decide
    exact ⟨by decide, fun k hk => fits_of_tests hf (htests k hk).1 (htests k hk).2⟩
  have hc : 1 ∈ quoteBetween.children 4 := by decide
  have hsteady : quoteBetween.Steady (.childrenOf 2) := show quoteBetween.children 2 = [] by decide
  obtain ⟨g, hout, hsub⟩ := (replaceChildBy_substitutes hf hc (.own [.node 3, .node 0, .node 2])
    rfl hfit (by decide)).1 trivial 0
  have hitems : Sequence.items quoteBetween (.childrenOf 2) = [].map .node := rfl
  obtain ⟨g', hout', hsub'⟩ := (replaceChildBy_substitutes hf
    (show 2 ∈ quoteBetween.children 4 by decide) (.childrenOf 2) hitems (allFit_nil _ 4)
    (by decide)).1 hsteady 0
  have hcount : (without ((quoteBetween.children 4).takeWhile (· != 1)) [3, 0, 2]).length = 0 := by
    decide
  have hcount' : (without ((quoteBetween.children 4).takeWhile (· != 2)) []).length = 0 := by
    decide
  rw [hcount] at hout
  rw [hcount'] at hout'
  exact ⟨⟨hc, hfit, g, hout, hsub⟩, hsteady, g', hout', hsub'⟩

/-- A document with a block quote over two paragraphs. -/
def pairQuoted : Forest where
  nodes := #[⟨0, some 2, [], 0⟩, ⟨1, some 2, [], 1⟩, ⟨2, some 3, [0, 1], 2⟩, ⟨3, none, [2], 3⟩]
  elements := #[.ofFields .paragraph [], .ofFields .paragraph [], .blockQuote,
    .ofFields .document []]
  records := #[[], [], [], []]

theorem wellFormed_pairQuoted : pairQuoted.WellFormed := by
  have hfirst := wellFormed_newNode wellFormed_empty (.ofFields .paragraph []) [] (by simp)
  have hsecond := wellFormed_newNode hfirst (.ofFields .paragraph []) [] (by simp)
  have hquote := wellFormed_newNode hsecond .blockQuote [0, 1] (by decide)
  exact wellFormed_newNode hquote (.ofFields .document []) [2] (by decide)

/-- Replaced by the list of its own children, the block quote goes, but of the two paragraphs the
first is lost, and the second is listed twice. -/
theorem not_substituted_pairQuoted :
    ¬ ∀ (f : Forest) (p c : NodeId) (seq : Sequence) (nodes : List NodeId), f.WellFormed →
      c ∈ f.children p → seq.items f = nodes.map .node → f.AllFit p nodes →
      (∀ k ∈ nodes, k < f.size) →
      ∃ rounds i g, outcome (replaceChildBy rounds p (.node c) seq) f = (.ok (some i), g) ∧
        f.Substituted g p c nodes := by
  intro hall
  have hf := wellFormed_pairQuoted
  have hfit : pairQuoted.AllFit 3 [0, 1] := by
    have htests : ∀ k ∈ [0, 1], (pairQuoted.kind 3).canContain (pairQuoted.kind k) = true ∧
        pairQuoted.isAncestorOf k 3 = false := by decide
    exact ⟨by decide, fun k hk => fits_of_tests hf (htests k hk).1 (htests k hk).2⟩
  obtain ⟨rounds, i, g, hout, hsub⟩ := hall pairQuoted 3 2 (.childrenOf 2) [0, 1] hf (by decide)
    rfl hfit (by decide)
  have hcheck : pairQuoted.checkReplacement 3 [] ((pairQuoted.children 2).map .node) =
      .ok [0, 1] := rfl
  have hlist : pairQuoted.children 3 = [] ++ 2 :: [] := rfl
  exact not_substituted hf hlist hcheck (by decide) hout hsub

end MarkdownTree.Forest
