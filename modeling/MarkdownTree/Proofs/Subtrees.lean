import Mathlib.Data.List.Nodup
import MarkdownTree.Forest.Content
import MarkdownTree.Proofs.Ancestry

/-!
Traversals of a tree in a well-formed forest. The bound on their depth never cuts anything off, so a
traversal of a node is made of the traversals of its children, and depends on nothing but what is at
or below the node.
-/

namespace MarkdownTree.Forest

variable {f g h : Forest} {a c d m n : NodeId}

namespace WellFormed

variable (hf : f.WellFormed)

include hf

theorem preorder_eq (n : NodeId) : f.preorder n = n :: (f.children n).flatMap f.preorder := by
  refine congrArg (n :: ·) (List.flatMap_congr fun c hc => eq_at_child hf ?_ hc)
  exact fun depth depth' n h => congrArg (n :: ·) (List.flatMap_congr h)

theorem mem_preorder_iff : m ∈ f.preorder n ↔ f.AtOrAbove n m := by
  induction n using hf.down_induction with
  | h n ih =>
      rw [hf.preorder_eq, List.mem_cons, List.mem_flatMap]
      constructor
      · rintro (rfl | ⟨c, hc, hm⟩)
        · exact .refl f _
        · exact (hf.ancestor_of_mem hc).atOrAbove.trans ((ih c hc).1 hm)
      · rintro (rfl | hm)
        · exact Or.inl rfl
        · obtain ⟨c, hc, hcm⟩ := hf.exists_mem_of_ancestor hm
          exact Or.inr ⟨c, hc, (ih c hc).2 hcm⟩

/-- No node is at or below two children of a node. -/
theorem eq_of_siblings (hc : c ∈ f.children n) (hd : d ∈ f.children n) (hcm : f.AtOrAbove c m)
    (hdm : f.AtOrAbove d m) : c = d := by
  rcases hcm.linear hdm with hcd | hdc
  · rcases hf.atOrAbove_of_mem hd hcd with heq | hcn
    · exact heq
    · exact absurd hcn (hf.not_atOrAbove_of_mem hc (.refl f n))
  · rcases hf.atOrAbove_of_mem hc hdc with heq | hdn
    · exact heq.symm
    · exact absurd hdn (hf.not_atOrAbove_of_mem hd (.refl f n))

theorem nodup_preorder (n : NodeId) : (f.preorder n).Nodup := by
  induction n using hf.down_induction with
  | h n ih =>
      rw [hf.preorder_eq, List.nodup_cons, List.mem_flatMap, List.nodup_flatMap]
      refine ⟨?_, ih, ?_⟩
      · rintro ⟨c, hc, hn⟩
        have hcn := hf.mem_preorder_iff.1 hn
        exact hf.not_atOrAbove_of_mem hc (.refl f n) hcn
      · refine (hf.nodup_children n).imp_of_mem ?_
        intro c d hc hd hne m hm hm'
        exact hne (hf.eq_of_siblings hc hd (hf.mem_preorder_iff.1 hm) (hf.mem_preorder_iff.1 hm'))

theorem length_preorder_le (hn : n < f.size) : (f.preorder n).length ≤ f.size := by
  have hsub : f.preorder n ⊆ List.range f.size := by
    intro m hm
    have hover := hf.mem_preorder_iff.1 hm
    exact List.mem_range.2 (hover.lt_size hn)
  have hle := (List.subperm_of_subset (hf.nodup_preorder n) hsub).length_le
  simpa using hle

end WellFormed

theorem WellFormed.content_eq (hf : f.WellFormed) (own : Element → Option Value) (n : NodeId) :
    f.contentWithin own (f.size + 1) n =
      match own (f.element n) with
      | some v => .ok v
      | none => (do
        let parts ← allOk ((f.children n).map (f.contentWithin own (f.size + 1)))
        let text ← joinTexts 0 parts
        .ok (.str text)) := by
  have hmap : (f.children n).map (f.contentWithin own f.size) =
      (f.children n).map (f.contentWithin own (f.size + 1)) := by
    refine List.map_congr_left fun c hc => eq_at_child hf (fun depth depth' n h => ?_) hc
    rw [contentWithin, contentWithin, List.map_congr_left h]
  rw [← hmap]
  rfl

theorem WellFormed.plainText_eq (hf : f.WellFormed) (n : NodeId) :
    f.plainText n =
      match ownText? (f.element n) with
      | some v => .ok v
      | none => (do
        let parts ← allOk ((f.children n).map f.plainText)
        let text ← joinTexts 0 parts
        .ok (.str text)) :=
  hf.content_eq ownText? n

/-- The tree below a node is the same in two forests: the same nodes with the same data. -/
def SameTree (f g : Forest) (n : NodeId) : Prop :=
  ∀ m, f.AtOrAbove n m →
    g.children m = f.children m ∧ g.element m = f.element m ∧ g.metadata m = f.metadata m

namespace SameTree

theorem child (hf : f.WellFormed) (hsame : f.SameTree g n) (hc : c ∈ f.children n) :
    f.SameTree g c :=
  fun m hm => hsame m ((hf.ancestor_of_mem hc).atOrAbove.trans hm)

theorem children_eq (hsame : f.SameTree g n) : g.children n = f.children n :=
  (hsame n (.refl f n)).1

theorem element_eq (hsame : f.SameTree g n) : g.element n = f.element n :=
  (hsame n (.refl f n)).2.1

theorem metadata_eq (hsame : f.SameTree g n) : g.metadata n = f.metadata n :=
  (hsame n (.refl f n)).2.2

theorem kind_eq (hsame : f.SameTree g n) : g.kind n = f.kind n := by
  rw [kind, kind, hsame.element_eq]

/-- What is below a node stays below it. -/
theorem atOrAbove (hf : f.WellFormed) (hg : g.WellFormed) (hsame : f.SameTree g n)
    (hm : f.AtOrAbove n m) : g.AtOrAbove n m := by
  induction n using hf.down_induction with
  | h n ih =>
      rcases hm with rfl | hm
      · exact .refl g _
      · obtain ⟨c, hc, hcm⟩ := hf.exists_mem_of_ancestor hm
        have hcg : c ∈ g.children n := by rwa [hsame.children_eq]
        have hbelow := ih c hc (hsame.child hf hc) hcm
        exact (hg.ancestor_of_mem hcg).atOrAbove.trans hbelow

/-- Nothing else is below a node than what was below it. -/
theorem of_atOrAbove (hf : f.WellFormed) (hg : g.WellFormed) (hsame : f.SameTree g n)
    (hm : g.AtOrAbove n m) : f.AtOrAbove n m := by
  induction n using hg.down_induction with
  | h n ih =>
      rcases hm with rfl | hm
      · exact .refl f _
      · obtain ⟨c, hc, hcm⟩ := hg.exists_mem_of_ancestor hm
        have hcf : c ∈ f.children n := by rwa [← hsame.children_eq]
        have hbelow := ih c hc (hsame.child hf hcf) hcm
        exact (hf.ancestor_of_mem hcf).atOrAbove.trans hbelow

theorem plainText_eq (hf : f.WellFormed) (hg : g.WellFormed) (hsame : f.SameTree g n) :
    g.plainText n = f.plainText n := by
  induction n using hf.down_induction with
  | h n ih =>
      have hmap : (f.children n).map g.plainText = (f.children n).map f.plainText :=
        List.map_congr_left fun c hc => ih c hc (hsame.child hf hc)
      rw [hg.plainText_eq, hf.plainText_eq, hsame.children_eq, hsame.element_eq, hmap]

end SameTree

end MarkdownTree.Forest
