import MarkdownTree.Proofs.Destinations

/-!
The two orders of a tree and the links of its nodes. Both traversals come upon what is at or below
the root, each node once. A node over another one comes first in pre-order and last in post-order,
and two nodes of which neither is over the other come in the same order in both; so the two orders
together tell which node is over which, as the way up along the parents does. Walking down a tree
with a state that is handed on is a fold over these orders.
-/

namespace MarkdownTree.Forest

variable {f : Forest} {a b c n root : NodeId} {list : List NodeId} {σ : Type}

/-- `a` comes before `b` in a list. -/
def Precedes (list : List NodeId) (a b : NodeId) : Prop :=
  List.Sublist [a, b] list

theorem precedes_nil : ¬ Precedes [] a b := by
  simp [Precedes]

theorem precedes_cons : Precedes (n :: list) a b ↔ Precedes list a b ∨ a = n ∧ b ∈ list := by
  rw [Precedes, List.cons_sublist_cons', List.singleton_sublist]
  rfl

namespace Precedes

theorem right_mem (h : Precedes list a b) : b ∈ list :=
  List.Sublist.subset h (List.mem_cons_of_mem a List.mem_cons_self)

/-- In a list that has everything once, only one of two comes before the other. -/
theorem asymm (h : Precedes list a b) (hlist : list.Nodup) : ¬ Precedes list b a := by
  induction list with
  | nil => exact absurd h precedes_nil
  | cons n list ih =>
      obtain ⟨hn, hrest⟩ := List.nodup_cons.1 hlist
      intro h'
      rcases precedes_cons.1 h with hab | ⟨rfl, -⟩
      · rcases precedes_cons.1 h' with hba | ⟨rfl, -⟩
        · exact ih hab hrest hba
        · exact hn hab.right_mem
      · rcases precedes_cons.1 h' with hba | ⟨-, ha⟩
        · exact hn hba.right_mem
        · exact hn ha

end Precedes

theorem precedes_append {front back : List NodeId} :
    Precedes (front ++ back) a b ↔
      Precedes front a b ∨ Precedes back a b ∨ a ∈ front ∧ b ∈ back := by
  induction front with
  | nil => simp [precedes_nil]
  | cons n front ih =>
      rw [List.cons_append, precedes_cons, ih, precedes_cons, List.mem_append, List.mem_cons]
      constructor
      · rintro ((h | h | ⟨ha, hb⟩) | ⟨ha, hb | hb⟩)
        · exact .inl (.inl h)
        · exact .inr (.inl h)
        · exact .inr (.inr ⟨.inr ha, hb⟩)
        · exact .inl (.inr ⟨ha, hb⟩)
        · exact .inr (.inr ⟨.inl ha, hb⟩)
      · rintro ((h | ⟨ha, hb⟩) | h | ⟨ha | ha, hb⟩)
        · exact .inl (.inl h)
        · exact .inr ⟨ha, .inl hb⟩
        · exact .inl (.inr (.inl h))
        · exact .inr ⟨ha, .inr hb⟩
        · exact .inl (.inr (.inr ⟨ha, hb⟩))

/-- In joined parts the order is that within a part, or that of the parts. -/
theorem precedes_flatMap {part : NodeId → List NodeId} :
    Precedes (list.flatMap part) a b ↔ (∃ c ∈ list, Precedes (part c) a b) ∨
      ∃ c d, Precedes list c d ∧ a ∈ part c ∧ b ∈ part d := by
  induction list with
  | nil => simp [precedes_nil]
  | cons n list ih =>
      rw [List.flatMap_cons, precedes_append, ih, List.exists_mem_cons_iff]
      simp only [precedes_cons, List.mem_flatMap]
      constructor
      · rintro (h | (h | ⟨c, d, h, hmem⟩) | ⟨ha, d, hd, hb⟩)
        · exact .inl (.inl h)
        · exact .inl (.inr h)
        · exact .inr ⟨c, d, .inl h, hmem⟩
        · exact .inr ⟨n, d, .inr ⟨rfl, hd⟩, ha, hb⟩
      · rintro ((h | h) | ⟨c, d, h | ⟨rfl, hd⟩, ha, hb⟩)
        · exact .inl h
        · exact .inr (.inl (.inl h))
        · exact .inr (.inl (.inr ⟨c, d, h, ha, hb⟩))
        · exact .inr (.inr ⟨ha, d, hd, hb⟩)

/-- Both orders are made of the same nodes. -/
theorem perm_postorderWithin (f : Forest) (depth : Nat) (n : NodeId) :
    (f.postorderWithin depth n).Perm (f.preorderWithin depth n) := by
  induction depth generalizing n with
  | zero => exact .refl _
  | succ depth ih =>
      rw [postorderWithin, preorderWithin]
      exact (List.perm_append_singleton n _).trans
        (.cons n (List.Perm.flatMap_left _ fun c _ => ih c))

namespace WellFormed

variable (hf : f.WellFormed)

include hf

theorem postorder_eq (n : NodeId) : f.postorder n = (f.children n).flatMap f.postorder ++ [n] := by
  refine congrArg (· ++ [n]) (List.flatMap_congr fun c hc => eq_at_child hf ?_ hc)
  exact fun depth depth' n h => congrArg (· ++ [n]) (List.flatMap_congr h)

omit hf in
theorem perm_postorder (f : Forest) (n : NodeId) : (f.postorder n).Perm (f.preorder n) :=
  perm_postorderWithin f (f.size + 1) n

theorem mem_postorder_iff : a ∈ f.postorder n ↔ f.AtOrAbove n a := by
  rw [(perm_postorder f n).mem_iff, hf.mem_preorder_iff]

theorem nodup_postorder (n : NodeId) : (f.postorder n).Nodup :=
  (perm_postorder f n).nodup_iff.2 (hf.nodup_preorder n)

/-- A node comes before those below it in pre-order, and after them in post-order. -/
theorem precedes_of_ancestor (hroot : f.AtOrAbove root a) (hab : f.Ancestor a b) :
    Precedes (f.preorder root) a b ∧ Precedes (f.postorder root) b a := by
  induction root using hf.down_induction with
  | h root ih =>
      rw [hf.preorder_eq, hf.postorder_eq, precedes_cons, precedes_append, precedes_flatMap,
        precedes_flatMap]
      rcases hroot with rfl | habove
      · obtain ⟨c, hc, hcb⟩ := hf.exists_mem_of_ancestor hab
        refine ⟨.inr ⟨rfl, ?_⟩, .inr (.inr ⟨?_, List.mem_singleton_self _⟩)⟩
        · exact List.mem_flatMap.2 ⟨c, hc, hf.mem_preorder_iff.2 hcb⟩
        · exact List.mem_flatMap.2 ⟨c, hc, hf.mem_postorder_iff.2 hcb⟩
      · obtain ⟨c, hc, hca⟩ := hf.exists_mem_of_ancestor habove
        obtain ⟨hpre, hpost⟩ := ih c hc hca
        exact ⟨.inl (.inl ⟨c, hc, hpre⟩), .inl (.inl ⟨c, hc, hpost⟩)⟩

/-- Where neither of two nodes is over the other, both orders agree. -/
theorem precedes_iff_of_unrelated (hab : ¬ f.AtOrAbove a b) (hba : ¬ f.AtOrAbove b a) :
    Precedes (f.preorder root) a b ↔ Precedes (f.postorder root) a b := by
  induction root using hf.down_induction with
  | h root ih =>
      rw [hf.preorder_eq, hf.postorder_eq, precedes_cons, precedes_append, precedes_flatMap,
        precedes_flatMap]
      -- The root is over both, so it is neither of them.
      have hfirst : ¬ (a = root ∧ b ∈ (f.children root).flatMap f.preorder) := by
        rintro ⟨rfl, hb⟩
        obtain ⟨c, hc, hcb⟩ := List.mem_flatMap.1 hb
        exact hab ((hf.ancestor_of_mem hc).trans_atOrAbove (hf.mem_preorder_iff.1 hcb)).atOrAbove
      have hlast : ¬ (a ∈ (f.children root).flatMap f.postorder ∧ b ∈ [root]) := by
        rintro ⟨ha, hb⟩
        obtain rfl := List.mem_singleton.1 hb
        obtain ⟨c, hc, hca⟩ := List.mem_flatMap.1 ha
        exact hba ((hf.ancestor_of_mem hc).trans_atOrAbove (hf.mem_postorder_iff.1 hca)).atOrAbove
      have hsingle : ¬ Precedes [root] a b := fun h =>
        absurd (List.Sublist.length_le h) (by simp)
      have hsame : (∃ c ∈ f.children root, Precedes (f.preorder c) a b) ↔
          ∃ c ∈ f.children root, Precedes (f.postorder c) a b :=
        exists_congr fun c => and_congr_right fun hc => ih c hc
      simp only [hfirst, hlast, hsingle, hsame, or_false, hf.mem_preorder_iff, hf.mem_postorder_iff]

/-- The two orders tell which node is over which. -/
theorem ancestor_iff_precedes (ha : f.AtOrAbove root a) (hb : f.AtOrAbove root b) :
    f.Ancestor a b ↔ Precedes (f.preorder root) a b ∧ Precedes (f.postorder root) b a := by
  refine ⟨hf.precedes_of_ancestor ha, fun ⟨hpre, hpost⟩ => ?_⟩
  have hpre' : ¬ Precedes (f.preorder root) b a := hpre.asymm (hf.nodup_preorder root)
  have hpost' : ¬ Precedes (f.postorder root) a b := hpost.asymm (hf.nodup_postorder root)
  by_cases hab : f.AtOrAbove a b
  · rcases hab with rfl | hab
    · exact absurd hpre hpre'
    · exact hab
  · by_cases hba : f.AtOrAbove b a
    · rcases hba with rfl | hba
      · exact absurd hpre hpre'
      · exact absurd (hf.precedes_of_ancestor hb hba).1 hpre'
    · exact absurd ((hf.precedes_iff_of_unrelated hab hba).1 hpre) hpost'

theorem ancestor_iff_isAncestorOf : f.Ancestor a b ↔ f.isAncestorOf a b = true ∧ a ≠ b := by
  rw [hf.isAncestorOf_iff]
  constructor
  · intro hab
    refine ⟨hab.atOrAbove, ?_⟩
    rintro rfl
    exact hf.not_ancestor_self a hab
  · rintro ⟨rfl | hab, hne⟩
    · exact absurd rfl hne
    · exact hab

end WellFormed

/-- Hands a state on through the nodes of a tree, each before its children, down to a depth. -/
def walkPreorderWithin (f : Forest) (visit : σ → NodeId → σ) : Nat → σ → NodeId → σ
  | 0, s, _ => s
  | depth + 1, s, n => (f.children n).foldl (walkPreorderWithin f visit depth) (visit s n)

/-- Hands a state on through the nodes of a tree, each after its children, down to a depth. -/
def walkPostorderWithin (f : Forest) (visit : σ → NodeId → σ) : Nat → σ → NodeId → σ
  | 0, s, _ => s
  | depth + 1, s, n => visit ((f.children n).foldl (walkPostorderWithin f visit depth) s) n

/-- Hands a state on through the nodes of a tree, each before its children. -/
def walkPreorder (f : Forest) (visit : σ → NodeId → σ) (start : σ) (root : NodeId) : σ :=
  f.walkPreorderWithin visit (f.size + 1) start root

/-- Hands a state on through the nodes of a tree, each after its children. -/
def walkPostorder (f : Forest) (visit : σ → NodeId → σ) (start : σ) (root : NodeId) : σ :=
  f.walkPostorderWithin visit (f.size + 1) start root

theorem walkPreorderWithin_eq (visit : σ → NodeId → σ) (depth : Nat) (s : σ) (n : NodeId) :
    f.walkPreorderWithin visit depth s n = (f.preorderWithin depth n).foldl visit s := by
  induction depth generalizing s n with
  | zero => rfl
  | succ depth ih =>
      rw [walkPreorderWithin, preorderWithin, List.foldl_cons, List.foldl_flatMap]
      congr 1
      funext s c
      exact ih s c

theorem walkPostorderWithin_eq (visit : σ → NodeId → σ) (depth : Nat) (s : σ) (n : NodeId) :
    f.walkPostorderWithin visit depth s n = (f.postorderWithin depth n).foldl visit s := by
  induction depth generalizing s n with
  | zero => rfl
  | succ depth ih =>
      rw [walkPostorderWithin, postorderWithin, List.foldl_append, List.foldl_flatMap,
        List.foldl_cons, List.foldl_nil]
      congr 2
      funext s c
      exact ih s c

/-- Takes up the image of a node that a filter keeps. -/
def takeUp {α : Type} (keep : NodeId → Bool) (image : NodeId → α) (found : List α) (n : NodeId) :
    List α :=
  if keep n then found ++ [image n] else found

theorem foldl_takeUp {α : Type} (order : List NodeId) (keep : NodeId → Bool) (image : NodeId → α)
    (found : List α) :
    order.foldl (takeUp keep image) found = found ++ collect order keep image := by
  induction order generalizing found with
  | nil => simp [collect]
  | cons n order ih =>
      rw [List.foldl_cons, ih]
      by_cases hn : keep n = true <;> simp [takeUp, collect, hn]

/-- How the traversals of the tree below a node agree with the links of its nodes. -/
structure InOrder (f : Forest) (root : NodeId) : Prop where
  /-- Both come upon the nodes at or below the root, each once. -/
  mem_preorder_iff (n : NodeId) : n ∈ f.preorder root ↔ f.isAncestorOf root n = true
  mem_postorder_iff (n : NodeId) : n ∈ f.postorder root ↔ f.isAncestorOf root n = true
  nodup_preorder : (f.preorder root).Nodup
  nodup_postorder : (f.postorder root).Nodup
  /-- A node is strictly over another one if it comes before it in pre-order and after it in
  post-order, and only then. -/
  over_iff (a b : NodeId) (ha : a ∈ f.preorder root) (hb : b ∈ f.preorder root) :
    (f.isAncestorOf a b = true ∧ a ≠ b) ↔
      Precedes (f.preorder root) a b ∧ Precedes (f.postorder root) b a
  /-- If neither of two nodes is over the other, they come in the same order in both. -/
  unrelated (a b : NodeId) (hab : f.isAncestorOf a b = false) (hba : f.isAncestorOf b a = false) :
    Precedes (f.preorder root) a b ↔ Precedes (f.postorder root) a b
  /-- A walk hands its state on in the order of the traversal. -/
  fold_preorder {α : Type} (step : α → NodeId → α) (start : α) :
    f.walkPreorder step start root = fold (f.preorder root) step start
  fold_postorder {α : Type} (step : α → NodeId → α) (start : α) :
    f.walkPostorder step start root = fold (f.postorder root) step start
  /-- A walk that takes up images comes to those of the nodes that are kept, in that order. -/
  collect_preorder {α : Type} (keep : NodeId → Bool) (image : NodeId → α) :
    f.walkPreorder (takeUp keep image) [] root = ((f.preorder root).filter keep).map image
  collect_postorder {α : Type} (keep : NodeId → Bool) (image : NodeId → α) :
    f.walkPostorder (takeUp keep image) [] root = ((f.postorder root).filter keep).map image
  /-- The nodes of some kinds that a filter keeps are selected in pre-order. -/
  select_eq (kinds : List Kind) (keep : NodeId → Bool) :
    f.select root kinds keep = (f.preorder root).filter fun n => f.isOfKind kinds n && keep n

/-- In a well-formed forest the traversals of every tree agree with the links. -/
theorem inOrder_of_wellFormed (hf : f.WellFormed) (root : NodeId) : f.InOrder root where
  mem_preorder_iff n := by rw [hf.mem_preorder_iff, hf.isAncestorOf_iff]
  mem_postorder_iff n := by rw [hf.mem_postorder_iff, hf.isAncestorOf_iff]
  nodup_preorder := hf.nodup_preorder root
  nodup_postorder := hf.nodup_postorder root
  over_iff a b ha hb := by
    rw [← hf.ancestor_iff_isAncestorOf]
    exact hf.ancestor_iff_precedes (hf.mem_preorder_iff.1 ha) (hf.mem_preorder_iff.1 hb)
  unrelated a b hab hba := by
    refine hf.precedes_iff_of_unrelated (fun h => ?_) fun h => ?_
    · exact Bool.false_ne_true (hab.symm.trans (hf.isAncestorOf_iff.2 h))
    · exact Bool.false_ne_true (hba.symm.trans (hf.isAncestorOf_iff.2 h))
  fold_preorder step start := walkPreorderWithin_eq step _ start root
  fold_postorder step start := walkPostorderWithin_eq step _ start root
  collect_preorder keep image :=
    (walkPreorderWithin_eq _ _ _ root).trans (foldl_takeUp _ keep image [])
  collect_postorder keep image :=
    (walkPostorderWithin_eq _ _ _ root).trans (foldl_takeUp _ keep image [])
  select_eq kinds keep := List.map_id _

/-- In the document with a block quote, the quote comes before its paragraph and then after it, and
both come before the last paragraph. -/
theorem inOrder_quoteBetween : quoteBetween.WellFormed ∧ quoteBetween.InOrder 4 ∧
    quoteBetween.preorder 4 = [4, 2, 1, 0, 3] ∧ quoteBetween.postorder 4 = [2, 0, 1, 3, 4] :=
  ⟨wellFormed_quoteBetween, inOrder_of_wellFormed wellFormed_quoteBetween 4, by decide, by decide⟩

end MarkdownTree.Forest
