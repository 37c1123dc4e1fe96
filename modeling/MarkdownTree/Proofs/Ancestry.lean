import Mathlib.Data.List.Nodup
import Mathlib.Data.List.Perm.Subperm
import MarkdownTree.Forest.WellFormed

/-!
The order that the parent links put on the nodes of a well-formed forest. A lineage is as long as
the number of nodes at most, so the bound in its definition never cuts it off; the same holds of
every recursion down the children, which is why a bound of one more than the size of the forest
reaches everything.
-/

namespace MarkdownTree.Forest

variable {f : Forest} {a b c m n p : NodeId}

/-- `AtOrAbove f a n` says that `a` is `n` or an ancestor of it. -/
def AtOrAbove (f : Forest) (a n : NodeId) : Prop :=
  a = n ∨ f.Ancestor a n

theorem AtOrAbove.refl (f : Forest) (n : NodeId) : f.AtOrAbove n n :=
  Or.inl rfl

theorem Ancestor.atOrAbove (h : f.Ancestor a n) : f.AtOrAbove a n :=
  Or.inr h

theorem ancestor_iff_parent :
    f.Ancestor a n ↔ ∃ p, f.parent? n = some p ∧ f.AtOrAbove a p := by
  constructor
  · intro h
    cases h with
    | parent hp => exact ⟨a, hp, .refl f a⟩
    | above hp ha => exact ⟨_, hp, ha.atOrAbove⟩
  · rintro ⟨p, hp, rfl | ha⟩
    · exact .parent hp
    · exact .above hp ha

theorem Ancestor.trans (hab : f.Ancestor a b) (hbc : f.Ancestor b c) : f.Ancestor a c := by
  induction hbc with
  | parent hp => exact .above hp hab
  | above hp _ ih => exact .above hp ih

theorem AtOrAbove.trans_ancestor (hab : f.AtOrAbove a b) (hbc : f.Ancestor b c) :
    f.Ancestor a c := by
  rcases hab with rfl | hab
  · exact hbc
  · exact hab.trans hbc

theorem Ancestor.trans_atOrAbove (hab : f.Ancestor a b) (hbc : f.AtOrAbove b c) :
    f.Ancestor a c := by
  rcases hbc with rfl | hbc
  · exact hab
  · exact hab.trans hbc

theorem AtOrAbove.trans (hab : f.AtOrAbove a b) (hbc : f.AtOrAbove b c) : f.AtOrAbove a c := by
  rcases hbc with rfl | hbc
  · exact hab
  · exact (hab.trans_ancestor hbc).atOrAbove

theorem Ancestor.lt_size (h : f.Ancestor a n) : n < f.size := by
  cases h with
  | parent hp => exact lt_size_of_parent? hp
  | above hp _ => exact lt_size_of_parent? hp

theorem AtOrAbove.lt_size (h : f.AtOrAbove a n) (ha : a < f.size) : n < f.size := by
  rcases h with rfl | h
  · exact ha
  · exact h.lt_size

/-- Two nodes over a third one are over one another. -/
theorem AtOrAbove.linear (ha : f.AtOrAbove a n) (hb : f.AtOrAbove b n) :
    f.AtOrAbove a b ∨ f.AtOrAbove b a := by
  rcases ha with rfl | ha
  · exact Or.inr hb
  -- Going up from the lower node, both meet the same parents.
  · induction ha with
    | parent hp =>
        rcases hb with rfl | hb
        · exact Or.inl (Ancestor.parent hp).atOrAbove
        · obtain ⟨q, hq, hbq⟩ := ancestor_iff_parent.1 hb
          rw [hp] at hq
          cases hq
          exact Or.inr hbq
    | above hp ha ih =>
        rcases hb with rfl | hb
        · exact Or.inl (Ancestor.above hp ha).atOrAbove
        · obtain ⟨q, hq, hbq⟩ := ancestor_iff_parent.1 hb
          rw [hp] at hq
          cases hq
          exact ih hbq

/-- A way up along nodes whose parents stay is the same after a change. -/
theorem ancestor_iff_of_parent?_eq {g : Forest}
    (hparent : ∀ n, f.AtOrAbove n p → g.parent? n = f.parent? n) (hn : f.AtOrAbove n p) :
    g.Ancestor a n ↔ f.Ancestor a n := by
  constructor
  · intro ha
    induction ha with
    | parent hq => exact .parent (by rw [← hparent _ hn]; exact hq)
    | @above n q hq _ ih =>
        rw [hparent n hn] at hq
        have hqn : f.Ancestor q n := .parent hq
        exact .above hq (ih (hqn.trans_atOrAbove hn).atOrAbove)
  · intro ha
    induction ha with
    | parent hq => exact .parent (by rw [hparent _ hn]; exact hq)
    | @above n q hq _ ih =>
        have hqn : f.Ancestor q n := .parent hq
        rw [← hparent n hn] at hq
        exact .above hq (ih (hqn.trans_atOrAbove hn).atOrAbove)

namespace WellFormed

variable (hf : f.WellFormed)

include hf

theorem parent?_of_mem (h : c ∈ f.children p) : f.parent? c = some p :=
  (hf.mem_children_iff p c).1 h

theorem mem_of_parent? (h : f.parent? c = some p) : c ∈ f.children p :=
  (hf.mem_children_iff p c).2 h

theorem lt_size_of_mem (h : c ∈ f.children p) : c < f.size :=
  lt_size_of_parent? (hf.parent?_of_mem h)

theorem ancestor_of_mem (h : c ∈ f.children p) : f.Ancestor p c :=
  .parent (hf.parent?_of_mem h)

theorem parent_unique {q : NodeId} (hp : c ∈ f.children p) (hq : c ∈ f.children q) : p = q := by
  have h := hf.parent?_of_mem hp
  rw [hf.parent?_of_mem hq] at h
  exact (Option.some.inj h).symm

/-- A child splits the list that it is in at one place only. -/
theorem not_mem_of_split {before after : List NodeId} (h : f.children p = before ++ c :: after) :
    c ∉ before ∧ c ∉ after := by
  have hnodup := hf.nodup_children p
  rw [h, List.nodup_middle, List.nodup_cons, List.mem_append, not_or] at hnodup
  exact hnodup.1

theorem ancestor_lt_size (h : f.Ancestor a n) : a < f.size := by
  induction h with
  | parent hp => exact lt_size_of_mem_children (hf.mem_of_parent? hp)
  | above _ _ ih => exact ih

theorem atOrAbove_lt_size (h : f.AtOrAbove a n) (hn : n < f.size) : a < f.size := by
  rcases h with rfl | h
  · exact hn
  · exact hf.ancestor_lt_size h

/-- A node that is over a child of `p` but not the child is over `p`. -/
theorem atOrAbove_of_mem (h : c ∈ f.children p) (ha : f.AtOrAbove a c) :
    a = c ∨ f.AtOrAbove a p := by
  rcases ha with rfl | ha
  · exact Or.inl rfl
  · obtain ⟨q, hq, haq⟩ := ancestor_iff_parent.1 ha
    rw [hf.parent?_of_mem h] at hq
    cases hq
    exact Or.inr haq

/-- A child is not over a node over its parent. -/
theorem not_atOrAbove_of_mem (h : c ∈ f.children p) (hm : f.AtOrAbove m p) :
    ¬ f.AtOrAbove c m := by
  intro hcm
  exact hf.not_ancestor_self c ((hcm.trans hm).trans_ancestor (hf.ancestor_of_mem h))

/-- What lies below a node lies below one of its children. -/
theorem exists_mem_of_ancestor (h : f.Ancestor a n) : ∃ c ∈ f.children a, f.AtOrAbove c n := by
  induction h with
  | parent hp => exact ⟨_, hf.mem_of_parent? hp, .refl f _⟩
  | above hp _ ih =>
      obtain ⟨c, hc, hcn⟩ := ih
      exact ⟨c, hc, (hcn.trans_ancestor (.parent hp)).atOrAbove⟩

omit hf in
theorem atOrAbove_of_mem_lineageWithin {fuel : Nat} (h : a ∈ f.lineageWithin fuel n) :
    f.AtOrAbove a n := by
  induction fuel generalizing n with
  | zero => simp [lineageWithin] at h
  | succ fuel ih =>
      rw [lineageWithin] at h
      rcases List.mem_cons.1 h with rfl | h
      · exact .refl f a
      · cases hp : f.parent? n with
        | none => simp [hp] at h
        | some p =>
            simp only [hp] at h
            exact ((ih h).trans_ancestor (.parent hp)).atOrAbove

theorem nodup_lineageWithin (fuel : Nat) (n : NodeId) : (f.lineageWithin fuel n).Nodup := by
  induction fuel generalizing n with
  | zero => simp [lineageWithin]
  | succ fuel ih =>
      rw [lineageWithin]
      cases hp : f.parent? n with
      | none => simp
      | some p =>
          refine List.nodup_cons.2 ⟨fun hn => ?_, ih p⟩
          have hnp : f.AtOrAbove n p := atOrAbove_of_mem_lineageWithin hn
          exact hf.not_ancestor_self n (hnp.trans_ancestor (.parent hp))

theorem length_lineageWithin_le (hn : n < f.size) (fuel : Nat) :
    (f.lineageWithin fuel n).length ≤ f.size := by
  have hsub : f.lineageWithin fuel n ⊆ List.range f.size := by
    intro a ha
    exact List.mem_range.2 (hf.atOrAbove_lt_size (atOrAbove_of_mem_lineageWithin ha) hn)
  have h := (List.subperm_of_subset (hf.nodup_lineageWithin fuel n) hsub).length_le
  simpa using h

omit hf in
/-- A lineage that leaves fuel is not cut off. -/
theorem lineageWithin_succ {fuel : Nat} (h : (f.lineageWithin (fuel + 1) n).length ≤ fuel) :
    f.lineageWithin (fuel + 1) n = f.lineageWithin fuel n := by
  induction fuel generalizing n with
  | zero => simp [lineageWithin] at h
  | succ fuel ih =>
      rw [lineageWithin, lineageWithin]
      rw [lineageWithin] at h
      cases hp : f.parent? n with
      | none => rfl
      | some p =>
          simp only [hp, List.length_cons] at h
          simp only [ih (Nat.le_of_succ_le_succ h)]

theorem length_lineage_le (hn : n < f.size) : (f.lineage n).length ≤ f.size :=
  hf.length_lineageWithin_le hn _

theorem lineage_eq (n : NodeId) :
    f.lineage n = n :: match f.parent? n with
      | some p => f.lineage p
      | none => [] := by
  rw [lineage, lineageWithin]
  cases hp : f.parent? n with
  | none => rfl
  | some p =>
      have hps : p < f.size := lt_size_of_mem_children (hf.mem_of_parent? hp)
      simp only [lineage]
      rw [lineageWithin_succ (hf.length_lineageWithin_le hps _)]

theorem mem_lineage_iff : a ∈ f.lineage n ↔ f.AtOrAbove a n := by
  refine ⟨atOrAbove_of_mem_lineageWithin, fun h => ?_⟩
  rcases h with rfl | h
  · rw [hf.lineage_eq]
    exact List.mem_cons_self
  · induction h with
    | parent hp =>
        rw [hf.lineage_eq, hp]
        refine List.mem_cons_of_mem _ ?_
        change a ∈ f.lineage a
        rw [hf.lineage_eq a]
        exact List.mem_cons_self
    | above hp _ ih =>
        rw [hf.lineage_eq, hp]
        exact List.mem_cons_of_mem _ ih

/-- The test that an attachment makes sees every ancestor. -/
theorem isAncestorOf_iff : f.isAncestorOf a n = true ↔ f.AtOrAbove a n := by
  rw [isAncestorOf, List.contains_iff_mem]
  exact hf.mem_lineage_iff

theorem length_lineage_of_mem (h : c ∈ f.children p) :
    (f.lineage c).length = (f.lineage p).length + 1 := by
  rw [hf.lineage_eq c, hf.parent?_of_mem h, List.length_cons]

/-- What holds of a node as soon as it holds of its children holds of all nodes. -/
theorem down_induction {P : NodeId → Prop} (h : ∀ n, (∀ c ∈ f.children n, P c) → P n)
    (n : NodeId) : P n := by
  generalize hk : f.size - (f.lineage n).length = k
  induction k using Nat.strongRecOn generalizing n with
  | ind k ih =>
      refine h n fun c hc => ih _ ?_ c rfl
      have hlen := hf.length_lineage_of_mem hc
      have hle := hf.length_lineage_le (hf.lt_size_of_mem hc)
      omega

end WellFormed

/-- Whether a depth is enough for a recursion from `n` down: no child is met at depth zero. -/
def EnoughFor (f : Forest) (n : NodeId) (depth : Nat) : Prop :=
  0 < depth ∧ f.size < (f.lineage n).length + depth

theorem EnoughFor.size_succ (f : Forest) (n : NodeId) : f.EnoughFor n (f.size + 1) :=
  ⟨Nat.succ_pos _, by omega⟩

theorem EnoughFor.child (hf : f.WellFormed) (hc : c ∈ f.children n) {depth : Nat}
    (h : f.EnoughFor n (depth + 1)) : f.EnoughFor c depth := by
  have hlen := hf.length_lineage_of_mem hc
  have hle := hf.length_lineage_le (hf.lt_size_of_mem hc)
  have hn := h.2
  exact ⟨by omega, by omega⟩

section
variable {α : Type} {within : Nat → NodeId → α} {depth depth' : Nat}

/-- A value that is made of the values at the children, down to a depth, is the same for all depths
that are enough. -/
theorem eq_of_enoughFor (hf : f.WellFormed)
    (hmade : ∀ depth depth' n, (∀ c ∈ f.children n, within depth c = within depth' c) →
      within (depth + 1) n = within (depth' + 1) n)
    (hd : f.EnoughFor n depth) (hd' : f.EnoughFor n depth') :
    within depth n = within depth' n := by
  induction depth generalizing n depth' with
  | zero => exact absurd hd.1 (Nat.lt_irrefl 0)
  | succ depth ih =>
      cases depth' with
      | zero => exact absurd hd'.1 (Nat.lt_irrefl 0)
      | succ depth' => exact hmade depth depth' n fun c hc => ih (hd.child hf hc) (hd'.child hf hc)

/-- What is found at a child with the depth that is left there is all that is found there. -/
theorem eq_at_child (hf : f.WellFormed)
    (hmade : ∀ depth depth' n, (∀ c ∈ f.children n, within depth c = within depth' c) →
      within (depth + 1) n = within (depth' + 1) n)
    (hc : c ∈ f.children n) : within f.size c = within (f.size + 1) c :=
  eq_of_enoughFor hf hmade ((EnoughFor.size_succ f n).child hf hc) (.size_succ f c)

end

end MarkdownTree.Forest
