import MarkdownTree.Proofs.MatchingCopies
import MarkdownTree.Proofs.RenamedPasses
import MarkdownTree.Proofs.TabBlocks

/-!
The nodes of a tree and those of its copy, in pairs. Two nodes are counterparts if the same steps to
children lead to them from both roots. In well-formed forests no node has two of them, so that a
tree and its copy are one part under different numbers.
-/

namespace MarkdownTree.Forest

variable {T : NodeId → Prop} {r : NodeId → NodeId} {f g h : Forest} {a b c m n p root : NodeId}
  {i : Nat}

theorem AtOrAbove.child (hf : f.WellFormed) (hn : f.AtOrAbove root n) (ha : a ∈ f.children n) :
    f.AtOrAbove root a :=
  (hn.trans_ancestor (hf.ancestor_of_mem ha)).atOrAbove

/-- Only the root of a tree has a parent outside the tree, if it has one at all. -/
theorem AtOrAbove.parent (hn : f.AtOrAbove root n) (hroot : f.parent? root = none)
    (hp : f.parent? n = some p) : f.AtOrAbove root p := by
  rcases hn with rfl | hn
  · rw [hroot] at hp
    cases hp
  · obtain ⟨q, hq, hover⟩ := ancestor_iff_parent.1 hn
    rw [hp] at hq
    cases hq
    exact hover

/-- The same steps to children lead from `root` to `n` in `f` and from `c` to `m` in `g`. -/
inductive Counterpart (f g : Forest) (root c : NodeId) : NodeId → NodeId → Prop
  | root : Counterpart f g root c root c
  | child {n m a b : NodeId} {i : Nat} (hnm : Counterpart f g root c n m)
      (ha : (f.children n)[i]? = some a) (hb : (g.children m)[i]? = some b) :
      Counterpart f g root c a b

namespace Counterpart

theorem symm (h : Counterpart f g root c n m) : Counterpart g f c root m n := by
  induction h with
  | root => exact .root
  | child _ ha hb ih => exact .child ih hb ha

theorem atOrAbove (hf : f.WellFormed) (h : Counterpart f g root c n m) : f.AtOrAbove root n := by
  induction h with
  | root => exact .refl f root
  | child _ ha _ ih => exact ih.child hf (List.mem_of_getElem? ha)

/-- A node has one counterpart at most. -/
theorem unique (hf : f.WellFormed) (h : Counterpart f g root c n m) {m' : NodeId}
    (h' : Counterpart f g root c n m') : m' = m := by
  have hroot {q k : NodeId} {j : Nat} (hqk : Counterpart f g root c q k) :
      (f.children q)[j]? ≠ some root := fun hj =>
    hf.not_atOrAbove_of_mem (List.mem_of_getElem? hj) (hqk.atOrAbove hf) (.refl f root)
  induction h generalizing m' with
  | root =>
      cases h' with
      | root => rfl
      | child hqk ha _ => exact absurd ha (hroot hqk)
  | @child q k a b i habove ha hb ih =>
      cases h' with
      | root => exact absurd ha (hroot habove)
      | @child q' k' _ _ i' hqk ha' hb' =>
          -- A child has one parent, and one place among its children.
          have hparent := hf.parent?_of_mem (List.mem_of_getElem? ha)
          rw [hf.parent?_of_mem (List.mem_of_getElem? ha'), Option.some_inj] at hparent
          subst hparent
          obtain rfl := ih hqk
          have hlt := (List.getElem?_eq_some_iff.1 ha).1
          obtain rfl : i = i' := (List.getElem?_inj hlt (hf.nodup_children q')).1
            (ha.trans ha'.symm)
          rw [hb, Option.some_inj] at hb'
          exact hb'.symm

/-- Where all children are the same, nodes are their own counterparts. -/
theorem eq_of_children_eq (hchildren : ∀ n, g.children n = f.children n)
    (h : Counterpart f g root root n m) : m = n := by
  induction h with
  | root => rfl
  | child _ ha hb ih =>
      subst ih
      rw [hchildren, ha, Option.some_inj] at hb
      exact hb.symm

end Counterpart

/-- Matching trees have matching trees at corresponding places. -/
theorem Matches.child (hmatch : f.Matches g n m) (ha : (f.children n)[i]? = some a) :
    ∃ b, (g.children m)[i]? = some b ∧ f.Matches g a b := by
  have hall (depth : Nat) : List.Forall₂ (f.MatchesWithin g depth) (f.children n) (g.children m) :=
    (hmatch (depth + 1)).2.2
  obtain ⟨hi, rfl⟩ := List.getElem?_eq_some_iff.1 ha
  have hi' : i < (g.children m).length := by rwa [← (hall 0).length_eq]
  exact ⟨(g.children m)[i], List.getElem?_eq_getElem hi', fun depth =>
    (List.forall₂_iff_get.1 (hall depth)).2 i hi hi'⟩

/-- Every node of a tree has a counterpart in a tree that matches, and the trees below match. -/
theorem exists_counterpart (hf : f.WellFormed) (hmatch : f.Matches g root c)
    (hn : f.AtOrAbove root n) : ∃ m, Counterpart f g root c n m ∧ f.Matches g n m := by
  have hstep {n p : NodeId} (hp : f.parent? n = some p)
      (h : ∃ m, Counterpart f g root c p m ∧ f.Matches g p m) :
      ∃ m, Counterpart f g root c n m ∧ f.Matches g n m := by
    obtain ⟨k, hpk, hmatch⟩ := h
    obtain ⟨i, hi⟩ := List.getElem?_of_mem (hf.mem_of_parent? hp)
    obtain ⟨b, hb, hab⟩ := hmatch.child hi
    exact ⟨b, .child hpk hi hb, hab⟩
  rcases hn with rfl | hn
  · exact ⟨c, .root, hmatch⟩
  · induction hn with
    | parent hp => exact hstep hp ⟨c, .root, hmatch⟩
    | above hp _ ih => exact hstep hp ih

/-- A node of a tree is the same under another number: it has the same data, and its links lead to
the nodes with the new numbers. -/
structure SameUnder (r : NodeId → NodeId) (f g : Forest) (n : NodeId) : Prop where
  lt_size : r n < g.size
  children_eq : g.children (r n) = (f.children n).map r
  parent?_eq : g.parent? (r n) = (f.parent? n).map r
  element_eq : g.element (r n) = f.element n
  metadata_eq : g.metadata (r n) = f.metadata n

/-- A tree from a root on is a part of its own. -/
theorem renamed_tree (hf : f.WellFormed) (hg : g.WellFormed) (hroot : f.parent? root = none)
    (hT : ∀ n < f.size, T n ↔ f.AtOrAbove root n) (hplain : ∀ n, f.AtOrAbove root n → f.PlainAt n)
    (hsame : ∀ n, f.AtOrAbove root n → SameUnder r f g n) : Renamed T r f g := by
  have hbelow {n : NodeId} (hn : f.Has T n) : f.AtOrAbove root n := (hT n hn.2).1 hn.1
  refine ⟨hf, hg, fun n hn => (hsame n (hbelow hn)).lt_size,
    fun n hn => (hsame n (hbelow hn)).children_eq, fun n hn => (hsame n (hbelow hn)).parent?_eq,
    fun n hn => (hsame n (hbelow hn)).element_eq, fun n hn => (hsame n (hbelow hn)).metadata_eq,
    fun n hn => hplain n (hbelow hn), fun n k hn hk => ?_, fun n p hn hp => ?_⟩
  · exact (hT k (hf.lt_size_of_mem hk)).2 ((hbelow hn).child hf hk)
  · exact (hT p (lt_size_of_mem_children (hf.mem_of_parent? hp))).2 ((hbelow hn).parent hroot hp)

/-- Nodes that existed keep their numbers, and those that come next are the next ones. -/
def moveNew (f g : Forest) (n : NodeId) : NodeId :=
  if n < f.size then n else g.size + (n - f.size)

theorem moveNew_of_lt (hn : n < f.size) : moveNew f g n = n :=
  if_pos hn

theorem moveNew_size_add (f g : Forest) (i : Nat) : moveNew f g (f.size + i) = g.size + i := by
  rw [moveNew, if_neg (Nat.not_lt.2 (Nat.le_add_right _ i)), Nat.add_sub_cancel_left]

theorem le_moveNew (hn : f.size ≤ n) : g.size ≤ moveNew f g n := by
  rw [moveNew, if_neg (Nat.not_lt.2 hn)]
  exact Nat.le_add_right _ _

theorem moveNew_injective (hle : f.size ≤ g.size) : Function.Injective (moveNew f g) := by
  intro m n heq
  rcases Nat.lt_or_ge m f.size with hm | hm <;> rcases Nat.lt_or_ge n f.size with hn | hn
  · rwa [moveNew_of_lt hm, moveNew_of_lt hn] at heq
  · rw [moveNew_of_lt hm] at heq
    exact absurd (heq ▸ le_moveNew hn) (Nat.not_le.2 (Nat.lt_of_lt_of_le hm hle))
  · rw [moveNew_of_lt hn] at heq
    exact absurd (heq ▸ le_moveNew hm) (Nat.not_le.2 (Nat.lt_of_lt_of_le hn hle))
  · obtain ⟨i, rfl⟩ := Nat.exists_eq_add_of_le hm
    obtain ⟨j, rfl⟩ := Nat.exists_eq_add_of_le hn
    rw [moveNew_size_add, moveNew_size_add, Nat.add_left_cancel_iff] at heq
    rw [heq]

/-- The part of a tree, with all nodes that are new. -/
def TreeOrNew (f : Forest) (root n : NodeId) : Prop :=
  f.AtOrAbove root n ∨ f.size ≤ n

theorem treeOrNew_iff (hn : n < f.size) : f.TreeOrNew root n ↔ f.AtOrAbove root n :=
  or_iff_left (Nat.not_le.2 hn)

/-- A tree is the same in a forest that has everything that was there, and more. -/
theorem twin_within (hf : f.WellFormed) (hg : g.WellFormed) (hfg : f.Within g) (hlt : root < f.size)
    (hroot : f.parent? root = none) (hplain : ∀ n, f.AtOrAbove root n → f.PlainAt n) :
    Twin (f.TreeOrNew root) (moveNew f g) f g := by
  refine ⟨renamed_tree hf hg hroot (fun n hn => treeOrNew_iff hn) hplain fun n hn => ?_,
    fun i => Or.inr (Nat.le_add_right _ i), moveNew_size_add f g⟩
  have hn := hn.lt_size hlt
  have hself : moveNew f g n = n := moveNew_of_lt hn
  refine ⟨?_, ?_, ?_, ?_, ?_⟩
  · rw [hself]
    exact Nat.lt_of_lt_of_le hn hfg.size_le
  · rw [hself, hfg.children_eq hn,
      List.map_congr_left fun c hc => moveNew_of_lt (hf.lt_size_of_mem hc), List.map_id']
  · rw [hself, hfg.parent?_eq hn]
    cases hp : f.parent? n with
    | none => rfl
    | some p =>
        rw [Option.map_some, moveNew_of_lt (lt_size_of_mem_children (hf.mem_of_parent? hp))]
  · rw [hself, hfg.element_eq hf hn]
  · rw [hself, hfg.metadata_eq hf hn]

/-- Takes the nodes of a tree elsewhere, and new nodes to new ones. -/
def relocate (f g : Forest) (root : NodeId) (copy : NodeId → NodeId) (n : NodeId) : NodeId :=
  if f.isAncestorOf root n then copy n else moveNew f g n

section
variable {copy : NodeId → NodeId} (hf : f.WellFormed)

include hf

theorem relocate_of_atOrAbove (hn : f.AtOrAbove root n) : relocate f g root copy n = copy n :=
  if_pos (hf.isAncestorOf_iff.2 hn)

theorem relocate_of_not (hn : ¬ f.AtOrAbove root n) : relocate f g root copy n = moveNew f g n :=
  if_neg (mt hf.isAncestorOf_iff.1 hn)

theorem relocate_size_add (hlt : root < f.size) (i : Nat) :
    relocate f g root copy (f.size + i) = g.size + i := by
  have hno : ¬ f.AtOrAbove root (f.size + i) := fun hover =>
    absurd (hover.lt_size hlt) (Nat.not_lt.2 (Nat.le_add_right _ i))
  rw [relocate_of_not hf hno, moveNew_size_add]

/-- No number is taken twice, if those of the tree are taken to different new ones. -/
theorem relocate_injective (hle : f.size ≤ g.size)
    (hcopy : ∀ n, f.AtOrAbove root n → f.size ≤ copy n ∧ copy n < g.size)
    (hinj : ∀ m n, f.AtOrAbove root m → f.AtOrAbove root n → copy m = copy n → m = n) :
    Function.Injective (relocate f g root copy) := by
  have hapart {m n : NodeId} (hm : f.AtOrAbove root m) : copy m ≠ moveNew f g n := by
    obtain ⟨hge, hlt⟩ := hcopy m hm
    rcases Nat.lt_or_ge n f.size with hn | hn
    · rw [moveNew_of_lt hn]
      exact Nat.ne_of_gt (Nat.lt_of_lt_of_le hn hge)
    · exact Nat.ne_of_lt (Nat.lt_of_lt_of_le hlt (le_moveNew hn))
  intro m n heq
  by_cases hm : f.AtOrAbove root m <;> by_cases hn : f.AtOrAbove root n
  · rw [relocate_of_atOrAbove hf hm, relocate_of_atOrAbove hf hn] at heq
    exact hinj m n hm hn heq
  · rw [relocate_of_atOrAbove hf hm, relocate_of_not hf hn] at heq
    exact absurd heq (hapart hm)
  · rw [relocate_of_not hf hm, relocate_of_atOrAbove hf hn] at heq
    exact absurd heq.symm (hapart hn)
  · rw [relocate_of_not hf hm, relocate_of_not hf hn] at heq
    exact moveNew_injective hle heq

end

/-- The counterparts of a tree in its copy are all different, and have the same data and the
corresponding links. -/
theorem CopyOf.exists_counterparts (hf : f.WellFormed) (hroot : f.parent? root = none)
    (hplain : ∀ n, f.AtOrAbove root n → f.PlainAt n) (h : f.CopyOf g root c) :
    ∃ copy : NodeId → NodeId, copy root = c ∧
      (∀ n, f.AtOrAbove root n → f.size ≤ copy n ∧ copy n < g.size) ∧
      (∀ m n, f.AtOrAbove root m → f.AtOrAbove root n → copy m = copy n → m = n) ∧
      ∀ n, f.AtOrAbove root n → SameUnder copy f g n := by
  have hall (n : NodeId) : ∃ m, f.AtOrAbove root n → Counterpart f g root c n m ∧
    f.Matches g n m := by
    by_cases hn : f.AtOrAbove root n
    · obtain ⟨m, hm⟩ := exists_counterpart hf h.matched hn
      exact ⟨m, fun _ => hm⟩
    · exact ⟨n, fun hover => absurd hover hn⟩
  -- A node that is not in the tree has no counterpart; any number will do for it.
  choose copy hcopy using hall
  have hnew (n : NodeId) (hn : f.AtOrAbove root n) : f.size ≤ copy n ∧ copy n < g.size := by
    have hover := (hcopy n hn).1.symm.atOrAbove h.wellFormed
    exact ⟨h.enclosed.within.le_of_atOrAbove hf h.le hover, hover.lt_size h.lt_size⟩
  have hroot' : copy root = c := (hcopy root (.refl f root)).1.unique hf .root |>.symm
  have hchildren (n : NodeId) (hn : f.AtOrAbove root n) :
      g.children (copy n) = (f.children n).map copy := by
    obtain ⟨hpair, hmatch⟩ := hcopy n hn
    refine List.ext_getElem? fun i => ?_
    rw [List.getElem?_map]
    cases ha : (f.children n)[i]? with
    | none =>
        have hlength := (hmatch 1).2.2.length_eq
        rw [List.getElem?_eq_none_iff] at ha
        exact List.getElem?_eq_none (hlength ▸ ha)
    | some a =>
        obtain ⟨b, hb, -⟩ := hmatch.child ha
        have hself := (hcopy a (hn.child hf (List.mem_of_getElem? ha))).1
        rw [hb, Option.map_some, (hpair.child ha hb).unique hf hself]
  refine ⟨copy, hroot', hnew, fun m n hm hn heq => ?_,
    fun n hn => ⟨(hnew n hn).2, hchildren n hn, ?_,
    ((hcopy n hn).2 1).1, ((hcopy n hn).2 1).2.1 (hplain n hn).metadata.noNodes⟩⟩
  · have hfirst := (hcopy m hm).1.symm
    rw [heq] at hfirst
    exact (hcopy n hn).1.symm.unique h.wellFormed hfirst
  · rcases hn with rfl | hn
    · rw [hroot', h.isRoot, hroot]
      rfl
    · obtain ⟨p, hp, hover⟩ := ancestor_iff_parent.1 hn
      have hmem : copy n ∈ g.children (copy p) := by
        rw [hchildren p hover]
        exact List.mem_map_of_mem (hf.mem_of_parent? hp)
      rw [h.wellFormed.parent?_of_mem hmem, hp, Option.map_some]

/-- A tree and its copy are one part under different numbers, and new nodes belong to both. -/
theorem CopyOf.exists_twin (hf : f.WellFormed) (hlt : root < f.size) (hroot : f.parent? root = none)
    (hplain : ∀ n, f.AtOrAbove root n → f.PlainAt n) (h : f.CopyOf g root c) :
    ∃ r, Function.Injective r ∧ r root = c ∧
      (∀ n, f.AtOrAbove root n → f.size ≤ r n ∧ SameUnder r f g n) ∧
      (∀ n, f.size ≤ n → f.size ≤ r n) ∧ Twin (f.TreeOrNew root) r f g := by
  obtain ⟨copy, hcroot, hnew, hinj, hsame⟩ := h.exists_counterparts hf hroot hplain
  have hself {n : NodeId} (hn : f.AtOrAbove root n) : relocate f g root copy n = copy n :=
    relocate_of_atOrAbove hf hn
  have hunder (n : NodeId) (hn : f.AtOrAbove root n) :
    SameUnder (relocate f g root copy) f g n := by
    obtain ⟨hlt, hchildren, hparent, helement, hmetadata⟩ := hsame n hn
    refine ⟨?_, ?_, ?_, ?_, ?_⟩ <;> rw [hself hn]
    · exact hlt
    · rw [hchildren, List.map_congr_left fun a ha => (hself (hn.child hf ha)).symm]
    · rw [hparent]
      cases hp : f.parent? n with
      | none => rfl
      | some p => rw [Option.map_some, Option.map_some, hself (hn.parent hroot hp)]
    · exact helement
    · exact hmetadata
  refine ⟨relocate f g root copy, relocate_injective hf h.enclosed.within.size_le hnew hinj, ?_,
    fun n hn => ⟨?_, hunder n hn⟩, fun n hn => ?_, ?_, fun i => Or.inr (Nat.le_add_right _ i),
    relocate_size_add hf hlt⟩
  · rw [hself (.refl f root), hcroot]
  · rw [hself hn]
    exact (hnew n hn).1
  · obtain ⟨i, rfl⟩ := Nat.exists_eq_add_of_le hn
    rw [relocate_size_add hf hlt]
    exact Nat.le_trans h.enclosed.within.size_le (Nat.le_add_right _ i)
  · exact renamed_tree hf h.wellFormed hroot (fun n hn => treeOrNew_iff hn) hplain hunder

end MarkdownTree.Forest
