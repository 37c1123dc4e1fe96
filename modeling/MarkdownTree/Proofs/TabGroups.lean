import Mathlib.Data.List.Induction
import MarkdownTree.Proofs.StashRuns

/-!
The groups of the tabs of a document. In document order each tab joins the tab just before it if
that comes from the sibling before, and makes a group of its own otherwise. So the groups are the
runs of adjacent tabs admonitions, numbered in document order, and the first tab of each is the
checked one.
-/

namespace MarkdownTree.Tabs.Stash

open Forest

variable {f g : Forest} {a b m n p q root : NodeId} {category : Value} {grouped : Bool}
  {t u v : Tab}
  {tabs before after : List Tab} {front run back : List NodeId}

/-- A list without repetition splits at an entry in one way only. -/
theorem append_cons_inj_of_nodup {α : Type} {x : α} {left left' right right' : List α}
    (hnodup : (left ++ x :: right).Nodup) (heq : left ++ x :: right = left' ++ x :: right') :
    left = left' ∧ right = right' := by
  rw [List.nodup_middle, List.nodup_cons, List.mem_append, not_or] at hnodup
  obtain ⟨hleft, -, hright⟩ := (List.append_cons_inj_of_notMem hnodup.1.1 hnodup.1.2).1 heq
  exact ⟨hleft, hright⟩

/-! ### Siblings in the order of the document -/

/-- Two nodes are in one run of adjacent siblings that are all tabs admonitions, and so in the same
run that cannot be made longer. -/
def SameRun (f : Forest) (category : Value) (a b : NodeId) : Prop :=
  ∃ p front run back, f.children p = front ++ run ++ back ∧ a ∈ run ∧ b ∈ run ∧
    ∀ n ∈ run, isTabs f category n = true

theorem SameRun.symm (h : SameRun f category a b) : SameRun f category b a := by
  obtain ⟨p, front, run, back, hlist, ha, hb, hrun⟩ := h
  exact ⟨p, front, run, back, hlist, hb, ha, hrun⟩

/-- Below a node that is not at or below a tabs admonition, the outermost admonitions of the
children stand together. -/
theorem outermost_eq_append (hf : f.WellFormed) (hp : f.AtOrAbove root p)
    (hover : ∀ a, f.AtOrAbove root a → f.AtOrAbove a p → isTabs f category a = false) :
    ∃ front back, outermost f category root =
      front ++ (f.children p).flatMap (outermost f category) ++ back := by
  induction root using hf.down_induction with
  | h root ih =>
      rw [outermost_of_not hf (hover root (.refl f root) hp)]
      rcases hp with rfl | hp
      · exact ⟨[], [], by simp⟩
      · obtain ⟨c, hc, hcp⟩ := hf.exists_mem_of_ancestor hp
        obtain ⟨front, back, heq⟩ := ih c hc hcp fun a hca hap =>
          hover a ((hf.ancestor_of_mem hc).trans_atOrAbove hca).atOrAbove hap
        obtain ⟨left, right, hlist⟩ := List.append_of_mem hc
        refine ⟨left.flatMap (outermost f category) ++ front,
          back ++ right.flatMap (outermost f category), ?_⟩
        rw [hlist, List.flatMap_append, List.flatMap_cons, heq]
        simp only [List.append_assoc]

theorem flatMap_outermost (hf : f.WellFormed) (hrun : ∀ n ∈ run, isTabs f category n = true) :
    run.flatMap (outermost f category) = run := by
  rw [List.flatMap_congr fun n hn => outermost_of_isTabs hf (hrun n hn)]
  exact List.flatMap_singleton' run

/-- Adjacent tabs admonitions stand together among the outermost ones if one of them is
outermost. -/
theorem outermost_eq_append_run (hf : f.WellFormed) (hn : n ∈ outermost f category root)
    (hroot : n ≠ root) (hlist : f.children p = front ++ run ++ back) (hmem : n ∈ run)
    (hrun : ∀ m ∈ run, isTabs f category m = true) :
    ∃ left right, outermost f category root = left ++ run ++ right := by
  have hnp : n ∈ f.children p := by simp [hlist, hmem]
  obtain ⟨hover, -, hall⟩ := (mem_outermost_iff hf).1 hn
  have hp : f.AtOrAbove root p := (hf.atOrAbove_of_mem hnp hover).resolve_left (Ne.symm hroot)
  obtain ⟨left, right, heq⟩ := outermost_eq_append hf hp fun a hra hap =>
    hall a hra (hap.trans_ancestor (hf.ancestor_of_mem hnp))
  rw [hlist, List.flatMap_append, List.flatMap_append, flatMap_outermost hf hrun] at heq
  refine ⟨left ++ front.flatMap (outermost f category),
    back.flatMap (outermost f category) ++ right, ?_⟩
  rw [heq]
  simp only [List.append_assoc]

/-! ### Tabs in order -/

/-- The last tab of some tabs was given its group after the others. -/
theorem Grouped.at (h : Grouped f grouped (before ++ t :: after)) :
    t.checked = (groupBefore f grouped before t.admonition).isNone ∧
      t.group = (groupBefore f grouped before t.admonition).getD
        (groupName ((before ++ [t]).countP (·.checked))) := by
  generalize hall : before ++ t :: after = all at h
  induction h generalizing after with
  | nil => simp at hall
  | @snoc tabs u _ hchecked hgroup ih =>
      rcases List.eq_nil_or_concat after with rfl | ⟨after, v, rfl⟩
      · obtain ⟨rfl, hlast⟩ := List.append_inj' hall rfl
        cases hlast
        exact ⟨hchecked, hgroup⟩
      · rw [List.concat_eq_append, ← List.cons_append, ← List.append_assoc] at hall
        exact ih (List.append_inj' hall rfl).1

/-- The tabs of a tree without groups from before: they come from the outermost admonitions in
document order, and were given their groups in this order. -/
structure Ordered (f : Forest) (category : Value) (grouped : Bool) (root : NodeId)
    (tabs : List Tab) : Prop where
  wellFormed : f.WellFormed
  admonitions_eq : admonitions tabs = outermost f category root
  grouped : Grouped f grouped tabs
  unnamed (n : NodeId) (hn : f.AtOrAbove root n) : (f.metadata n).get? "tab_group" = none
  unnamed_before (q : NodeId) (hq : f.previousSibling root = .ok (some q)) :
    (f.metadata q).get? "tab_group" = none

namespace Ordered

variable (h : Ordered f category grouped root tabs)

include h

theorem nodup : (admonitions tabs).Nodup := by
  rw [h.admonitions_eq]
  exact nodup_outermost h.wellFormed category root

theorem mem_outermost (ht : t ∈ tabs) : t.admonition ∈ outermost f category root := by
  rw [← h.admonitions_eq]
  exact List.mem_map_of_mem ht

theorem isTabs_of_mem (ht : t ∈ tabs) : isTabs f category t.admonition = true :=
  ((mem_outermost_iff h.wellFormed).1 (h.mem_outermost ht)).2.1

theorem eq_of_admonition_eq (ht : t ∈ tabs) (hu : u ∈ tabs) (heq : t.admonition = u.admonition) :
    t = u :=
  List.inj_on_of_nodup_map h.nodup ht hu heq

/-- Only a tree whose root gives way has a tab from its root, and no other tab. -/
theorem eq_singleton_of_root (ht : t ∈ tabs) (hroot : t.admonition = root) : tabs = [t] := by
  have hall := h.admonitions_eq
  rw [← hroot, outermost_of_isTabs h.wellFormed (h.isTabs_of_mem ht)] at hall
  obtain ⟨u, rfl, -⟩ := List.map_eq_singleton_iff.1 hall
  rw [List.mem_singleton.1 ht]

/-- A tab with another one before it does not come from the root. -/
theorem ne_root (hsplit : tabs = before ++ t :: after) (hbefore : before ≠ []) :
    t.admonition ≠ root := by
  intro hroot
  have hlength := congrArg List.length (h.eq_singleton_of_root (by simp [hsplit]) hroot)
  have hpos := List.length_pos_of_ne_nil hbefore
  rw [hsplit, List.length_append, List.length_cons, List.length_singleton] at hlength
  omega

/-- The siblings in a run of tabs admonitions with an outermost one make tabs one after the
other. -/
theorem exists_tabs_of_run (ht : t ∈ tabs) (hroot : t.admonition ≠ root)
    (hlist : f.children p = front ++ run ++ back) (hmem : t.admonition ∈ run)
    (hrun : ∀ m ∈ run, isTabs f category m = true) :
    ∃ before made after, tabs = before ++ made ++ after ∧ admonitions made = run := by
  obtain ⟨left, right, heq⟩ :=
    outermost_eq_append_run h.wellFormed (h.mem_outermost ht) hroot hlist hmem hrun
  rw [← h.admonitions_eq, admonitions, List.map_eq_append_iff] at heq
  obtain ⟨l, after, rfl, hl, -⟩ := heq
  obtain ⟨before, made, rfl, -, hmade⟩ := List.map_eq_append_iff.1 hl
  exact ⟨before, made, after, rfl, hmade⟩

/-- The tab of the sibling before comes just before. -/
theorem exists_last (hsplit : tabs = before ++ t :: after)
    (hq : f.previousSibling t.admonition = .ok (some q)) (htabs : isTabs f category q = true)
    (hroot : t.admonition ≠ root) : ∃ init u, before = init ++ [u] ∧ u.admonition = q := by
  have ht : t ∈ tabs := by simp [hsplit]
  have htabs' := h.isTabs_of_mem ht
  obtain ⟨p, front, back, hlist⟩ := (previousSibling_iff h.wellFormed).1 hq
  have hpair : f.children p = front ++ [q, t.admonition] ++ back := by simpa using hlist
  obtain ⟨left, made, right, heq, hmade⟩ :=
    h.exists_tabs_of_run ht hroot hpair (by simp) (by simp [htabs, htabs'])
  obtain ⟨u, rest, rfl, rfl, hrest⟩ := List.map_eq_cons_iff.1 hmade
  obtain ⟨w, rfl, hw⟩ := List.map_eq_singleton_iff.1 hrest
  obtain rfl : w = t := h.eq_of_admonition_eq (by simp [heq]) ht hw
  have hnodup : (before ++ w :: after).Nodup := hsplit ▸ List.Nodup.of_map _ h.nodup
  have hsame : before ++ w :: after = (left ++ [u]) ++ w :: right := by
    rw [← hsplit, heq]
    simp
  exact ⟨left, u, (append_cons_inj_of_nodup hnodup hsame).1, rfl⟩

/-- The sibling before a tab was in no group at first. -/
theorem unnamed_previous (ht : t ∈ tabs) (hq : f.previousSibling t.admonition = .ok (some q)) :
    (f.metadata q).get? "tab_group" = none := by
  by_cases hroot : t.admonition = root
  · exact h.unnamed_before q (hroot ▸ hq)
  · have hf := h.wellFormed
    obtain ⟨p, front, back, hlist⟩ := (previousSibling_iff hf).1 hq
    have hover := ((mem_outermost_iff hf).1 (h.mem_outermost ht)).1
    have htp : t.admonition ∈ f.children p := by simp [hlist]
    have hqp : q ∈ f.children p := by simp [hlist]
    have hp := (hf.atOrAbove_of_mem htp hover).resolve_left (Ne.symm hroot)
    exact h.unnamed q (hp.trans (hf.ancestor_of_mem hqp).atOrAbove)

omit h in
theorem groupOf_eq (hq : (f.metadata q).get? "tab_group" = none) :
    groupOf f before q = (before.find? (·.admonition == q)).map (·.group) := by
  unfold groupOf
  cases before.find? (·.admonition == q) with
  | none => exact hq
  | some t => rfl

omit h in
theorem exists_of_groupBefore {v : Value} (hv : groupBefore f grouped before n = some v) :
    grouped = true ∧ ∃ q, f.previousSibling n = .ok (some q) ∧ groupOf f before q = some v := by
  unfold groupBefore at hv
  split at hv
  · cases grouped with
    | false => cases hv
    | true => exact ⟨rfl, _, ‹_›, hv⟩
  · cases hv

end Ordered

/-- A tab joins the one just before it, which comes from the sibling before. -/
structure Joins (f : Forest) (before : List Tab) (t : Tab) : Prop where
  last : ∃ init u, before = init ++ [u] ∧
    f.previousSibling t.admonition = .ok (some u.admonition) ∧ t.group = u.group
  checked_eq : t.checked = false

theorem Joins.last_of_ne_nil {run : List Tab} (h : Joins f (before ++ run) t) (hrun : run ≠ []) :
    ∃ init u, run = init ++ [u] ∧ f.previousSibling t.admonition = .ok (some u.admonition) ∧
      t.group = u.group := by
  obtain ⟨init, u, hlast, hprevious, hgroup⟩ := h.last
  obtain ⟨run, v, rfl⟩ := (List.eq_nil_or_concat run).resolve_left hrun
  rw [List.concat_eq_append, ← List.append_assoc] at hlast
  obtain ⟨-, hv⟩ := List.append_inj' hlast rfl
  cases hv
  exact ⟨run, u, List.concat_eq_append, hprevious, hgroup⟩

/-- A tab starts a group, with the next number. -/
structure Starts (f : Forest) (grouped : Bool) (before : List Tab) (t : Tab) : Prop where
  checked_eq : t.checked = true
  group_eq : t.group = groupName ((before ++ [t]).countP (·.checked))
  apart (hgrouped : grouped = true) (u : Tab) (hu : u ∈ before) :
    f.previousSibling t.admonition ≠ .ok (some u.admonition)

namespace Ordered

variable (h : Ordered f category grouped root tabs)

include h

/-- Each tab joins the one before it, or starts a group. -/
theorem joins_or_starts (hsplit : tabs = before ++ t :: after) :
    (grouped = true ∧ Joins f before t) ∨ Starts f grouped before t := by
  have ht : t ∈ tabs := by simp [hsplit]
  have hsub {u : Tab} (hu : u ∈ before) : u ∈ tabs := by simp [hsplit, hu]
  obtain ⟨hchecked, hgroup⟩ := Grouped.at (hsplit ▸ h.grouped)
  cases hjoined : groupBefore f grouped before t.admonition with
  | none =>
      rw [hjoined] at hchecked hgroup
      refine Or.inr ⟨hchecked, hgroup, fun hgrouped u hu hprevious => ?_⟩
      rw [groupBefore, hprevious] at hjoined
      simp only [hgrouped, if_true, groupOf_eq (h.unnamed_previous ht hprevious),
        Option.map_eq_none_iff] at hjoined
      simpa using List.find?_eq_none.1 hjoined u hu
  | some v =>
      rw [hjoined] at hchecked hgroup
      obtain ⟨hgrouped, q, hprevious, hv⟩ := exists_of_groupBefore hjoined
      rw [groupOf_eq (h.unnamed_previous ht hprevious), Option.map_eq_some_iff] at hv
      obtain ⟨w, hfind, rfl⟩ := hv
      have hw := List.mem_of_find?_eq_some hfind
      obtain rfl : w.admonition = q := by simpa using List.find?_some hfind
      -- The sibling before gave way to the block of the tab before.
      obtain ⟨init, u, rfl, hu⟩ := h.exists_last hsplit hprevious (h.isTabs_of_mem (hsub hw))
        (h.ne_root hsplit (List.ne_nil_of_mem hw))
      obtain rfl := h.eq_of_admonition_eq (hsub (by simp)) (hsub hw) hu
      exact Or.inl ⟨hgrouped, ⟨init, u, rfl, hprevious, hgroup⟩, hchecked⟩

end Ordered

/-! ### Numbers -/

theorem countP_snoc_of_joins (hjoins : Joins f before t) :
    (before ++ [t]).countP (·.checked) = before.countP (·.checked) := by
  rw [List.countP_append, List.countP_singleton, hjoins.checked_eq]
  rfl

theorem countP_snoc_of_starts (hstarts : Starts f grouped before t) :
    (before ++ [t]).countP (·.checked) = before.countP (·.checked) + 1 := by
  rw [List.countP_append, List.countP_singleton, hstarts.checked_eq]
  rfl

/-- Of tabs that are checked alike as many are checked. -/
theorem countP_checked_eq {tabs' : List Tab}
    (h : List.Forall₂ (fun t t' => t'.checked = t.checked) tabs tabs') :
    tabs'.countP (·.checked) = tabs.countP (·.checked) := by
  induction h with
  | nil => rfl
  | cons ht _ ih => rw [List.countP_cons, List.countP_cons, ih, ht]

theorem groupName_inj {j k : Nat} (heq : groupName j = groupName k) : j = k := by
  have hrepr : j.repr = k.repr := (String.append_right_inj _).1 (Value.str.inj heq)
  have hdigits := congrArg (Nat.ofDigitChars 10 ·.toList 0) hrepr
  simpa only [Nat.toList_repr, Nat.ofDigitChars_ten_toDigits] using hdigits

namespace Ordered

variable (h : Ordered f category grouped root tabs)

include h

/-- The number of a group says how many groups were started by then. -/
theorem group_eq (hsplit : tabs = before ++ t :: after) :
    t.group = groupName ((before ++ [t]).countP (·.checked)) := by
  induction before using List.reverseRecOn generalizing t after with
  | nil =>
      rcases h.joins_or_starts hsplit with ⟨-, hjoins⟩ | hstarts
      · obtain ⟨init, u, hnil, -⟩ := hjoins.last
        simp at hnil
      · exact hstarts.group_eq
  | append_singleton before u ih =>
      rcases h.joins_or_starts hsplit with ⟨-, hjoins⟩ | hstarts
      · obtain ⟨init, v, hlast, -, hgroup⟩ := hjoins.last
        obtain ⟨-, hv⟩ := List.append_inj' hlast rfl
        cases hv
        rw [countP_snoc_of_joins hjoins, hgroup]
        exact ih (by rw [hsplit, List.append_assoc, List.singleton_append])
      · exact hstarts.group_eq

/-- The groups are numbered from one on, in order. -/
theorem exists_numbers (hsplit : tabs = before ++ after) : ∃ numbers : List Nat,
    before.map (·.group) = numbers.map groupName ∧ numbers.Pairwise (· ≤ ·) ∧
      ∀ k, k ∈ numbers ↔ 1 ≤ k ∧ k ≤ before.countP (·.checked) := by
  induction before using List.reverseRecOn generalizing after with
  | nil => exact ⟨[], rfl, .nil, fun k => by simp; omega⟩
  | append_singleton before t ih =>
      rw [List.append_assoc, List.singleton_append] at hsplit
      obtain ⟨numbers, hgroups, hsorted, hmem⟩ := ih hsplit
      have hgroup := h.group_eq hsplit
      refine ⟨numbers ++ [(before ++ [t]).countP (·.checked)], ?_, ?_, fun k => ?_⟩
      · rw [List.map_append, List.map_append, hgroups, List.map_singleton, List.map_singleton,
          hgroup]
      · refine List.pairwise_append.2 ⟨hsorted, List.pairwise_singleton _ _, fun j hj k hk => ?_⟩
        rw [List.mem_singleton.1 hk, List.countP_append]
        exact Nat.le_trans ((hmem j).1 hj).2 (Nat.le_add_right _ _)
      · rw [List.mem_append, hmem, List.mem_singleton]
        rcases h.joins_or_starts hsplit with ⟨-, hjoins⟩ | hstarts
        · -- The tab before has a number, so there is a group to join.
          obtain ⟨init, u, rfl, -⟩ := hjoins.last
          have hne : numbers ≠ [] := by
            rintro rfl
            simp at hgroups
          obtain ⟨j, hj⟩ := List.exists_mem_of_ne_nil numbers hne
          have hpos := (hmem j).1 hj
          rw [countP_snoc_of_joins hjoins]
          omega
        · rw [countP_snoc_of_starts hstarts]
          omega

/-- The first tab of each group is the one that is checked. -/
theorem checked_iff (hsplit : tabs = before ++ t :: after) :
    t.checked = true ↔ ∀ u ∈ before, u.group ≠ t.group := by
  rcases h.joins_or_starts hsplit with ⟨-, hjoins⟩ | hstarts
  · obtain ⟨init, u, rfl, -, hgroup⟩ := hjoins.last
    rw [hjoins.checked_eq]
    refine iff_of_false Bool.false_ne_true fun hall => ?_
    exact hall u (by simp) hgroup.symm
  · refine iff_of_true hstarts.checked_eq fun u hu heq => ?_
    obtain ⟨init, rest, rfl⟩ := List.append_of_mem hu
    rw [h.group_eq (by rw [hsplit, List.append_assoc, List.cons_append]), hstarts.group_eq] at heq
    have hnumber := groupName_inj heq
    have hcount : (init ++ u :: rest).countP (·.checked) =
        (init ++ [u]).countP (·.checked) + rest.countP (·.checked) := by
      rw [List.append_cons, List.countP_append]
    rw [countP_snoc_of_starts hstarts] at hnumber
    omega

/-! ### Runs -/

variable {v : Tab} {rest : List Tab}

/-- Tabs that join the one before them come from the siblings after the one of the first. -/
theorem exists_siblings (hsplit : tabs = before ++ t :: u :: (rest ++ after))
    (hu : u.checked = false) (hrest : ∀ v ∈ rest, v.checked = false) :
    ∃ p front back, f.children p = front ++ admonitions (t :: u :: rest) ++ back := by
  have hf := h.wellFormed
  induction rest using List.reverseRecOn generalizing after with
  | nil =>
      have hsplit' : tabs = (before ++ [t]) ++ u :: after := by simpa using hsplit
      rcases h.joins_or_starts hsplit' with ⟨-, hjoins⟩ | hstarts
      · obtain ⟨init, v, hlast, hprevious, -⟩ := hjoins.last
        obtain ⟨-, hv⟩ := List.append_inj' hlast rfl
        cases hv
        obtain ⟨p, front, back, hlist⟩ := (previousSibling_iff hf).1 hprevious
        exact ⟨p, front, back, by simpa [admonitions] using hlist⟩
      · rw [hstarts.checked_eq] at hu
        cases hu
  | append_singleton rest w ih =>
      have hrest' : ∀ v ∈ rest, v.checked = false :=
        fun v hv => hrest v (List.mem_append_left _ hv)
      have hinit : tabs = before ++ t :: u :: (rest ++ w :: after) := by simpa using hsplit
      obtain ⟨p, front, back, hlist⟩ := ih hinit hrest'
      have hsplit' : tabs = (before ++ t :: u :: rest) ++ w :: after := by simpa using hsplit
      rcases h.joins_or_starts hsplit' with ⟨-, hjoins⟩ | hstarts
      · obtain ⟨run, v, hrun, hprevious, -⟩ := hjoins.last_of_ne_nil (List.cons_ne_nil _ _)
        obtain ⟨q, left, right, hnext⟩ := (previousSibling_iff hf).1 hprevious
        -- Both lists hold the admonition of the last tab, so they are of one node.
        have hsame : f.children p = (front ++ admonitions run) ++ v.admonition :: back := by
          rw [hlist, hrun, admonitions_append]
          simp [admonitions]
        have hp : v.admonition ∈ f.children p := by simp [hsame]
        obtain rfl := hf.parent_unique hp (q := q) (by simp [hnext])
        obtain ⟨-, rfl⟩ := append_cons_inj_of_nodup (hsame ▸ hf.nodup_children p)
          (hsame.symm.trans hnext)
        refine ⟨p, front, right, ?_⟩
        rw [hsame, ← List.cons_append, ← List.cons_append, hrun]
        simp [admonitions]
      · have hw := hrest w (by simp)
        rw [hstarts.checked_eq] at hw
        cases hw

/-- Tabs of adjacent siblings have one group. -/
theorem group_eq_of_siblings (hgrouped : grouped = true)
    (hsplit : tabs = before ++ t :: (rest ++ after))
    (hlist : f.children p = front ++ admonitions (t :: rest) ++ back) :
    ∀ u ∈ t :: rest, u.group = t.group := by
  induction rest using List.reverseRecOn generalizing after back with
  | nil => simp
  | append_singleton rest w ih =>
      have hinit : tabs = before ++ t :: (rest ++ w :: after) := by simpa using hsplit
      have hsiblings : f.children p = front ++ admonitions (t :: rest) ++ w.admonition :: back := by
        simpa [admonitions] using hlist
      have hall := ih hinit hsiblings
      have hsplit' : tabs = (before ++ t :: rest) ++ w :: after := by simpa using hsplit
      have hw : w.group = t.group := by
        rcases h.joins_or_starts hsplit' with ⟨-, hjoins⟩ | hstarts
        · obtain ⟨run, v, hrun, -, hgroup⟩ := hjoins.last_of_ne_nil (List.cons_ne_nil _ _)
          rw [hgroup, hall v (by simp [hrun])]
        · obtain ⟨run, v, hrun⟩ := (List.eq_nil_or_concat (t :: rest)).resolve_left
            (List.cons_ne_nil _ _)
          rw [List.concat_eq_append] at hrun
          have hsame : f.children p =
              (front ++ admonitions run ++ [v.admonition]) ++ w.admonition :: back := by
            rw [hlist, ← List.cons_append, hrun]
            simp [admonitions]
          have hprevious := previousSibling_eq h.wellFormed hsame
          rw [List.getLast?_concat] at hprevious
          exact absurd hprevious (hstarts.apart hgrouped v (by simp [hrun]))
      intro u hu
      rw [← List.cons_append] at hu
      rcases List.mem_append.1 hu with hu | hu
      · exact hall u hu
      · rw [List.mem_singleton.1 hu, hw]

/-- Between two tabs of one group none starts another group. -/
theorem unchecked_of_group_eq (hsplit : tabs = before ++ t :: (rest ++ u :: after))
    (heq : t.group = u.group) : ∀ v ∈ rest ++ [u], v.checked = false := by
  have hsplit' : tabs = (before ++ t :: rest) ++ u :: after := by simpa using hsplit
  rw [h.group_eq hsplit, h.group_eq hsplit'] at heq
  have hnumber := groupName_inj heq
  have hcount : ((before ++ t :: rest) ++ [u]).countP (·.checked) =
      (before ++ [t]).countP (·.checked) + (rest ++ [u]).countP (·.checked) := by
    rw [List.append_cons before t rest, List.append_assoc, List.countP_append]
  have hnone : (rest ++ [u]).countP (·.checked) = 0 := by omega
  simpa using List.countP_eq_zero.1 hnone

/-- A tab of the same group as an earlier one is in one run with it. -/
theorem sameRun_of_group_eq (hsplit : tabs = before ++ t :: (rest ++ u :: after))
    (heq : t.group = u.group) : grouped = true ∧ SameRun f category t.admonition u.admonition := by
  have hunchecked := h.unchecked_of_group_eq hsplit heq
  have hgrouped : grouped = true := by
    have hsplit' : tabs = (before ++ t :: rest) ++ u :: after := by simpa using hsplit
    rcases h.joins_or_starts hsplit' with ⟨hgrouped, -⟩ | hstarts
    · exact hgrouped
    · have hu := hunchecked u (by simp)
      rw [hstarts.checked_eq] at hu
      cases hu
  obtain ⟨v, more, hmore⟩ : ∃ v more, rest ++ [u] = v :: more :=
    List.exists_cons_of_ne_nil (by simp)
  have hsplit' : tabs = before ++ t :: v :: (more ++ after) := by
    rw [hsplit, ← List.cons_append (a := v), ← hmore, List.append_assoc, List.singleton_append]
  rw [hmore] at hunchecked
  obtain ⟨p, front, back, hlist⟩ := h.exists_siblings hsplit' (hunchecked v List.mem_cons_self)
    fun w hw => hunchecked w (List.mem_cons_of_mem v hw)
  have hu : u ∈ v :: more := by simp [← hmore]
  refine ⟨hgrouped, p, front, admonitions (t :: v :: more), back, hlist,
    List.mem_map_of_mem (by simp),
    List.mem_map_of_mem (List.mem_cons_of_mem t hu), fun n hn => ?_⟩
  obtain ⟨w, hw, rfl⟩ := List.mem_map.1 hn
  have hmem : w ∈ tabs := by
    rw [hsplit', ← List.cons_append, ← List.cons_append]
    exact List.mem_append_right _ (List.mem_append_left _ hw)
  exact h.isTabs_of_mem hmem

/-- Two tabs have one group if they come from one run of adjacent siblings, and tabs are grouped. -/
theorem group_eq_iff (ht : t ∈ tabs) (hu : u ∈ tabs) : t.group = u.group ↔
    t.admonition = u.admonition ∨
      grouped = true ∧ SameRun f category t.admonition u.admonition := by
  constructor
  · intro heq
    obtain ⟨before, after, hsplit⟩ := List.append_of_mem ht
    rw [hsplit] at hu
    rcases List.mem_append.1 hu with hu | hu
    · obtain ⟨before, rest, rfl⟩ := List.append_of_mem hu
      rw [List.append_assoc, List.cons_append] at hsplit
      obtain ⟨hgrouped, hrun⟩ := h.sameRun_of_group_eq hsplit heq.symm
      exact Or.inr ⟨hgrouped, hrun.symm⟩
    rcases List.mem_cons.1 hu with rfl | hu
    · exact Or.inl rfl
    · obtain ⟨rest, after, rfl⟩ := List.append_of_mem hu
      exact Or.inr (h.sameRun_of_group_eq hsplit heq)
  · rintro (heq | ⟨hgrouped, p, front, run, back, hlist, htrun, hurun, hrun⟩)
    · rw [h.eq_of_admonition_eq ht hu heq]
    by_cases hroot : t.admonition = root
    · rw [h.eq_singleton_of_root ht hroot] at hu
      rw [List.mem_singleton.1 hu]
    obtain ⟨before, made, after, hsplit, rfl⟩ := h.exists_tabs_of_run ht hroot hlist htrun hrun
    have hmem {w : Tab} (hw : w ∈ tabs) (hwrun : w.admonition ∈ admonitions made) : w ∈ made := by
      obtain ⟨x, hx, heq⟩ := List.mem_map.1 hwrun
      have hxtabs : x ∈ tabs := by simp [hsplit, hx]
      rwa [h.eq_of_admonition_eq hw hxtabs heq.symm]
    cases made with
    | nil => exact absurd htrun List.not_mem_nil
    | cons first rest =>
        rw [List.append_assoc, List.cons_append] at hsplit
        have hgroup := h.group_eq_of_siblings hgrouped hsplit hlist
        rw [hgroup t (hmem ht htrun), hgroup u (hmem hu hurun)]

end Ordered

/-- The groups of tabs are numbered in order from one to `groups`, and the first tab of each is the
one that is checked. -/
structure Numbered (tabs : List Tab) (groups : Nat) : Prop where
  numbers : ∃ numbers : List Nat, tabs.map (·.group) = numbers.map groupName ∧
    numbers.Pairwise (· ≤ ·) ∧ ∀ k, k ∈ numbers ↔ 1 ≤ k ∧ k ≤ groups
  checked_iff (before after : List Tab) (t : Tab) (hsplit : tabs = before ++ t :: after) :
    t.checked = true ↔ ∀ u ∈ before, u.group ≠ t.group

/-- Each outermost tabs admonition gives way to a block. Where no group stands in the metadata of
the tree, the blocks of one run of adjacent admonitions make one group if tabs are grouped, and each
block is a group of its own otherwise. -/
theorem stash_groups_runs (category : Value) (grouped : Bool) (root : NodeId) (f : Forest)
    (hf : f.WellFormed) (hroot : root < f.size)
    (htitles : ∀ n ∈ outermost f category root, ∃ s, (f.element n).get? "title" = some (.str s))
    (hunnamed : ∀ n ∈ f.preorder root, (f.metadata n).get? "tab_group" = none)
    (hbefore : ∀ q, f.previousSibling root = .ok (some q) →
      (f.metadata q).get? "tab_group" = none) :
    ∃ tabs top g groups,
      stash category grouped root f =
        (.ok top, summary ⟨(outermost f category root).length, groups⟩, g) ∧
      admonitions tabs = outermost f category root ∧ InPlace f g root tabs top ∧
      Numbered tabs groups ∧
      (∀ t ∈ tabs, ∀ u ∈ tabs, t.group = u.group ↔ t.admonition = u.admonition ∨
        grouped = true ∧ SameRun f category t.admonition u.admonition) ∧
      (grouped = false → ∀ t ∈ tabs, t.checked = true) := by
  have htitled : Titled f category [root] := by
    rwa [Titled, List.flatMap_singleton]
  obtain ⟨tabs, top, g, hstash, hadmonitions, hgroups, hplace⟩ :=
    stash_inPlace hf hroot grouped htitled
  have h : Ordered f category grouped root tabs :=
    ⟨hf, hadmonitions, hgroups, fun n hn => hunnamed n (hf.mem_preorder_iff.2 hn), hbefore⟩
  refine ⟨tabs, top, g, tabs.countP (·.checked), ?_, hadmonitions, hplace, ⟨?_, ?_⟩, ?_, ?_⟩
  · rw [hstash, ← hadmonitions, admonitions, List.length_map]
    rfl
  · exact h.exists_numbers (List.append_nil tabs).symm
  · exact fun before after t hsplit => h.checked_iff hsplit
  · exact fun t ht u hu => h.group_eq_iff ht hu
  · rintro rfl t ht
    obtain ⟨before, after, hsplit⟩ := List.append_of_mem ht
    rcases h.joins_or_starts hsplit with ⟨hgrouped, -⟩ | hstarts
    · cases hgrouped
    · exact hstarts.checked_eq

/-- The two tabs side by side make one group. -/
theorem stash_groups_runs_sideBySide : ∃ t u v top g groups,
    stash (.str "tabs") true 6 sideBySide = (.ok top, summary ⟨3, groups⟩, g) ∧
      admonitions [t, u, v] = [2, 3, 5] ∧ InPlace sideBySide g 6 [t, u, v] top ∧
      Numbered [t, u, v] groups ∧ t.group = u.group := by
  have hunnamed : ∀ n ∈ sideBySide.preorder 6,
      ((sideBySide.metadata n).get? "tab_group").isNone := by decide
  have halone : sideBySide.previousSibling 6 = .ok none := rfl
  obtain ⟨tabs, top, g, groups, hstash, hadmonitions, hplace, hnumbered, hgroups, -⟩ :=
    stash_groups_runs (.str "tabs") true 6 sideBySide wellFormed_sideBySide (by decide)
      exists_title_sideBySide (fun n hn => Option.isNone_iff_eq_none.1 (hunnamed n hn))
      (by simp [halone])
  rw [outermost_sideBySide] at hstash hadmonitions
  obtain ⟨t, rest, rfl, ht, hrest⟩ := List.map_eq_cons_iff.1 hadmonitions
  obtain ⟨u, rest, rfl, hu, hrest⟩ := List.map_eq_cons_iff.1 hrest
  obtain ⟨v, rfl, -⟩ := List.map_eq_singleton_iff.1 hrest
  refine ⟨t, u, v, top, g, groups, hstash, hadmonitions, hplace, hnumbered, ?_⟩
  refine (hgroups t (by simp) u (by simp)).2 (Or.inr ⟨rfl, ?_⟩)
  rw [ht, hu]
  exact ⟨6, [], [2, 3], [4, 5], rfl, by decide, by decide, by decide⟩

end MarkdownTree.Tabs.Stash
