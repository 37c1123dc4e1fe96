import Mathlib.Data.List.Find
import MarkdownTree.Proofs.RenamedTabs
import MarkdownTree.Proofs.StashedContent
import MarkdownTree.Proofs.TabGroups
import MarkdownTree.Proofs.UntitledTabs

/-!
Tabs as blocks, in renamed parts of forests. The outermost admonitions correspond, and so do the
tabs that are made of them: they join or start the same groups. Each block refers to a copy of its
own of the same content, so the results are equal as trees, though their nodes do not correspond.
-/

namespace MarkdownTree

namespace Value

/-- A value that refers to no nodes and is equal to itself. -/
structure Plain (v : Value) : Prop where
  noNodes : v.nodes = []
  keyed : v.isKeyed = true
  number : v ≠ .float .nan

theorem Plain.agrees_self {v : Value} (h : v.Plain) : v.agrees v = true :=
  agreesWithin_self false v h.keyed (Or.inr h.number)

theorem plain_str (s : String) : (Value.str s).Plain :=
  ⟨rfl, rfl, nofun⟩

end Value

theorem Entries.Plain.of_get? {entries : Entries} {name : String} {v : Value} (h : entries.Plain)
    (hv : entries.get? name = some v) : v.Plain := by
  have hnone := Value.nodes_of_get? h.noNodes hv
  rw [Entries.get?, Option.map_eq_some_iff] at hv
  obtain ⟨entry, hfind, rfl⟩ := hv
  have hmem := List.mem_of_find?_eq_some hfind
  exact ⟨hnone, Value.isKeyed_of_mem h.keyed hmem, h.numbers entry hmem⟩

/-- Two lists that correspond to a third one correspond to each other. -/
theorem forall₂_of_common {α β γ : Type} {R : α → β → Prop} {S : α → γ → Prop} {Q : β → γ → Prop}
    {xs : List α} {ys : List β} {zs : List γ} (hR : List.Forall₂ R xs ys)
    (hS : List.Forall₂ S xs zs)
    (h : ∀ x ∈ xs, ∀ y z, R x y → S x z → Q y z) : List.Forall₂ Q ys zs := by
  induction hR generalizing zs with
  | nil =>
      cases hS
      exact .nil
  | cons hxy _ ih =>
      cases hS with
      | cons hxz hrest =>
          exact .cons (h _ List.mem_cons_self _ _ hxy hxz)
            (ih hrest fun x hx => h x (List.mem_cons_of_mem _ hx))

namespace Forest

variable {T : NodeId → Prop} {r : NodeId → NodeId} {f g h : Forest} {c d m n : NodeId}

theorem Renamed.has_of_previousSibling (h : Renamed T r f g) (hn : f.Has T n)
    (hm : f.previousSibling n = .ok (some m)) : f.Has T m := by
  obtain ⟨p, front, back, hlist⟩ := (previousSibling_iff h.source).1 hm
  have hp := h.source.parent?_of_mem (p := p) (c := n) (by simp [hlist])
  exact h.has_of_mem (h.has_of_parent? hn hp) (by simp [hlist])

/-- Copies of corresponding trees are equal. -/
theorem Renamed.agree_of_matches (h : Renamed T r f g) {k : Forest} {depth : Nat} (hn : f.Has T n)
    (hc : g.MatchesWithin k depth (r n) c) (hd : f.MatchesWithin k depth n d) :
    k.agreeWithin true depth c d = true := by
  induction depth generalizing n c d with
  | zero => rfl
  | succ depth ih =>
      obtain ⟨helement, hmetadata, hchildren⟩ := hc
      obtain ⟨helement', hmetadata', hchildren'⟩ := hd
      rw [h.element_eq n hn] at helement
      rw [h.metadata_eq n hn] at hmetadata
      rw [h.children_eq n hn, List.forall₂_map_left_iff] at hchildren
      have hplain := h.plain n hn
      have hlists : listsAgree (k.agreeWithin true depth) (k.children c) (k.children d) = true := by
        refine listsAgree_of_forall₂ (forall₂_of_common hchildren hchildren'
          fun m hm a b ha hb => ?_)
        exact ih (h.has_of_mem hn hm) ha hb
      rw [Forest.agreeWithin, helement, helement', hmetadata hplain.metadata.noNodes,
        hmetadata' hplain.metadata.noNodes, hlists, metadataAgree_self hplain.metadata,
        Element.agrees_self hplain.keyed]
      rfl

end Forest

namespace Tabs.Stash

open Forest

variable {T : NodeId → Prop} {r : NodeId → NodeId} {f g k : Forest} {m n root : NodeId}
  {category : Value} {grouped : Bool} {tabs tabs' : List Tab} {t u : Tab}

theorem has_of_mem_outermost (h : Renamed T r f g) (hn : f.Has T n)
    (hm : m ∈ outermost f category n) : f.Has T m :=
  h.has_of_mem_preorder hn ((mem_outermost_iff h.source).1 hm).1

theorem outermost_renamed (h : Renamed T r f g) (category : Value) (hn : f.Has T n) :
    outermost g category (r n) = (outermost f category n).map r := by
  induction n using h.source.down_induction with
  | h n ih =>
      have hsame := isTabs_renamed h category hn
      cases htabs : isTabs f category n with
      | true =>
          rw [outermost_of_isTabs h.source htabs,
            outermost_of_isTabs h.image (by rw [hsame, htabs])]
          rfl
      | false =>
          rw [outermost_of_not h.source htabs, outermost_of_not h.image (by rw [hsame, htabs]),
            h.children_eq n hn, List.flatMap_map, List.map_flatMap]
          exact List.flatMap_congr fun c hc => ih c hc (h.has_of_mem hn hc)

/-- The first title that is no text is at corresponding nodes. -/
theorem find?_lacksTitle_renamed (h : Renamed T r f g) (category : Value) (hn : f.Has T n) :
    (outermost g category (r n)).find? (lacksTitle g) =
      ((outermost f category n).find? (lacksTitle f)).map r := by
  rw [outermost_renamed h category hn, List.find?_map]
  congr 1
  refine List.find?_congr fun m hm => ?_
  rw [Function.comp_apply, lacksTitle, lacksTitle, h.element_eq m (has_of_mem_outermost h hn hm)]

/-- Two tabs that come from corresponding admonitions, in the same group. -/
structure Paired (r : NodeId → NodeId) (t u : Tab) : Prop where
  admonition_eq : u.admonition = r t.admonition
  group_eq : u.group = t.group
  checked_eq : u.checked = t.checked

theorem countP_paired (hpairs : List.Forall₂ (Paired r) tabs tabs') :
    tabs'.countP (·.checked) = tabs.countP (·.checked) :=
  countP_checked_eq (hpairs.imp fun _ _ hpair => hpair.checked_eq)

/-- The tabs of corresponding nodes are paired, if there are any. -/
theorem find?_paired (hr : Function.Injective r) (hpairs : List.Forall₂ (Paired r) tabs tabs')
    (n : NodeId) :
    tabs.find? (·.admonition == n) = none ∧ tabs'.find? (·.admonition == r n) = none ∨
      ∃ t u, Paired r t u ∧ tabs.find? (·.admonition == n) = some t ∧
        tabs'.find? (·.admonition == r n) = some u := by
  induction hpairs with
  | nil => exact Or.inl ⟨rfl, rfl⟩
  | @cons t u tabs tabs' hpair _ ih =>
      have hsame : (u.admonition == r n) = (t.admonition == n) := by
        rw [hpair.admonition_eq, beq_renamed hr]
      rw [List.find?_cons, List.find?_cons, hsame]
      cases t.admonition == n with
      | true => exact Or.inr ⟨t, u, hpair, rfl, rfl⟩
      | false => exact ih

theorem groupBefore_renamed (hr : Function.Injective r) (h : Renamed T r f g)
    (hpairs : List.Forall₂ (Paired r) tabs tabs') (hn : f.Has T n) (grouped : Bool) :
    groupBefore g grouped tabs' (r n) = groupBefore f grouped tabs n := by
  have hgroup (m : NodeId) (hm : f.Has T m) : groupOf g tabs' (r m) = groupOf f tabs m := by
    unfold groupOf
    rcases find?_paired hr hpairs m with ⟨hfirst, hsecond⟩ | ⟨t, u, hpair, hfirst, hsecond⟩
    · rw [hfirst, hsecond, h.metadata_eq m hm]
    · rw [hfirst, hsecond]
      exact congrArg some hpair.group_eq
  rw [groupBefore, groupBefore, h.previousSibling_eq hr hn]
  rcases hprevious : f.previousSibling n with e | _ | m
  · rfl
  · rfl
  · simp only [Except.map, Option.map_some, hgroup m (h.has_of_previousSibling hn hprevious)]

/-- Tabs of corresponding admonitions join or start the same groups. -/
theorem forall₂_paired (hr : Function.Injective r) (h : Renamed T r f g)
    (hfirst : Grouped f grouped tabs) (hsecond : Grouped g grouped tabs')
    (hlist : admonitions tabs' = (admonitions tabs).map r)
    (hhas : ∀ n ∈ admonitions tabs, f.Has T n) : List.Forall₂ (Paired r) tabs tabs' := by
  induction hfirst generalizing tabs' with
  | nil =>
      rw [List.eq_nil_of_map_eq_nil hlist]
      exact .nil
  | @snoc tabs t _ hchecked hgroup ih =>
      rw [admonitions_append, List.map_append] at hlist
      rw [admonitions_append] at hhas
      cases hsecond with
      | nil => exact absurd (congrArg List.length hlist) (by simp [admonitions])
      | @snoc tabs' u hrest hchecked' hgroup' =>
          rw [admonitions_append] at hlist
          obtain ⟨hinit, hlast⟩ := List.append_inj' hlist rfl
          have hpairs := ih hrest hinit fun n hn => hhas n (List.mem_append_left _ hn)
          have hself : u.admonition = r t.admonition := List.singleton_inj.1 hlast
          have hbefore := groupBefore_renamed hr h hpairs
            (hhas t.admonition (List.mem_append_right _ List.mem_cons_self)) grouped
          rw [hself, hbefore] at hchecked' hgroup'
          have hmark : u.checked = t.checked := hchecked'.trans hchecked.symm
          have hcount : (tabs' ++ [u]).countP (·.checked) = (tabs ++ [t]).countP (·.checked) := by
            rw [List.countP_append, List.countP_append, countP_paired hpairs,
              List.countP_singleton, List.countP_singleton, hmark]
          refine List.rel_append hpairs (.cons ⟨hself, ?_, hmark⟩ .nil)
          rw [hgroup', hgroup, hcount]

/-- Groups are plain: they come from the metadata of a node, or have been given a name. -/
theorem plain_group (h : Renamed T r f g) (hgrouped : Grouped f grouped tabs)
    (hhas : ∀ n ∈ admonitions tabs, f.Has T n) (t : Tab) (ht : t ∈ tabs) : t.group.Plain := by
  induction hgrouped generalizing t with
  | nil => cases ht
  | @snoc tabs u _ _ hgroup ih =>
      rw [admonitions_append] at hhas
      have hrest := ih fun n hn => hhas n (List.mem_append_left _ hn)
      rcases List.mem_append.1 ht with ht | ht
      · exact hrest t ht
      obtain rfl := List.mem_singleton.1 ht
      rw [hgroup]
      cases hbefore : groupBefore f grouped tabs t.admonition with
      | none => exact Value.plain_str _
      | some v =>
          obtain ⟨-, m, hm, hv⟩ := Ordered.exists_of_groupBefore hbefore
          have hself := hhas t.admonition (List.mem_append_right _ List.mem_cons_self)
          unfold groupOf at hv
          split at hv
          · rename_i w hfind
            cases hv
            exact hrest w (List.mem_of_find?_eq_some hfind)
          · exact (h.plain m (h.has_of_previousSibling hself hm)).metadata.of_get? hv

/-- The block quotes of two tabs that come from corresponding admonitions are equal. -/
theorem agree_contents (h : Renamed T r f g) (hself : u.admonition = r t.admonition)
    (hn : f.Has T t.admonition) (ht : t.Made f k) (hu : u.Made g k) (depth : Nat) :
    k.agreeWithin true depth u.content t.content = true := by
  cases depth with
  | zero => rfl
  | succ depth =>
      have hcopies := hu.copies
      rw [hself, h.children_eq _ hn, List.forall₂_map_left_iff] at hcopies
      have hlists : listsAgree (k.agreeWithin true depth) (k.children u.content)
          (k.children t.content) = true := by
        refine listsAgree_of_forall₂ (forall₂_of_common hcopies ht.copies fun m hm c d hc hd => ?_)
        exact h.agree_of_matches (h.has_of_mem hn hm) (hc depth) (hd depth)
      have hquote : Element.blockQuote.agrees Element.blockQuote = true := Element.agrees_self rfl
      rw [Forest.agreeWithin, hu.element_eq, ht.element_eq, hu.metadata_eq, ht.metadata_eq, hlists,
        hquote]
      rfl

/-- The blocks of two tabs that come from corresponding admonitions are equal. -/
theorem agree_blocks (h : Renamed T r f g) (hpair : Paired r t u) (hn : f.Has T t.admonition)
    (hgroup : t.group.Plain) (ht : t.Made f k) (hu : u.Made g k) (depth : Nat) :
    k.agreeWithin true depth u.block t.block = true := by
  cases depth with
  | zero => rfl
  | succ depth =>
      obtain ⟨title, nodeText, htitle, helement, hmetadata⟩ := ht.titled
      obtain ⟨title', nodeText', htitle', helement', hmetadata'⟩ := hu.titled
      rw [hpair.admonition_eq, h.element_eq _ hn, htitle, Option.some_inj,
        Value.str.injEq] at htitle'
      subst htitle'
      have hcontents := agree_contents h hpair.admonition_eq hn ht hu depth
      have hdisplay : t.group.display nodeText' = t.group.display nodeText :=
        Value.display_of_noNodes hgroup.noNodes
      rw [hpair.group_eq, hpair.checked_eq, hdisplay] at helement'
      have hentries : metadataAgree (k.agreeWithin true depth) (u.entries title) (t.entries title) =
          true := by
        rw [Tab.entries, Tab.entries, hpair.group_eq]
        simp only [metadataAgree, List.length_cons, List.length_nil, beq_self_eq_true,
          Bool.true_and,
          List.all_cons, List.all_nil, Bool.and_true, Entries.get?_cons, String.reduceEq, if_true,
          if_false, (Value.plain_str _).agrees_self, hcontents, hgroup.agrees_self]
        -- Only the group is left, which is no node.
        split
        · rename_i hnode _
          have hnone := hgroup.noNodes
          rw [hnode] at hnone
          cases hnone
        · rfl
      rw [Forest.agreeWithin, helement', helement, hmetadata', hmetadata, hentries,
        hu.leaf, ht.leaf,
        Element.agrees_self rfl]
      rfl

/-- Blocks stand in the tree of a node of a part, and nothing else has changed there. -/
structure Stands (f k : Forest) (tabs : List Tab) (n : NodeId) : Prop where
  element_eq : k.element n = f.element n
  metadata_eq : k.metadata n = f.metadata n
  children_eq : k.children n = (f.children n).map (standIn tabs)

/-- Trees with paired blocks in place are equal. -/
theorem agree_standIn (hr : Function.Injective r) (h : Renamed T r f g)
    (hpairs : List.Forall₂ (Paired r) tabs tabs') (hhas : ∀ t ∈ tabs, f.Has T t.admonition)
    (hgroups : ∀ t ∈ tabs, t.group.Plain) (hmade : ∀ t ∈ tabs, t.Made f k)
    (hmade' : ∀ u ∈ tabs', u.Made g k) (hstands : ∀ n, f.Has T n → Stands f k tabs n)
    (hstands' : ∀ n, f.Has T n → Stands g k tabs' (r n)) (hn : f.Has T n) (depth : Nat) :
    k.agreeWithin true depth (standIn tabs' (r n)) (standIn tabs n) = true := by
  induction depth generalizing n with
  | zero => rfl
  | succ depth ih =>
      rcases find?_paired hr hpairs n with ⟨hfirst, hsecond⟩ | ⟨t, u, hpair, hfirst, hsecond⟩
      · have hplain := h.plain n hn
        have hkept := hstands n hn
        have hkept' := hstands' n hn
        have hlists : listsAgree (k.agreeWithin true depth)
            (((f.children n).map r).map (standIn tabs')) ((f.children n).map (standIn tabs)) =
              true := by
          refine listsAgree_of_forall₂ ?_
          rw [List.map_map, List.forall₂_map_left_iff, List.forall₂_map_right_iff,
            List.forall₂_same]
          exact fun c hc => ih (h.has_of_mem hn hc)
        simp only [standIn, hfirst, hsecond]
        rw [Forest.agreeWithin, hkept.element_eq, hkept.metadata_eq, hkept.children_eq,
          hkept'.element_eq, hkept'.metadata_eq, hkept'.children_eq, h.element_eq n hn,
          h.metadata_eq n hn, h.children_eq n hn, hlists, metadataAgree_self hplain.metadata,
          Element.agrees_self hplain.keyed]
        rfl
      · have ht := List.mem_of_find?_eq_some hfirst
        have hu := List.mem_of_find?_eq_some hsecond
        simp only [standIn, hfirst, hsecond]
        exact agree_blocks h hpair (hhas t ht) (hgroups t ht) (hmade t ht) (hmade' u hu) (depth + 1)

/-- What was put in place stays in place where nodes stay as they are. -/
theorem InPlace.made_later {bound : Nat} {top : NodeId} (hg : g.WellFormed)
    (hplace : InPlace g h root tabs top) (hbound : bound ≤ g.size) (hkeeps : KeepsFrom bound h k)
    (ht : t ∈ tabs) : t.Made g k := by
  have hmade := hplace.made t ht
  have hsame {c : NodeId} (hc : g.size ≤ c) (hlt : c < h.size) : h.SameTree k c := by
    intro m hm
    have hle : bound ≤ m := by
      by_contra hno
      have hold := hplace.lt_of_atOrAbove hg hm (Nat.lt_of_lt_of_le (Nat.not_le.1 hno) hbound)
      exact absurd hc (Nat.not_le.2 hold)
    have hmlt := hm.lt_size hlt
    exact ⟨hkeeps.children_eq m hle hmlt, hkeeps.element_eq m hle hmlt,
      hkeeps.metadata_eq m hle hmlt⟩
  refine hmade.sameTree hplace.wellFormed hkeeps.size_le (hsame hmade.le_block hmade.block_lt)
    (hsame hmade.le_content hmade.content_lt) ?_
  rw [hkeeps.parent?_eq _ (Nat.le_trans hbound hmade.le_content) hmade.content_lt, hmade.isRoot]

/-- The tree that blocks were put into is as it was otherwise. -/
theorem InPlace.stands {top : NodeId} (hplace : InPlace f h root tabs top) (hn : n < f.size)
    (hroot : f.AtOrAbove root n) : Stands f h tabs n :=
  ⟨hplace.element_eq n hn, hplace.metadata_eq n hn, hplace.children_eq n hn hroot⟩

/-- Blocks stand where they stood if nodes stay as they are. -/
theorem Stands.later {bound : Nat} (hstands : Stands f h tabs n) (hkeeps : KeepsFrom bound h k)
    (hle : bound ≤ n) (hn : n < h.size) : Stands f k tabs n where
  element_eq := (hkeeps.element_eq n hle hn).trans hstands.element_eq
  metadata_eq := (hkeeps.metadata_eq n hle hn).trans hstands.metadata_eq
  children_eq := (hkeeps.children_eq n hle hn).trans hstands.children_eq

/-- Turning tabs into blocks comes to the same in renamed parts: to the same fault, or to equal
trees as far as the earlier one stays as it is. -/
theorem stash_renamed (hr : Function.Injective r) (h : Renamed T r f g) (hroot : f.Has T root)
    (category : Value) (grouped : Bool) {bound : Nat} (hbound : bound ≤ g.size)
    (hbelow : ∀ n, f.Has T n → f.AtOrAbove root n) (hle : ∀ n, f.Has T n → bound ≤ r n)
    (hkeeps : KeepsFrom bound (stash category grouped (r root) g).2.2
      (stash category grouped root f).2.2) :
    (stash category grouped (r root) g).2.1 = (stash category grouped root f).2.1 ∧
      ((∃ e, (stash category grouped (r root) g).1 = .error e ∧
          (stash category grouped root f).1 = .error e) ∨
        ∃ top top', (stash category grouped (r root) g).1 = .ok top ∧
          (stash category grouped root f).1 = .ok top' ∧
          ∀ depth, (stash category grouped root f).2.2.agreeWithin true depth top top' = true) := by
  have hfind := find?_lacksTitle_renamed h category hroot
  have hroot' := h.lt_size root hroot
  cases hfirst : (outermost f category root).find? (lacksTitle f) with
  | some n =>
      rw [hfirst] at hfind
      have hn := has_of_mem_outermost h hroot (List.mem_of_find?_eq_some hfirst)
      have hfault : titleFault g (r n) = titleFault f n := by
        rw [titleFault, titleFault, h.element_eq n hn]
      obtain ⟨f', hf'⟩ := stash_fails h.source hroot.2 grouped hfirst
      obtain ⟨g', hg'⟩ := stash_fails h.image hroot' grouped hfind
      rw [hf', hg', hfault]
      exact ⟨rfl, Or.inl ⟨_, rfl, rfl⟩⟩
  | none =>
      rw [hfirst] at hfind
      obtain ⟨tabs, top, f', hf', hlist, hgrouped, hplace⟩ := stash_inPlace h.source hroot.2 grouped
        (titled_iff.2 (by rwa [List.flatMap_singleton]))
      obtain ⟨tabs', top', g', hg', hlist', hgrouped', hplace'⟩ :=
        stash_inPlace h.image hroot' grouped
        (titled_iff.2 (by rwa [List.flatMap_singleton]))
      have hsize : g.size ≤ g'.size := by
        have hcarry := carriesOn_stash h.image category grouped (r root)
        rw [hg'] at hcarry
        exact hcarry.size_le
      rw [hf', hg'] at hkeeps
      rw [hf', hg']
      have hhas (n : NodeId) (hn : n ∈ admonitions tabs) : f.Has T n :=
        has_of_mem_outermost h hroot (hlist ▸ hn)
      have hadmonitions : admonitions tabs' = (admonitions tabs).map r := by
        rw [hlist', hlist, outermost_renamed h category hroot]
      have hpairs := forall₂_paired hr h hgrouped hgrouped' hadmonitions hhas
      refine ⟨?_, Or.inr ⟨top', top, rfl, rfl, fun depth => ?_⟩⟩
      · have hstate : stateAfter tabs' = stateAfter tabs := by
          rw [stateAfter, stateAfter, countP_paired hpairs, hpairs.length_eq]
        rw [hstate]
      · rw [hplace'.top_eq, hplace.top_eq]
        refine agree_standIn hr h hpairs (fun t ht => hhas _ (List.mem_map_of_mem ht))
          (plain_group h hgrouped hhas) hplace.made
          (fun u hu => hplace'.made_later h.image hbound hkeeps hu)
          (fun n hn => hplace.stands hn.2 (hbelow n hn)) (fun n hn => ?_) hroot depth
        have hlt := h.lt_size n hn
        exact (hplace'.stands hlt ((h.atOrAbove_iff hr hn).2 (hbelow n hn))).later hkeeps (hle n hn)
          (Nat.lt_of_lt_of_le hlt hsize)

end Tabs.Stash

end MarkdownTree
