import MarkdownTree.Proofs.SameInsertions
import MarkdownTree.Proofs.StashedContent
import MarkdownTree.Proofs.TabGroups
import MarkdownTree.Proofs.UntitledTabs

/-!
Blocks for tabs of trees of one shape that say different things. The outermost admonitions are
counterparts, one by one, and so are the siblings before them; so their tabs join and start the same
groups. What is left to differ is the title, which a block bears escaped, and as an identifier.
-/

namespace MarkdownTree

open Forest

/-- A list that goes along with two lists, one after the other, consists of two such lists. -/
theorem exists_append_of_forall₂ {α β : Type} {R : α → β → Prop} {xs ys : List α} {zs : List β}
    (h : List.Forall₂ R (xs ++ ys) zs) :
    ∃ xs' ys', zs = xs' ++ ys' ∧ List.Forall₂ R xs xs' ∧ List.Forall₂ R ys ys' := by
  refine ⟨zs.take xs.length, zs.drop xs.length, (List.take_append_drop _ _).symm, ?_, ?_⟩
  · simpa using List.forall₂_take xs.length h
  · simpa using List.forall₂_drop xs.length h

namespace Tabs.Stash

open Markup

variable {f f' g g' : Forest} {category : Value} {grouped : Bool}
  {n n' q q' root root' top top' : NodeId} {t t' : Tab}
  {tabs tabs' before before' after after' : List Tab}

section
variable (h : SameShape f f' root root') (hf : f.WellFormed) (hf' : f'.WellFormed)

include h hf hf'

/-- The outermost admonitions of counterparts are counterparts, one by one. -/
theorem outermost_alike (category : Value) (hn : Counterpart f f' root root' n n') :
    List.Forall₂ (Counterpart f f' root root') (outermost f category n)
      (outermost f' category n') := by
  induction n using hf.down_induction generalizing n' with
  | h n ih =>
      have hsame := h.isTabs_eq category hn
      cases htabs : isTabs f category n with
      | true =>
          rw [htabs] at hsame
          rw [outermost_of_isTabs hf htabs, outermost_of_isTabs hf' hsame]
          exact .cons hn .nil
      | false =>
          rw [htabs] at hsame
          rw [outermost_of_not hf htabs, outermost_of_not hf' hsame]
          have hchildren : List.Forall₂ (fun c c' => List.Forall₂ (Counterpart f f' root root')
              (outermost f category c) (outermost f' category c')) (f.children n)
              (f'.children n') :=
            forall₂_imp_of_mem (h.children hn) fun c hc c' _ hcc => ih c hc hcc
          exact List.rel_flatMap hchildren fun _ _ hcc => hcc

omit hf hf' in
/-- Titles that are texts have texts as their counterparts. -/
theorem exists_title_alike (hn : Counterpart f f' root root' n n')
    (htitle : ∃ s, (f.element n).get? "title" = some (.str s)) :
    ∃ s, (f'.element n').get? "title" = some (.str s) := by
  rcases (h.element n n' hn).field "title" with heq | ⟨-, -, s', -, hs'⟩
  · rwa [heq]
  · exact ⟨s', hs'⟩

theorem titled_alike (htitled : Titled f category [root]) : Titled f' category [root'] := by
  rw [Titled, List.flatMap_singleton] at htitled ⊢
  intro n' hn'
  have houtermost := outermost_alike h hf hf' category .root
  obtain ⟨n, hmem, hn⟩ := exists_of_forall₂ houtermost.flip hn'
  exact exists_title_alike h hn (htitled n hmem)

/-- The siblings before counterparts are counterparts, unless they are before the roots. -/
theorem previousSibling_alike (hn : Counterpart f f' root root' n n') (hne : n ≠ root)
    (hprevious : f.previousSibling n = .ok (some q)) (hq : Counterpart f f' root root' q q') :
    f'.previousSibling n' = .ok (some q') := by
  cases hn with
  | root => exact absurd rfl hne
  | @child p p' _ _ i hp ha hb =>
      obtain ⟨p₀, front, back, hlist⟩ := (previousSibling_iff hf).1 hprevious
      obtain rfl : p₀ = p := hf.parent_unique (by simp [hlist]) (List.mem_of_getElem? ha)
      have hchildren := h.children hp
      rw [hlist] at hchildren
      obtain ⟨front', rest, hlist', -, hrest⟩ := exists_append_of_forall₂ hchildren
      cases hrest with
      | cons hq₀ hrest =>
          cases hrest with
          | @cons _ n₀ _ back' hn₀ _ =>
              obtain rfl := hq.unique hf hq₀
              obtain rfl := (Counterpart.child hp ha hb).unique hf hn₀
              rw [List.append_cons] at hlist'
              rw [previousSibling_eq hf' hlist', List.getLast?_concat]

end

/-- Two tabs come from counterparts. -/
def FromCounterparts (f f' : Forest) (root root' : NodeId) (t t' : Tab) : Prop :=
  Counterpart f f' root root' t.admonition t'.admonition

/-- Tabs that differ in what their titles say only. -/
structure TabsAlike (f f' : Forest) (root root' : NodeId) (t t' : Tab) : Prop where
  counterparts : FromCounterparts f f' root root' t t'
  checked_eq : t'.checked = t.checked
  group_eq : ∃ number, t.group = groupName number ∧ t'.group = groupName number

/-- A tab cannot join the one before it where its counterpart starts a group. -/
theorem not_starts_of_joins (h : SameShape f f' root root') (hf' : f'.WellFormed)
    (ho : Ordered f category grouped root tabs) (hsplit : tabs = before ++ t :: after)
    (hbefore : List.Forall₂ (FromCounterparts f f' root root') before before')
    (ht : FromCounterparts f f' root root' t t') (hjoins : Joins f before t) :
    ¬ Starts f' true before' t' := by
  intro hstarts
  obtain ⟨init, u, rfl, hprevious, -⟩ := hjoins.last
  have hne : t.admonition ≠ root := ho.ne_root hsplit (by simp)
  obtain ⟨u', hu', hu⟩ := exists_of_forall₂ hbefore (List.mem_append_right init List.mem_cons_self)
  exact hstarts.apart rfl u' hu' (previousSibling_alike h ho.wellFormed hf' ht hne hprevious hu)

section
variable (h : SameShape f f' root root') (ho : Ordered f category grouped root tabs)
  (ho' : Ordered f' category grouped root' tabs')

include h ho ho'

/-- Tabs from counterparts are both checked, or neither is. -/
theorem checked_alike (hsplit : tabs = before ++ t :: after)
    (hsplit' : tabs' = before' ++ t' :: after')
    (hbefore : List.Forall₂ (FromCounterparts f f' root root') before before')
    (ht : FromCounterparts f f' root root' t t') : t'.checked = t.checked := by
  rcases ho.joins_or_starts hsplit with ⟨hgrouped, hjoins⟩ | hstarts <;>
    rcases ho'.joins_or_starts hsplit' with ⟨hgrouped', hjoins'⟩ | hstarts'
  · rw [hjoins.checked_eq, hjoins'.checked_eq]
  · subst hgrouped
    exact absurd hstarts' (not_starts_of_joins h ho'.wellFormed ho hsplit hbefore ht hjoins)
  · subst hgrouped'
    have hflipped : List.Forall₂ (FromCounterparts f' f root' root) before' before :=
      List.Forall₂.flip (hbefore.imp fun _ _ hu => hu.symm)
    exact absurd hstarts
      (not_starts_of_joins h.symm ho.wellFormed ho' hsplit' hflipped ht.symm hjoins')
  · rw [hstarts.checked_eq, hstarts'.checked_eq]

/-- Tabs of trees of one shape differ in what their titles say only. -/
theorem tabs_alike (hsplit : tabs = before ++ after) (hsplit' : tabs' = before' ++ after')
    (hbefore : List.Forall₂ (FromCounterparts f f' root root') before before') :
    List.Forall₂ (TabsAlike f f' root root') before before' := by
  -- From the front on, since the number of a group counts the groups before it.
  induction before using List.reverseRecOn generalizing after before' after' with
  | nil =>
      cases hbefore
      exact .nil
  | append_singleton before t ih =>
      obtain ⟨before', last, rfl, hinit, hlast⟩ := exists_append_of_forall₂ hbefore
      obtain ⟨t', _, ht, hnil, rfl⟩ := List.forall₂_cons_left_iff.1 hlast
      cases hnil
      rw [List.append_assoc, List.singleton_append] at hsplit hsplit'
      have halike := ih hsplit hsplit' hinit
      have hchecked := checked_alike h ho ho' hsplit hsplit' hinit ht
      have hcount : (before' ++ [t']).countP (·.checked) = (before ++ [t]).countP (·.checked) := by
        have hcounted := countP_checked_eq (halike.imp fun _ _ hu => hu.checked_eq)
        rw [List.countP_append, List.countP_append, hcounted, List.countP_singleton,
          List.countP_singleton, hchecked]
      refine List.rel_append halike (.cons ⟨ht, hchecked, _, ho.group_eq hsplit, ?_⟩ .nil)
      rw [ho'.group_eq hsplit', hcount]

end

/-- The blocks of tabs that are alike are markup with the same delimiters. -/
theorem TabsAlike.standsLike (h : TabsAlike f f' root root' t t') (hmade : t.Made f g)
    (hmade' : t'.Made f' g') : StandsLike f f' g g' root root' t.block t'.block := by
  obtain ⟨number, hgroup, hgroup'⟩ := h.group_eq
  obtain ⟨title, nodeText, -, helement, -⟩ := hmade.titled
  obtain ⟨title', nodeText', -, helement', -⟩ := hmade'.titled
  rw [hgroup] at helement
  rw [hgroup', h.checked_eq] at helement'
  exact .inserted hmade.le_block hmade'.le_block helement helement'
    (skeleton_markup title title' _ t.checked)

section
variable (h : SameShape f f' root root') (hf : f.WellFormed) (hf' : f'.WellFormed)
  (hlt : root < f.size) (hlt' : root' < f'.size)
  (hplace : InPlace f g root tabs top) (hplace' : InPlace f' g' root' tabs' top')
  (houtermost : admonitions tabs = outermost f category root)
  (houtermost' : admonitions tabs' = outermost f' category root')
  (halike : List.Forall₂ (TabsAlike f f' root root') tabs tabs')

include h hf hf' hlt hlt' hplace hplace' houtermost houtermost' halike

/-- What stands where counterparts stood that are not below an admonition is alike. -/
theorem likewise_standIn (hn : Counterpart f f' root root' n n')
    (hover : ∀ a, f.AtOrAbove root a → f.Ancestor a n → isTabs f category a = false) :
    Likewise f f' g g' root root' [standIn tabs n] [standIn tabs' n'] := by
  induction n using hf.down_induction generalizing n' with
  | h n ih =>
      have hroot := hn.atOrAbove hf
      have hsame := h.isTabs_eq category hn
      -- Both give way to blocks that are alike, or both are kept with children of which it holds.
      cases htabs : isTabs f category n with
      | true =>
          have hmem : n ∈ admonitions tabs := by
            rw [houtermost, mem_outermost_iff hf]
            exact ⟨hroot, htabs, hover⟩
          obtain ⟨t, ht, rfl⟩ := List.mem_map.1 hmem
          obtain ⟨t', ht', hpair⟩ := exists_of_forall₂ halike ht
          obtain rfl := hn.unique hf hpair.counterparts
          have hnodup : (admonitions tabs).Nodup := houtermost ▸ nodup_outermost hf category root
          have hnodup' : (admonitions tabs').Nodup :=
            houtermost' ▸ nodup_outermost hf' category root'
          have hmade := hplace.made t ht
          have hmade' := hplace'.made t' ht'
          rw [standIn_of_mem hnodup ht, standIn_of_mem hnodup' ht']
          refine .cons (hpair.standsLike hmade hmade') ?_ .nil
          rw [hmade.leaf, hmade'.leaf]
          exact .nil
      | false =>
          rw [htabs] at hsame
          have hno : n ∉ admonitions tabs := fun hmem => by
            rw [houtermost, mem_outermost_iff hf, htabs] at hmem
            exact Bool.false_ne_true hmem.2.1
          have hno' : n' ∉ admonitions tabs' := fun hmem => by
            rw [houtermost', mem_outermost_iff hf', hsame] at hmem
            exact Bool.false_ne_true hmem.2.1
          have hroot' := hn.symm.atOrAbove hf'
          have hold := hroot.lt_size hlt
          have hold' := hroot'.lt_size hlt'
          rw [standIn_of_not_mem hno, standIn_of_not_mem hno']
          refine .cons (.kept hold hold' (hplace.element_eq n hold)
            (hplace'.element_eq n' hold') hn)
            ?_ .nil
          rw [hplace.children_eq n hold hroot, hplace'.children_eq n' hold' hroot']
          refine .of_forall₂ (List.forall₂_map_left_iff.2 (List.forall₂_map_right_iff.2 ?_))
          refine forall₂_imp_of_mem (h.children hn) fun c hc c' _ hcc =>
            ih c hc hcc fun a hra hac => ?_
          obtain ⟨p, hp, han⟩ := ancestor_iff_parent.1 hac
          rw [hf.parent?_of_mem hc] at hp
          cases hp
          rcases han with rfl | han
          · exact htabs
          · exact hover a hra han

theorem likewise_top : Likewise f f' g g' root root' [top] [top'] := by
  rw [hplace.top_eq, hplace'.top_eq]
  refine likewise_standIn h hf hf' hlt hlt' hplace hplace' houtermost houtermost' halike .root
    fun a hra har => ?_
  exact absurd (hra.trans_ancestor har) (hf.not_ancestor_self root)

end

/-- Neither in a tree nor just before it is a group named in the metadata. -/
structure Unnamed (f : Forest) (root : NodeId) : Prop where
  below (n : NodeId) (hn : n ∈ f.preorder root) : (f.metadata n).get? "tab_group" = none
  before (q : NodeId) (hq : f.previousSibling root = .ok (some q)) :
    (f.metadata q).get? "tab_group" = none

/-- The pass that puts blocks in the place of tabs inserts the same into trees of one shape. -/
theorem stash_endsAlike (h : SameShape f f' root root') (hf : f.WellFormed) (hf' : f'.WellFormed)
    (hlt : root < f.size) (hlt' : root' < f'.size) (hunnamed : Unnamed f root)
    (hunnamed' : Unnamed f' root') (category : Value) (grouped : Bool) :
    EndsAlike f f' root root' (stash category grouped root f)
      (stash category grouped root' f') := by
  by_cases htitled : Titled f category [root]
  · obtain ⟨tabs, top, g, hstash, houtermost, hgrouped, hplace⟩ :=
      stash_inPlace hf hlt grouped htitled
    obtain ⟨tabs', top', g', hstash', houtermost', hgrouped', hplace'⟩ :=
      stash_inPlace hf' hlt' grouped (titled_alike h hf hf' htitled)
    have ho : Ordered f category grouped root tabs :=
      ⟨hf, houtermost, hgrouped, fun n hn => hunnamed.below n (hf.mem_preorder_iff.2 hn),
        hunnamed.before⟩
    have ho' : Ordered f' category grouped root' tabs' :=
      ⟨hf', houtermost', hgrouped', fun n hn => hunnamed'.below n (hf'.mem_preorder_iff.2 hn),
        hunnamed'.before⟩
    have hpairs := outermost_alike h hf hf' category .root
    rw [← houtermost, ← houtermost', admonitions, admonitions, List.forall₂_map_left_iff,
      List.forall₂_map_right_iff] at hpairs
    have halike := tabs_alike h ho ho' (List.append_nil tabs).symm
      (List.append_nil tabs').symm hpairs
    rw [hstash, hstash']
    exact .inserted ((likewise_top h hf hf' hlt hlt' hplace hplace' houtermost houtermost'
      halike).sameInsertions hplace.wellFormed hplace'.wellFormed)
  · have htitled' : ¬ Titled f' category [root'] := mt (titled_alike h.symm hf' hf) htitled
    rw [titled_iff, List.flatMap_singleton, ← ne_eq, Option.ne_none_iff_exists'] at htitled htitled'
    obtain ⟨m, hm⟩ := htitled
    obtain ⟨m', hm'⟩ := htitled'
    obtain ⟨g, hstash⟩ := stash_fails hf hlt grouped hm
    obtain ⟨g', hstash'⟩ := stash_fails hf' hlt' grouped hm'
    rw [hstash, hstash']
    exact .failed

end Tabs.Stash

end MarkdownTree
