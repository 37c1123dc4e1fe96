import MarkdownTree.Proofs.PassRuns
import MarkdownTree.Proofs.SiblingNavigation
import MarkdownTree.Proofs.StashedTabs
import MarkdownTree.Proofs.TabsVisitor

/-!
Runs of the pass that turns tabs into blocks. The pass comes upon the outermost admonitions in
document order and puts a block in the place of each; the group of a tab is that of the sibling
before it, or a new one. Where the titles of the outermost admonitions are texts, the pass never
fails and ends within its steps.
-/

namespace MarkdownTree

namespace Revision

open Forest Asking

variable {σ ε : Type} {f : Forest} {b c : NodeId} {before after : List NodeId}

/-- A root that fits takes the place of a child, and the pass goes on after it. -/
theorem result_replace_root {p : Progress} {place : Frame} (s : σ) (hf : f.WellFormed)
    (h : f.children place.node = before ++ c :: after) (hfit : f.AllFit place.node [b])
    (hb : b < f.size) (hroot : f.parent? b = none) :
    result (carryOut p place c (.replace (.node b) false) : Pass σ ε Progress) f s =
      (.ok { p with offered := b :: p.offered, stack := setNext (before.length + 1) p.stack },
        f.replaced place.node c before after [b], s) := by
  have hdepartures : departures f c [.node b] = .ok [] := by
    unfold departures
    by_cases hbc : b = c
    · rw [if_pos hbc]
      rfl
    · rw [if_neg hbc, hroot]
      rfl
  have hreplace := outcome_replaceChild hf h hfit fun k hk => List.mem_singleton.1 hk ▸ hb
  rw [List.map_singleton, (without_before_of_isRoot hf hroot h).1] at hreplace
  simp only [carryOut, result_bind, result_substitute, hdepartures, hreplace, shift_nil]
  rfl

end Revision

namespace Tabs.Stash

open Forest Revision Asking

variable {f g h : Forest} {n p : NodeId} {category : Value} {grouped : Bool} {t : Tab}
  {tabs : List Tab} {front back : List NodeId}

/-! ### Groups -/

/-- The group that stands in the metadata where a node stood. -/
def groupOf (f : Forest) (tabs : List Tab) (n : NodeId) : Option Value :=
  match tabs.find? (·.admonition == n) with
  | some t => some t.group
  | none => (f.metadata n).get? "tab_group"

/-- The group that a tab joins: that of the sibling before it, if tabs are grouped. -/
def groupBefore (f : Forest) (grouped : Bool) (tabs : List Tab) (n : NodeId) : Option Value :=
  match f.previousSibling n with
  | .ok (some p) => if grouped then groupOf f tabs p else none
  | _ => none

def groupName (number : Nat) : Value :=
  .str ("tabs-group-" ++ toString number)

/-- How tabs come by their groups, one after the other: a tab joins the group before it, or else is
checked and makes a new group, which gets the next number. -/
inductive Grouped (f : Forest) (grouped : Bool) : List Tab → Prop
  | nil : Grouped f grouped []
  | snoc {tabs : List Tab} {t : Tab} (h : Grouped f grouped tabs)
      (hchecked : t.checked = (groupBefore f grouped tabs t.admonition).isNone)
      (hgroup : t.group = (groupBefore f grouped tabs t.admonition).getD
        (groupName ((tabs ++ [t]).countP (·.checked)))) : Grouped f grouped (tabs ++ [t])

theorem Stashed.get?_standIn (hfg : Stashed f g tabs) (hn : n < f.size) :
    (g.metadata (standIn tabs n)).get? "tab_group" = groupOf f tabs n := by
  unfold standIn groupOf
  cases hfind : tabs.find? (·.admonition == n) with
  | none => rw [hfg.metadata_eq n hn]
  | some t =>
      obtain ⟨title, nodeText, -, -, hmetadata⟩ :=
        (hfg.made t (List.mem_of_find?_eq_some hfind)).titled
      rw [hmetadata]
      simp [Tab.entries, Entries.get?_cons]

theorem Stashed.joinedGroup_eq (hf : f.WellFormed) (hfg : Stashed f g tabs) (hn : n < f.size)
    (hnew : n ∉ admonitions tabs) :
    joinedGroup g grouped n = .ok (groupBefore f grouped tabs n) := by
  unfold joinedGroup groupBefore
  cases hp : f.parent? n with
  | none =>
      have hroot : g.parent? n = none := by rw [hfg.parent?_eq n hn, if_neg hnew, hp]
      rw [previousSibling_of_isRoot hp, previousSibling_of_isRoot hroot]
      rfl
  | some p =>
      obtain ⟨front, back, hlist⟩ := List.append_of_mem (hf.mem_of_parent? hp)
      rw [previousSibling_eq hf hlist,
        previousSibling_eq hfg.wellFormed (hfg.children_split hlist hnew), List.getLast?_map]
      cases hlast : front.getLast? with
      | none => rfl
      | some q =>
          have hq : q ∈ f.children p := by
            rw [hlist]
            exact List.mem_append_left _ (List.mem_of_getLast? hlast)
          simp only [Option.map_some, bind, Except.bind, hfg.get?_standIn (hf.lt_size_of_mem hq)]

/-! ### The decision -/

/-- A tab that is made next: its block stands beside the forest, ready to take its place. -/
structure Ready (f : Forest) (grouped : Bool) (tabs : List Tab) (h : Forest) (t : Tab) : Prop where
  stashed : Stashed f h tabs
  made : t.Made f h
  isRoot : h.parent? t.block = none
  later : ∀ u ∈ tabs, u.block < t.block ∧ u.content < t.block
  own : t.block < t.content
  grouped : Grouped f grouped (tabs ++ [t])

def stateAfter (tabs : List Tab) : State :=
  ⟨tabs.length, tabs.countP (·.checked)⟩

/-- A block may stand where its admonition does. -/
theorem Ready.allFit (hf : f.WellFormed) (hready : Ready f grouped tabs h t)
    (hmem : t.admonition ∈ f.children p) (hkind : f.kind t.admonition = .admonition) :
    h.AllFit p [t.block] := by
  refine ⟨List.nodup_singleton _, fun k hk => ?_⟩
  rw [List.mem_singleton.1 hk]
  have hp : p < f.size := lt_size_of_mem_children hmem
  refine ⟨?_, fun hover => ?_⟩
  · obtain ⟨title, nodeText, -, helement, -⟩ := hready.made.titled
    have hblock : h.kind t.block = .htmlBlock := by
      rw [Forest.kind, helement]
      rfl
    have hcan := hf.canContain_of_mem p _ hmem
    rw [hkind] at hcan
    rw [hblock, Forest.kind, hready.stashed.element_eq p hp]
    exact canContain_of_admonition hcan rfl
  · have hold := hready.stashed.lt_of_atOrAbove hf hover hp
    exact absurd hold (Nat.not_lt.2 hready.made.le_block)

/-- The tab that is made next, of the admonition `n`, with its block under the number `block`: it
joins a group if there is one to join, and starts the next group otherwise. -/
def nextTab (tabs : List Tab) (n block : NodeId) (joined : Option Value) : Tab :=
  let groups := if joined.isSome then (stateAfter tabs).groups else (stateAfter tabs).groups + 1
  ⟨n, block, block + 1, joined.getD (groupName groups), joined.isNone⟩

theorem stateAfter_nextTab (tabs : List Tab) (n block : NodeId) (joined : Option Value) :
    stateAfter (tabs ++ [nextTab tabs n block joined]) = ⟨tabs.length + 1,
      if joined.isSome then (stateAfter tabs).groups else (stateAfter tabs).groups + 1⟩ := by
  rw [stateAfter, List.length_append, List.countP_append, List.countP_singleton]
  cases joined <;> rfl

theorem group_nextTab (tabs : List Tab) (n block : NodeId) (joined : Option Value) :
    (nextTab tabs n block joined).group =
      joined.getD (groupName ((tabs ++ [nextTab tabs n block joined]).countP (·.checked))) := by
  have hnumber : (tabs ++ [nextTab tabs n block joined]).countP (·.checked) = _ :=
    congrArg State.groups (stateAfter_nextTab tabs n block joined)
  rw [hnumber]
  rfl

/-- The visitor does as the block of the next tab is made. -/
theorem visit_eq {block : NodeId} {joined : Option Value} (htabs : isTabs g category n = true)
    (hjoined : joinedGroup g grouped n = .ok joined)
    (hmake : outcome (makeBlock n (nextTab tabs n g.size joined).group joined.isNone) g =
      (.ok block, h)) :
    visit category grouped n g (stateAfter tabs) =
      (.ok (.action (.replace (.node block) false)), h,
        stateAfter (tabs ++ [nextTab tabs n g.size joined])) := by
  have hrun : (makeBlock n (nextTab tabs n g.size joined).group joined.isNone).run.run g =
    (.ok block, h) := hmake
  rw [stateAfter_nextTab]
  unfold visit
  rw [if_neg (by simp [htabs]), hjoined]
  simp only [nextTab, groupName] at hrun ⊢
  rw [hrun]
  rfl

/-- An admonition that has a text as its title, in a tree as before, gives way to a new block. -/
theorem visit_tabs (hf : f.WellFormed) (hfg : Stashed f g tabs) (hgroups : Grouped f grouped tabs)
    (hn : n < f.size) (hnew : ∀ m, f.AtOrAbove n m → m ∉ admonitions tabs)
    (htabs : isTabs f category n = true)
    (htitle : ∃ s, (f.element n).get? "title" = some (.str s)) :
    ∃ t h, t.admonition = n ∧ Ready f grouped tabs h t ∧
      visit category grouped n g (stateAfter tabs) =
        (.ok (.action (.replace (.node t.block) false)), h, stateAfter (tabs ++ [t])) := by
  obtain ⟨title, htitle⟩ := htitle
  have hsame := hfg.sameTree hf hn fun m hm => hnew m hm.atOrAbove
  have hkind : g.kind n = .admonition := by rw [hsame.kind_eq, kind_of_isTabs htabs]
  have htabs' : isTabs g category n = true := by rw [isTabs_eq hsame, htabs]
  have helement : (g.element n).get? "title" = some (.str title) := by rw [hsame.element_eq, htitle]
  have hjoined : joinedGroup g grouped n = .ok (groupBefore f grouped tabs n) :=
    hfg.joinedGroup_eq hf hn (hnew n (.refl f n))
  have hgroup := group_nextTab tabs n g.size (groupBefore f grouped tabs n)
  have hknown : ∀ c ∈ (nextTab tabs n g.size (groupBefore f grouped tabs n)).group.nodes,
      c < g.size := by
    intro c hc
    rw [hgroup] at hc
    cases hbefore : groupBefore f grouped tabs n with
    | none =>
        rw [hbefore] at hc
        simp [groupName, Value.nodes] at hc
    | some v =>
        rw [hbefore] at hc hjoined
        exact lt_of_joinedGroup hfg.wellFormed hjoined hc
  obtain ⟨h, hmake, hgh, hh, hroot, hmade⟩ := outcome_makeBlock hfg.wellFormed hkind helement hknown
    (groupBefore f grouped tabs n).isNone
  exact ⟨nextTab tabs n g.size (groupBefore f grouped tabs n), h, rfl,
    ⟨hfg.within hgh hh, hmade.of_sameTree hf hfg.size_le hsame, hroot,
      fun u hu => ⟨(hfg.made u hu).block_lt, (hfg.made u hu).content_lt⟩, Nat.lt_succ_self _,
      .snoc hgroups rfl hgroup⟩,
    visit_eq htabs' hjoined hmake⟩

theorem visit_other (hn : isTabs g category n = false) (s : State) :
    visit category grouped n g s = (.ok (.action .keep), g, s) := by
  unfold visit
  rw [if_pos (by simp [hn])]

/-! ### Single steps -/

variable {a b : Config State} {rest : List Frame} {nodes : List NodeId}

/-- A pass has put the blocks of tabs in place so far. -/
structure Reached (f : Forest) (grouped : Bool) (tabs : List Tab) (a : Config State) : Prop where
  stashed : Stashed f a.forest tabs
  grouped : Grouped f grouped tabs
  state : a.state = stateAfter tabs
  final : a.progress.final = []

/-- Nothing at or below some nodes was offered, or has given way. -/
def Untouched (f : Forest) (tabs : List Tab) (a : Config State) (nodes : List NodeId) : Prop :=
  ∀ n ∈ nodes, ∀ m, f.AtOrAbove n m → m ∉ a.progress.offered ∧ m ∉ admonitions tabs

/-- Between two configurations only old nodes at or below some nodes were offered. -/
def Offers (f : Forest) (nodes : List NodeId) (a b : Config State) : Prop :=
  ∀ m ∈ b.progress.offered, m ∈ a.progress.offered ∨ f.size ≤ m ∨ ∃ n ∈ nodes, f.AtOrAbove n m

theorem offers_cons (h : b.progress.offered = n :: a.progress.offered) : Offers f [n] a b := by
  intro m hm
  rw [h] at hm
  rcases List.mem_cons.1 hm with rfl | hm
  · exact Or.inr (Or.inr ⟨m, List.mem_cons_self, .refl f m⟩)
  · exact Or.inl hm

/-- A node is offered, and then nodes below it only. -/
theorem Offers.below {c : Config State} (hf : f.WellFormed)
    (hfirst : b.progress.offered = n :: a.progress.offered) (h : Offers f (f.children n) b c) :
    Offers f [n] a c := by
  intro m hm
  rcases h m hm with hm | hm | ⟨k, hk, hkm⟩
  · exact offers_cons hfirst m hm
  · exact Or.inr (Or.inl hm)
  · have hnm := (hf.ancestor_of_mem hk).trans_atOrAbove hkm
    exact Or.inr (Or.inr ⟨n, List.mem_cons_self, hnm.atOrAbove⟩)

/-- The titles of the outermost admonitions at or below some nodes are texts. -/
def Titled (f : Forest) (category : Value) (nodes : List NodeId) : Prop :=
  ∀ n ∈ nodes.flatMap (outermost f category), ∃ s, (f.element n).get? "title" = some (.str s)

/-- The innermost place is at the child `n` of `p`, which is still as it was. -/
structure AtChild (f : Forest) (grouped : Bool) (tabs : List Tab) (a : Config State) (p n : NodeId)
    (front back : List NodeId) (rest : List Frame) : Prop where
  reached : Reached f grouped tabs a
  list : f.children p = front ++ n :: back
  stack : a.progress.stack = ⟨p, front.length⟩ :: rest
  untouched : Untouched f tabs a [n]

namespace AtChild

variable (hf : f.WellFormed) (hat : AtChild f grouped tabs a p n front back rest)

include hf hat

theorem lt_size : n < f.size :=
  hf.lt_size_of_mem (p := p) (by simp [hat.list])

omit hf in
theorem fresh (m : NodeId) (hm : f.AtOrAbove n m) :
    m ∉ a.progress.offered ∧ m ∉ admonitions tabs :=
  hat.untouched n List.mem_cons_self m hm

theorem sameTree : f.SameTree a.forest n :=
  hat.reached.stashed.sameTree hf (hat.lt_size hf) fun m hm => (hat.fresh m hm.atOrAbove).2

omit hf in
/-- The next step asks the visitor about the child. -/
theorem result_step (category : Value) :
    result (step (visit category grouped) a.progress) a.forest a.state =
    match visit category grouped n a.forest (stateAfter tabs) with
    | (.error e, g, s) => (.error (.visitor e), g, s)
    | (.ok answer, g, s) =>
      match answer.toAction n with
      | .error e => (.error (.fault e), g, s)
      | .ok action =>
        result (carryOut { a.progress with offered := n :: a.progress.offered }
          ⟨p, front.length⟩ n action) g s := by
  obtain ⟨hoffered, hnew⟩ := hat.fresh n (.refl f n)
  have hsplit := hat.reached.stashed.children_split hat.list hnew
  rw [Revision.result_step _ _ hat.stack, getElem?_of_eq_append hsplit (List.length_map _)]
  simp only [result_handleChild, hat.reached.final, List.not_mem_nil, if_false, if_neg hoffered,
    hat.reached.state]
  rcases visit category grouped n a.forest (stateAfter tabs) with ⟨_ | _, _, _⟩ <;> rfl

/-- A tabs admonition gives way to its block in one step. -/
theorem step_tabs (htabs : isTabs f category n = true)
    (htitle : ∃ s, (f.element n).get? "title" = some (.str s)) :
    ∃ t b, t.admonition = n ∧ Reaches (visit category grouped) 1 a b ∧
      Reached f grouped (tabs ++ [t]) b ∧ b.progress.stack = ⟨p, front.length + 1⟩ :: rest ∧
      Offers f [n] a b := by
  obtain ⟨t, h, rfl, hready, hvisit⟩ := visit_tabs hf hat.reached.stashed hat.reached.grouped
    (hat.lt_size hf) (fun m hm => (hat.fresh m hm).2) htabs htitle
  have hnew := (hat.fresh t.admonition (.refl f _)).2
  have hsplit := hready.stashed.children_split hat.list hnew
  have hmem : t.admonition ∈ f.children p := by simp [hat.list]
  have hfit := hready.allFit hf hmem (kind_of_isTabs htabs)
  have hcarry : result (carryOut { a.progress with offered := t.admonition :: a.progress.offered }
      ⟨p, front.length⟩ t.admonition (.replace (.node t.block) false) :
      Pass State TreeFault Progress)
      h (stateAfter (tabs ++ [t])) = _ :=
    result_replace_root _ hready.stashed.wellFormed hsplit hfit hready.made.block_lt hready.isRoot
  rw [List.length_map, hat.stack] at hcarry
  have hstep := hat.result_step category
  rw [hvisit] at hstep
  simp only [Answer.toAction] at hstep
  rw [hcarry] at hstep
  refine ⟨t, ⟨⟨⟨p, front.length + 1⟩ :: rest, t.block :: t.admonition :: a.progress.offered,
    a.progress.final⟩, _, stateAfter (tabs ++ [t])⟩, rfl, .of_step hat.stack hstep,
    ⟨hready.stashed.replaced hf hat.list hnew hready.made hready.isRoot hfit hready.later
      hready.own, hready.grouped, rfl, hat.reached.final⟩, rfl, fun m hm => ?_⟩
  rcases List.mem_cons.1 hm with rfl | hm
  · exact Or.inr (Or.inl hready.made.le_block)
  rcases List.mem_cons.1 hm with rfl | hm
  · exact Or.inr (Or.inr ⟨_, List.mem_cons_self, .refl f _⟩)
  · exact Or.inl hm

/-- The pass goes on below any other node. -/
theorem step_other (hother : isTabs f category n = false) :
    ∃ b, Reaches (visit category grouped) 1 a b ∧ Reached f grouped tabs b ∧
      b.progress.stack = descendInto f n (⟨p, front.length + 1⟩ :: rest) ∧
      b.progress.offered = n :: a.progress.offered := by
  have hsame := hat.sameTree hf
  have hkeep : isTabs a.forest category n = false := by rw [isTabs_eq hsame, hother]
  have hstep := hat.result_step category
  rw [visit_other hkeep] at hstep
  simp only [Answer.toAction, result_keep, hat.stack] at hstep
  refine ⟨⟨⟨descendInto a.forest n (⟨p, front.length + 1⟩ :: rest), n :: a.progress.offered,
    a.progress.final⟩, a.forest, stateAfter tabs⟩, .of_step hat.stack hstep,
    ⟨hat.reached.stashed, hat.reached.grouped, rfl, hat.reached.final⟩, ?_, rfl⟩
  change descendInto a.forest n _ = _
  rw [descendInto, descendInto, hsame.children_eq]

/-- When the child has been offered, nothing below it has. -/
theorem untouched_children (hoffered : b.progress.offered = n :: a.progress.offered) :
    Untouched f tabs b (f.children n) := by
  intro c hc m hcm
  have hnm := (hf.ancestor_of_mem hc).trans_atOrAbove hcm
  obtain ⟨hfresh, hnew⟩ := hat.fresh m hnm.atOrAbove
  rw [hoffered]
  refine ⟨List.not_mem_cons_of_ne_of_not_mem ?_ hfresh, hnew⟩
  rintro rfl
  exact hf.not_ancestor_self _ hnm

end AtChild

/-! ### Siblings one after the other -/

/-- A pass goes through siblings, as far as the places `outer`: their outermost admonitions give way
in order. -/
def Passes (f : Forest) (category : Value) (grouped : Bool) (nodes : List NodeId) (tabs : List Tab)
    (a : Config State) (outer : List Frame) : Prop :=
  ∃ b more, Reaches (visit category grouped) (2 * (nodes.flatMap f.preorder).length) a b ∧
    Reached f grouped (tabs ++ more) b ∧ b.progress.stack = outer ∧
    admonitions more = nodes.flatMap (outermost f category) ∧ Offers f nodes a b

/-- A pass goes through siblings, wherever it meets them untouched. -/
def PassesAnywhere (f : Forest) (category : Value) (grouped : Bool) (p : NodeId)
    (nodes : List NodeId) : Prop :=
  ∀ front tabs a rest, f.children p = front ++ nodes → Reached f grouped tabs a →
    a.progress.stack = ⟨p, front.length⟩ :: rest → Untouched f tabs a nodes →
    Titled f category nodes →
    Passes f category grouped nodes tabs a (⟨p, (f.children p).length⟩ :: rest)

theorem admonitions_append (tabs more : List Tab) :
    admonitions (tabs ++ more) = admonitions tabs ++ admonitions more :=
  List.map_append

/-- After the last child of a node, its place is closed. -/
theorem Passes.close {outer : List Frame} (hn : n < f.size)
    (h : Passes f category grouped (f.children n) tabs a (⟨n, (f.children n).length⟩ :: outer)) :
    ∃ b more, Reaches (visit category grouped)
        (2 * ((f.children n).flatMap f.preorder).length + 1) a b ∧
      Reached f grouped (tabs ++ more) b ∧ b.progress.stack = outer ∧
      admonitions more = (f.children n).flatMap (outermost f category) ∧
      Offers f (f.children n) a b := by
  obtain ⟨b, more, hreaches, hb, hstack, hmore, hoffers⟩ := h
  have hstep : result (step (visit category grouped) b.progress) b.forest b.state =
      (.ok { b.progress with stack := outer }, b.forest, b.state) := by
    rw [Revision.result_step _ _ hstack, hb.stashed.children_eq n hn,
      List.getElem?_eq_none (Nat.le_of_eq (List.length_map _))]
  exact ⟨⟨{ b.progress with stack := outer }, b.forest, b.state⟩, more,
    hreaches.trans (.of_step hstack hstep),
    ⟨hb.stashed, hb.grouped, hb.state, hb.final⟩, rfl, hmore,
    hoffers⟩

/-- A child gives way if it is a tabs admonition; otherwise the pass goes through its children. -/
theorem AtChild.passes (hf : f.WellFormed) (hat : AtChild f grouped tabs a p n front back rest)
    (htitled : Titled f category [n])
    (hbelow : PassesAnywhere f category grouped n (f.children n)) :
    Passes f category grouped [n] tabs a (⟨p, front.length + 1⟩ :: rest) := by
  have houtermost : [n].flatMap (outermost f category) = outermost f category n :=
    List.flatMap_singleton _ _
  have hcost : ([n].flatMap f.preorder).length =
    ((f.children n).flatMap f.preorder).length + 1 := by
    rw [List.flatMap_singleton, hf.preorder_eq, List.length_cons]
  unfold Passes
  rw [Titled, houtermost] at htitled
  rw [houtermost, hcost]
  cases htabs : isTabs f category n with
  | true =>
      rw [outermost_of_isTabs hf htabs] at htitled ⊢
      obtain ⟨t, b, rfl, hreaches, hb, hstack, hoffers⟩ :=
        hat.step_tabs hf htabs (htitled n List.mem_cons_self)
      exact ⟨b, [t], hreaches.mono (by omega), hb, hstack, rfl, hoffers⟩
  | false =>
      rw [outermost_of_not hf htabs] at htitled ⊢
      obtain ⟨b, hfirst, hb, hstack, hoffered⟩ := hat.step_other hf htabs
      -- No place is opened at a node without children.
      by_cases hleaf : f.children n = []
      · rw [descendInto, hleaf] at hstack
        rw [hleaf]
        exact ⟨b, [], hfirst.mono (by omega), by rwa [List.append_nil], hstack, rfl,
          offers_cons hoffered⟩
      · rw [descendInto, if_neg (by simpa using hleaf)] at hstack
        obtain ⟨c, more, hrest, hc, hcstack, hmore, hoffers⟩ :=
          (hbelow [] tabs b _ rfl hb hstack (hat.untouched_children hf hoffered) htitled).close
            (hat.lt_size hf)
        exact ⟨c, more, (hfirst.trans hrest).mono (by omega), hc, hcstack, hmore,
          hoffers.below hf hoffered⟩

/-- Siblings of a child stay untouched while the pass is at the child. -/
theorem Untouched.tail (hf : f.WellFormed) {more : List Tab} (h : Untouched f tabs a (n :: nodes))
    (hlist : f.children p = front ++ n :: nodes)
    (hmore : admonitions more = [n].flatMap (outermost f category)) (hoffers : Offers f [n] a b) :
    Untouched f (tabs ++ more) b nodes := by
  have hnodup := hf.nodup_children p
  rw [hlist, List.nodup_append', List.nodup_cons] at hnodup
  intro k hk m hkm
  have hkp : k ∈ f.children p := by simp [hlist, hk]
  have hapart : ¬ f.AtOrAbove n m := by
    intro hnm
    obtain rfl := hf.eq_of_siblings hkp (by simp [hlist]) hkm hnm
    exact hnodup.2.1.1 hk
  obtain ⟨hfresh, hnew⟩ := h k (List.mem_cons_of_mem n hk) m hkm
  refine ⟨fun hm => ?_, fun hm => ?_⟩
  · rcases hoffers m hm with hm | hm | ⟨k', hk', hkm'⟩
    · exact hfresh hm
    · exact absurd (hkm.lt_size (hf.lt_size_of_mem hkp)) (Nat.not_lt.2 hm)
    · exact hapart (List.mem_singleton.1 hk' ▸ hkm')
  · rw [admonitions_append, hmore, List.flatMap_singleton] at hm
    rcases List.mem_append.1 hm with hm | hm
    · exact hnew hm
    · exact hapart ((mem_outermost_iff hf).1 hm).1

theorem Passes.cons {outer outer' : List Frame}
    (h : Passes f category grouped [n] tabs a outer')
    (hrest : ∀ b more, Reached f grouped (tabs ++ more) b → b.progress.stack = outer' →
      admonitions more = [n].flatMap (outermost f category) → Offers f [n] a b →
      Passes f category grouped nodes (tabs ++ more) b outer) :
    Passes f category grouped (n :: nodes) tabs a outer := by
  obtain ⟨b, more, hreaches, hb, hstack, hmore, hoffers⟩ := h
  obtain ⟨c, more', hreaches', hc, hstack', hmore', hoffers'⟩ :=
    hrest b more hb hstack hmore hoffers
  rw [List.append_assoc] at hc
  refine ⟨c, more ++ more', (hreaches.trans hreaches').mono (Nat.le_of_eq ?_), hc, hstack', ?_,
    fun m hm => ?_⟩
  · rw [List.flatMap_singleton, List.flatMap_cons, List.length_append]
    omega
  · rw [admonitions_append, hmore, hmore', List.flatMap_singleton, List.flatMap_cons]
  · rcases hoffers' m hm with hm | hm | ⟨k, hk, hkm⟩
    · exact (hoffers m hm).imp id (Or.imp id fun ⟨k, hk, hkm⟩ =>
        ⟨k, List.mem_cons.2 (Or.inl (List.mem_singleton.1 hk)), hkm⟩)
    · exact Or.inr (Or.inl hm)
    · exact Or.inr (Or.inr ⟨k, List.mem_cons_of_mem n hk, hkm⟩)

/-- The pass goes through the children of every node of a well-formed forest. -/
theorem passesAnywhere (hf : f.WellFormed) (category : Value) (grouped : Bool) (p : NodeId)
    (nodes : List NodeId) : PassesAnywhere f category grouped p nodes := by
  induction p using hf.down_induction generalizing nodes with
  | h p ihp =>
      induction nodes with
      | nil =>
          intro front tabs a rest hlist hreached hstack _ _
          rw [List.append_nil] at hlist
          refine ⟨a, [], (Reaches.refl a).mono (Nat.zero_le _), by rwa [List.append_nil], ?_, rfl,
            fun m hm => Or.inl hm⟩
          rw [hstack, hlist]
      | cons n nodes ih =>
          intro front tabs a rest hlist hreached hstack huntouched htitled
          have hmem : n ∈ f.children p := by simp [hlist]
          have hat : AtChild f grouped tabs a p n front nodes rest :=
            ⟨hreached, hlist, hstack, fun k hk =>
              huntouched k (List.mem_cons.2 (Or.inl (List.mem_singleton.1 hk)))⟩
          rw [Titled, List.flatMap_cons] at htitled
          have hfirst : Titled f category [n] := by
            rw [Titled, List.flatMap_singleton]
            exact fun m hm => htitled m (List.mem_append_left _ hm)
          refine (hat.passes hf hfirst (ihp n hmem _)).cons
            fun b more hb hbstack hmore hoffers => ?_
          refine ih (front ++ [n]) (tabs ++ more) b rest (by simp [hlist]) hb ?_
            (huntouched.tail hf hlist hmore hoffers) fun m hm =>
            htitled m (List.mem_append_right _ hm)
          rw [hbstack, List.length_append]
          rfl

/-! ### The whole pass -/

/-- The tree below `root` after the pass: `top` is its root now, blocks stand in the place of the
admonitions of tabs, and everything else is as before. -/
structure InPlace (f g : Forest) (root : NodeId) (tabs : List Tab) (top : NodeId) : Prop where
  wellFormed : g.WellFormed
  top_eq : top = standIn tabs root
  made : ∀ t ∈ tabs, t.Made f g
  increasing : tabs.Pairwise fun t u => t.block < u.block ∧ t.content < u.content
  element_eq (m : NodeId) (hm : m < f.size) : g.element m = f.element m
  metadata_eq (m : NodeId) (hm : m < f.size) : g.metadata m = f.metadata m
  children_eq (m : NodeId) (hm : m < f.size) (hroot : f.AtOrAbove root m) :
    g.children m = (f.children m).map (standIn tabs)
  children_eq_of_not (m : NodeId) (hm : m < f.size) (hroot : ¬ f.AtOrAbove root m) :
    g.children m = f.children m
  parent?_eq (m : NodeId) (hm : m < f.size) :
    g.parent? m = if m ∈ admonitions tabs ∧ m ≠ root then none else f.parent? m

variable {root : NodeId}

/-- A root that gives way itself. -/
theorem Ready.inPlace (hf : f.WellFormed) (hready : Ready f grouped [] h t) :
    InPlace f h t.admonition [t] t.block where
  wellFormed := hready.stashed.wellFormed
  top_eq := by simp [standIn]
  made u hu := by
    rw [List.mem_singleton.1 hu]
    exact hready.made
  increasing := List.pairwise_singleton _ _
  element_eq := hready.stashed.element_eq
  metadata_eq := hready.stashed.metadata_eq
  children_eq m hm hroot := by
    rw [hready.stashed.children_eq m hm]
    refine (map_standIn_snoc fun hmem => ?_).symm
    exact hf.not_atOrAbove_of_mem hmem (.refl f m) hroot
  children_eq_of_not m hm _ := by
    rw [hready.stashed.children_eq m hm]
    exact map_standIn fun _ _ => List.not_mem_nil
  parent?_eq m hm := by
    have hnone : m ∉ admonitions [] := List.not_mem_nil
    rw [hready.stashed.parent?_eq m hm, if_neg hnone, if_neg]
    rintro ⟨hmem, hne⟩
    exact hne (List.mem_singleton.1 hmem)

/-- A root that stays, after its outermost admonitions gave way. -/
theorem Stashed.inPlace (hf : f.WellFormed) (hroot : isTabs f category root = false)
    (hfg : Stashed f g tabs) (htabs : admonitions tabs = outermost f category root) :
    InPlace f g root tabs root := by
  have hmem {m : NodeId} (hm : m ∈ admonitions tabs) :
      f.Ancestor root m := by
    rw [htabs, mem_outermost_iff hf] at hm
    rcases hm.1 with rfl | hbelow
    · simp [hm.2.1] at hroot
    · exact hbelow
  refine ⟨hfg.wellFormed, ?_, hfg.made, hfg.increasing, hfg.element_eq, hfg.metadata_eq,
    fun m hm _ => hfg.children_eq m hm, fun m hm hno => ?_, fun m hm => ?_⟩
  · refine (standIn_of_not_mem fun hself => ?_).symm
    exact hf.not_ancestor_self root (hmem hself)
  · rw [hfg.children_eq m hm]
    refine map_standIn fun c hc hcm => hno ?_
    obtain ⟨p, hp, hover⟩ := ancestor_iff_parent.1 (hmem hcm)
    rw [hf.parent?_of_mem hc] at hp
    cases hp
    exact hover
  · rw [hfg.parent?_eq m hm]
    refine if_congr ⟨fun hm => ⟨hm, ?_⟩, And.left⟩ rfl rfl
    rintro rfl
    exact hf.not_ancestor_self _ (hmem hm)

theorem stash_eq (category : Value) (grouped : Bool) (root : NodeId) (f : Forest) :
    stash category grouped root f =
      match result (revise (visit category grouped) (stepLimit f) root) f (stateAfter []) with
      | (.ok new, g, s) => (.ok new, summary s, g)
      | (.error stop, g, _) => (.error (stopFault stop), [], g) := rfl

theorem cost_le_stepLimit (hf : f.WellFormed) (hroot : root < f.size) :
    2 * ((f.children root).flatMap f.preorder).length + 1 ≤ stepLimit f := by
  have hle := hf.length_preorder_le hroot
  rw [hf.preorder_eq, List.length_cons] at hle
  have hsquare : f.size + 1 ≤ (f.size + 1) * (f.size + 1) := Nat.le_mul_self _
  unfold stepLimit
  omega

/-- A root that is a tabs admonition gives way to its block, and that is all. -/
theorem stash_root (hf : f.WellFormed) (hroot : root < f.size) (grouped : Bool)
    (htabs : isTabs f category root = true)
    (htitle : ∃ s, (f.element root).get? "title" = some (.str s)) :
    ∃ t g, t.admonition = root ∧ Ready f grouped [] g t ∧
      stash category grouped root f = (.ok t.block, summary (stateAfter [t]), g) := by
  obtain ⟨t, g, hself, hready, hvisit⟩ :=
    visit_tabs hf (.refl hf) (.nil : Grouped f grouped []) hroot
    (fun m _ => List.not_mem_nil) htabs htitle
  rw [List.nil_append] at hvisit
  have hne : t.block ≠ root := Nat.ne_of_gt (Nat.lt_of_lt_of_le hroot hready.made.le_block)
  have htake : result (takePlace root t.block [root] : Pass State TreeFault (List NodeId)) g
      (stateAfter [t]) = (.ok [t.block, root], g, stateAfter [t]) := by
    rw [result_takePlace _ hready.stashed.wellFormed, if_neg hne, detach_of_isRoot hready.isRoot]
  have haction : rootAction g root (.replace (.node t.block) false) =
    .ok (.node t.block, false) := rfl
  have hrevise := result_revise (visit category grouped) (stateAfter []) (stepLimit f) root f
  rw [hvisit] at hrevise
  simp only [Answer.toAction, haction] at hrevise
  rw [result_reviseAt _ _ htake, if_neg Bool.false_ne_true] at hrevise
  refine ⟨t, g, hself, hready, ?_⟩
  rw [stash_eq, hrevise]

/-- At the start nothing below the root was offered, or has given way. -/
theorem untouched_start (hf : f.WellFormed) (root : NodeId) :
    Untouched f [] ⟨⟨[⟨root, 0⟩], [root], []⟩, f, stateAfter []⟩ (f.children root) := by
  intro c hc m hcm
  refine ⟨fun hm => ?_, List.not_mem_nil⟩
  rw [List.mem_singleton.1 hm] at hcm
  exact hf.not_atOrAbove_of_mem hc (.refl f root) hcm

/-- Below a root that is none itself, all outermost admonitions give way. -/
theorem stash_below (hf : f.WellFormed) (hroot : root < f.size) (grouped : Bool)
    (htabs : isTabs f category root = false) (htitled : Titled f category (f.children root)) :
    ∃ tabs b, stash category grouped root f = (.ok root, summary (stateAfter tabs), b.forest) ∧
      admonitions tabs = outermost f category root ∧ Reached f grouped tabs b := by
  have hstart : Reached f grouped [] ⟨⟨[⟨root, 0⟩], [root], []⟩, f, stateAfter []⟩ :=
    ⟨.refl hf, .nil, rfl, rfl⟩
  obtain ⟨b, tabs, hreaches, hb, hstack, hmore, -⟩ :=
    (passesAnywhere hf category grouped root _ [] []
    _ [] rfl hstart rfl (untouched_start hf root) htitled).close hroot
  have hrun := hreaches.run_eq hstack (cost_le_stepLimit hf hroot)
  have htake : result (takePlace root root [root] : Pass State TreeFault (List NodeId)) f
      (stateAfter []) = (.ok [root], f, stateAfter []) := by
    rw [result_takePlace _ hf, if_pos rfl]
  have haction : rootAction f root .keep = .ok (.node root, true) := rfl
  have hrevise := result_revise (visit category grouped) (stateAfter []) (stepLimit f) root f
  rw [visit_other htabs] at hrevise
  simp only [Answer.toAction, haction] at hrevise
  rw [result_reviseAt _ _ htake, if_pos rfl] at hrevise
  refine ⟨tabs, b, ?_, by rw [hmore, outermost_of_not hf htabs], hb⟩
  unfold Config.run at hrun
  rw [stash_eq, hrevise, hrun, hb.state]
  rfl

/-- Where the titles of the outermost admonitions are texts, the pass turns each of them into a
tab. -/
theorem stash_inPlace (hf : f.WellFormed) (hroot : root < f.size) (grouped : Bool)
    (htitled : Titled f category [root]) :
    ∃ tabs top g, stash category grouped root f = (.ok top, summary (stateAfter tabs), g) ∧
      admonitions tabs = outermost f category root ∧ Grouped f grouped tabs ∧
      InPlace f g root tabs top := by
  rw [Titled, List.flatMap_singleton] at htitled
  cases htabs : isTabs f category root with
  | true =>
      rw [outermost_of_isTabs hf htabs] at htitled ⊢
      obtain ⟨t, g, rfl, hready, hstash⟩ :=
        stash_root hf hroot grouped htabs (htitled root List.mem_cons_self)
      exact ⟨[t], t.block, g, hstash, rfl, hready.grouped, hready.inPlace hf⟩
  | false =>
      have hbelow : Titled f category (f.children root) := by
        rwa [outermost_of_not hf htabs] at htitled
      obtain ⟨tabs, b, hstash, houtermost, hb⟩ := stash_below hf hroot grouped htabs hbelow
      exact ⟨tabs, root, b.forest, hstash, houtermost, hb.grouped,
        hb.stashed.inPlace hf htabs houtermost⟩

/-! ### A document with tabs side by side -/

def tabUnder (title : String) : Element :=
  .ofFields .admonition [("category", .str "tabs"), ("title", .str title)]

/-- A document with two tabs side by side, the first of them around another one, and a third tab
behind a paragraph. -/
def sideBySide : Forest where
  nodes := #[⟨0, some 1, [], 0⟩, ⟨1, some 2, [0], 1⟩, ⟨2, some 6, [1], 2⟩, ⟨3, some 6, [], 3⟩,
    ⟨4, some 6, [], 4⟩, ⟨5, some 6, [], 5⟩, ⟨6, none, [2, 3, 4, 5], 6⟩]
  elements := #[.ofFields .paragraph [], tabUnder "Inner", tabUnder "One", tabUnder "Two",
    .ofFields .paragraph [], tabUnder "Three", .ofFields .document []]
  records := #[[("source", .str "intro")], [], [], [], [], [], []]

theorem wellFormed_sideBySide : sideBySide.WellFormed := by
  have hplain : ∀ c ∈ Value.nodesEntries [("source", .str "intro")], c < empty.size := by
    simp [Value.nodesEntries, Value.nodes]
  have hleaf : ∀ v ∈ ([] : List Value), empty.Known v := by simp
  have hparagraph :=
    (carriesOn_newNode wellFormed_empty (.ofFields .paragraph []) hplain hleaf).wellFormed
  have hinner := wellFormed_newNode hparagraph (tabUnder "Inner") [0] (by decide)
  have hone := wellFormed_newNode hinner (tabUnder "One") [1] (by decide)
  have htwo := wellFormed_newNode hone (tabUnder "Two") [] (by simp)
  have hbetween := wellFormed_newNode htwo (.ofFields .paragraph []) [] (by simp)
  have hthree := wellFormed_newNode hbetween (tabUnder "Three") [] (by simp)
  exact wellFormed_newNode hthree (.ofFields .document []) [2, 3, 4, 5] (by decide)

theorem outermost_sideBySide : outermost sideBySide (.str "tabs") 6 = [2, 3, 5] := by
  decide

theorem exists_title_sideBySide : ∀ n ∈ outermost sideBySide (.str "tabs") 6,
    ∃ s, (sideBySide.element n).get? "title" = some (.str s) := by
  rw [outermost_sideBySide]
  intro n hn
  simp only [List.mem_cons, List.not_mem_nil, or_false] at hn
  rcases hn with rfl | rfl | rfl <;> exact ⟨_, rfl⟩

end Tabs.Stash

end MarkdownTree
