import MarkdownTree.Proofs.Reachable
import MarkdownTree.Proofs.Subtrees

/-!
Where nodes end up. An operation that attaches nodes is described by the list of children that it
leaves, written with the list from before the call: the positions meant by the caller are those of
that list, although nodes of it may leave their places first. Everything that the operation does not
have to change is as before.
-/

namespace MarkdownTree.Forest

variable {f g : Forest} {c m n p q : NodeId} {nodes list before after : List NodeId}
  {i : Nat} {j : Int}

def putFor (c : NodeId) (nodes list : List NodeId) : List NodeId :=
  list.flatMap fun m => if m = c then nodes else [m]

theorem putFor_of_not_mem (h : c ∉ list) : putFor c nodes list = list := by
  induction list with
  | nil => rfl
  | cons m list ih =>
      rw [List.mem_cons, not_or] at h
      rw [putFor, List.flatMap_cons, if_neg (Ne.symm h.1)]
      exact congrArg (m :: ·) (ih h.2)

theorem putFor_append (hb : c ∉ before) (ha : c ∉ after) :
    putFor c nodes (before ++ c :: after) = before ++ nodes ++ after := by
  have hbefore : putFor c nodes before = before := putFor_of_not_mem hb
  have hafter : putFor c nodes after = after := putFor_of_not_mem ha
  rw [putFor] at hbefore hafter
  rw [putFor, List.flatMap_append, List.flatMap_cons, if_pos rfl, hbefore, hafter,
    List.append_assoc]

/-- In `g` nodes stand in the place of the child `c` of `p`. They left where they stood in `f`, and
nothing else changed. -/
structure Substituted (f g : Forest) (p c : NodeId) (nodes : List NodeId) : Prop where
  sameData : f.SameData g
  children_eq : g.children p = putFor c nodes (without (f.children p) (nodes.filter (· != c)))
  children_other (q : NodeId) (hq : q ≠ p) : g.children q = without (f.children q) nodes
  parent?_new (n : NodeId) (hn : n ∈ nodes) : g.parent? n = some p
  parent?_child (hc : c ∉ nodes) : g.parent? c = none
  parent?_other (m : NodeId) (hm : m ∉ nodes) (hmc : m ≠ c) : g.parent? m = f.parent? m

theorem substituted_replaced (hf : f.WellFormed) (h : f.children p = before ++ c :: after)
    (hlt : ∀ k ∈ nodes, k < f.size) :
    f.Substituted (f.replaced p c before after nodes) p c nodes := by
  obtain ⟨hb, ha⟩ := hf.not_mem_of_split h
  refine ⟨sameData_replaced f p c before after nodes, ?_, fun q hq => ?_, fun n hn => ?_,
    fun hc => ?_, fun m hm hmc => ?_⟩
  · rw [children_replaced hf h, if_pos rfl, h, without_others hb ha, putFor_append]
    · exact fun hmem => hb (mem_without.1 hmem).1
    · exact fun hmem => ha (mem_without.1 hmem).1
  · rw [children_replaced hf h, if_neg hq]
  · rw [parent?_replaced hlt, if_pos hn]
  · rw [parent?_replaced hlt, if_neg hc, if_pos rfl]
  · rw [parent?_replaced hlt, if_neg hm, if_neg hmc]

/-- Replacing a child by nodes that may stand there succeeds. The answer is the number of children
before it that stay, and the nodes stand in its place, wherever they came from. -/
theorem replaceChild_substitutes (hf : f.WellFormed) (hc : c ∈ f.children p)
    (hfit : f.AllFit p nodes) (hlt : ∀ k ∈ nodes, k < f.size) :
    ∃ g, outcome (replaceChild p (.node c) (nodes.map .node)) f =
        (.ok (without ((f.children p).takeWhile (· != c)) nodes).length, g) ∧
      f.Substituted g p c nodes := by
  obtain ⟨before, after, h, hb⟩ := List.eq_append_cons_of_mem hc
  have hbefore : (f.children p).takeWhile (· != c) = before := by
    rw [h, List.takeWhile_append_of_pos fun m hm => by simpa using ne_of_mem_of_not_mem hm hb]
    simp
  refine ⟨f.replaced p c before after nodes, ?_, substituted_replaced hf h hlt⟩
  rw [outcome_replaceChild hf h hfit hlt, hbefore]

/-- A document with a paragraph, a block quote over another paragraph, and a third paragraph. -/
def quoteBetween : Forest where
  nodes := #[⟨0, some 1, [], 0⟩, ⟨1, some 4, [0], 1⟩, ⟨2, some 4, [], 2⟩, ⟨3, some 4, [], 3⟩,
    ⟨4, none, [2, 1, 3], 4⟩]
  elements := #[.ofFields .paragraph [], .blockQuote, .ofFields .paragraph [],
    .ofFields .paragraph [], .ofFields .document []]
  records := #[[], [], [], [], []]

theorem wellFormed_quoteBetween : quoteBetween.WellFormed := by
  have hinner := wellFormed_newNode wellFormed_empty (.ofFields .paragraph []) [] (by simp)
  have hquote := wellFormed_newNode hinner .blockQuote [0] (by decide)
  have hfirst := wellFormed_newNode hquote (.ofFields .paragraph []) [] (by simp)
  have hlast := wellFormed_newNode hfirst (.ofFields .paragraph []) [] (by simp)
  exact wellFormed_newNode hlast (.ofFields .document []) [2, 1, 3] (by decide)

theorem fits_of_tests (hf : f.WellFormed) (hkinds : (f.kind p).canContain (f.kind c) = true)
    (hover : f.isAncestorOf c p = false) : f.Fits p c :=
  ⟨hkinds, fun h => Bool.false_ne_true (hover.symm.trans (hf.isAncestorOf_iff.2 h))⟩

/-- In `g` the node `c` stands among the children of `p`, which are those of a list. It took its
tree along, and nothing else changed but the list that it left. -/
structure PutBelow (f g : Forest) (p c : NodeId) (list : List NodeId) : Prop where
  sameData : f.SameData g
  children_eq : g.children p = list
  children_left (q : NodeId) (hq : f.parent? c = some q) (hne : q ≠ p) :
    g.children q = (f.children q).erase c
  children_other (q : NodeId) (hq : f.parent? c ≠ some q) (hne : q ≠ p) :
    g.children q = f.children q
  parent?_self : g.parent? c = some p
  parent?_other (m : NodeId) (hm : m ≠ c) : g.parent? m = f.parent? m
  sameTree : f.SameTree g c

theorem putBelow_placed (hf : f.WellFormed) (hp : p < f.size) (hc : c < f.size)
    (hfit : f.Fits p c) (j : Int) :
    f.PutBelow (f.placed p c j) p c (insertAt ((f.children p).filter (· != c)) j c) := by
  have hdata := (sameData_detach f c).trans
    (sameData_attach (f.detach c) p [c] (insertAt ((f.detach c).children p) j c))
  have hsize := (sameData_detach f c).size_eq
  have hchildren (q : NodeId) (hq : q ≠ p) :
      (f.placed p c j).children q = (f.children q).filter (· != c) := by
    rw [placed, children_attach (by rwa [hsize]), if_neg hq, children_detach hf]
  have hother {q : NodeId} (hq : f.parent? c ≠ some q) :
      (f.children q).filter (· != c) = f.children q := by
    refine List.filter_eq_self.2 fun m hm => ?_
    have hmc : m ≠ c := fun heq => hq (heq ▸ hf.parent?_of_mem hm)
    simpa using hmc
  have hparent (m : NodeId) : (f.placed p c j).parent? m =
      if m = c then some p else f.parent? m := by
    rw [placed, parent?_attach (fun k hk => by rwa [List.mem_singleton.1 hk, hsize]),
      parent?_detach]
    by_cases hm : m = c <;> simp [hm]
  refine ⟨hdata, ?_, fun q _ hne => ?_, fun q hq hne => ?_, ?_, fun m hm => ?_, fun m hm => ?_⟩
  · rw [placed, children_attach (by rwa [hsize]), if_pos rfl, children_detach hf]
  · rw [hchildren q hne, (hf.nodup_children q).erase_eq_filter]
  · rw [hchildren q hne, hother hq]
  · rw [hparent, if_pos rfl]
  · rw [hparent, if_neg hm]
  · -- Neither the old parent nor the new one is at or below the node.
    have hne : m ≠ p := fun heq => hfit.not_over (heq ▸ hm)
    have hq : f.parent? c ≠ some m := fun hp =>
      hf.not_ancestor_self m (Ancestor.trans_atOrAbove (.parent hp) hm)
    exact ⟨by rw [hchildren m hne, hother hq], hdata.element_eq m, hdata.metadata_eq m⟩

/-- A list with an item moved, or put, behind so many of the items that are there before. -/
def movedTo (list : List NodeId) (k : Nat) (c : NodeId) : List NodeId :=
  (list.take k).filter (· != c) ++ c :: (list.drop k).filter (· != c)

theorem insertAt_append (before after : List NodeId) (c : NodeId)
    (hj : position (before.length + after.length) j = before.length) :
    insertAt (before ++ after) j c = before ++ c :: after := by
  rw [insertAt, List.length_append, hj]
  clear hj
  induction before with
  | nil => rfl
  | cons m before ih => exact congrArg (m :: ·) ih

theorem length_filter_ne (h : list.Nodup) (c : NodeId) :
    (list.filter (· != c)).length = if c ∈ list then list.length - 1 else list.length := by
  rw [← h.erase_eq_filter, List.length_erase]

theorem mem_take_append_iff (hb : c ∉ before) {k : Nat} :
    c ∈ (before ++ c :: after).take k ↔ before.length < k := by
  rw [List.take_append, List.mem_append]
  constructor
  · rintro (hmem | hmem)
    · exact absurd (List.mem_of_mem_take hmem) hb
    · by_contra hk
      rw [Nat.sub_eq_zero_of_le (Nat.le_of_not_lt hk)] at hmem
      simp at hmem
  · intro hk
    obtain ⟨d, hd⟩ := Nat.exists_eq_add_of_lt hk
    rw [hd, Nat.add_assoc, Nat.add_sub_cancel_left, List.take_succ_cons]
    exact Or.inr List.mem_cons_self

/-- An index that is meant for the children with `c` among them is corrected for those without
it. -/
theorem insertAt_eq_movedTo (hf : f.WellFormed) (hj : f.indexWithout p c i = .ok j) :
    insertAt ((f.children p).filter (· != c)) j c =
      movedTo (f.children p) (min i (f.children p).length) c := by
  obtain ⟨k, hk⟩ : ∃ k, k = min i (f.children p).length := ⟨_, rfl⟩
  have hnodup := hf.nodup_children p
  have hsplit : (f.children p).filter (· != c) =
      ((f.children p).take k).filter (· != c) ++ ((f.children p).drop k).filter (· != c) := by
    rw [← List.filter_append, List.take_append_drop]
  have hfront := length_filter_ne (hnodup.sublist (List.take_sublist k _)) c
  have hall := length_filter_ne hnodup c
  rw [hsplit, List.length_append] at hall
  rw [← hk, movedTo, hsplit, insertAt_append]
  rw [hall, hfront, List.length_take]
  unfold indexWithout at hj
  split at hj
  · rename_i hp
    have hc := hf.mem_of_parent? hp
    obtain ⟨before, after, h, hb⟩ := List.eq_append_cons_of_mem hc
    have hlen : (f.children p).length = before.length + (after.length + 1) := by simp [h]
    rw [h, indexOf_append hb] at hj
    simp only [bind, Except.bind, Except.ok.injEq] at hj
    have hmem : c ∈ (f.children p).take k ↔ before.length < k := by
      rw [h, mem_take_append_iff hb]
    simp only [if_pos hc, hmem]
    unfold position
    split_ifs at hj ⊢ <;> omega
  · rename_i hp
    have hc : c ∉ f.children p := fun hmem => hp (hf.parent?_of_mem hmem)
    cases hj
    rw [if_neg hc, if_neg fun hmem => hc (List.mem_of_mem_take hmem)]
    unfold position
    split_ifs <;> omega

/-- An index is past all children that stand before it, so `c` goes behind them. -/
theorem putBelow_inserted (hf : f.WellFormed) (hp : p < f.size) (hc : c < f.size)
    (hfit : f.Fits p c) (hj : f.indexWithout p c i = .ok j) :
    f.PutBelow (f.placed p c j) p c (movedTo (f.children p) (min i (f.children p).length) c) := by
  rw [← insertAt_eq_movedTo hf hj]
  exact putBelow_placed hf hp hc hfit j

theorem attachAt_lands (takes : Int → Bool) (hf : f.WellFormed) (hp : p < f.size) (hc : c < f.size)
    (hfit : f.Fits p c) (ht : ∀ j, f.indexWithout p c i = .ok j → takes j = true) :
    ∃ g, outcome (attachAt takes p i (.node c)) f = (.ok (), g) ∧
      f.PutBelow g p c (movedTo (f.children p) (min i (f.children p).length) c) := by
  have hcheck := (checkAttach_eq_ok_iff hf).2 ⟨rfl, hfit⟩
  obtain ⟨j, hj⟩ := exists_indexWithout hf p c i
  refine ⟨f.placed p c j, ?_, putBelow_inserted hf hp hc hfit hj⟩
  rw [outcome_attachAt hf hcheck hj, if_pos (ht j hj)]

/-- Beside `n` means beside it in the list without `c`. -/
theorem insertSibling_lands (hf : f.WellFormed) (hn : f.parent? n = some p) (hc : c < f.size)
    (hfit : f.Fits p c) (hcn : c ≠ n)
    (hsplit : (f.children p).filter (· != c) = before ++ n :: after) {offset : Nat}
    {front back : List NodeId} (hlist : before ++ n :: after = front ++ back)
    (hoffset : front.length = before.length + offset) :
    ∃ g, outcome (insertSibling n (.node c) offset) f = (.ok (), g) ∧
      f.PutBelow g p c (front ++ c :: back) := by
  have hcheck := (checkAttach_eq_ok_iff hf).2 ⟨rfl, hfit⟩
  have hp : p < f.size := lt_size_of_mem_children (hf.mem_of_parent? hn)
  obtain ⟨k, hk, hout⟩ := outcome_insertSibling hf hn hcheck hcn offset
  have hnodup := (hf.nodup_children p).filter (· != c)
  rw [hsplit] at hnodup
  have hb : n ∉ before := fun hnb =>
    (List.nodup_cons.1 (List.nodup_middle.1 hnodup)).1 (List.mem_append_left after hnb)
  rw [children_detach hf, hsplit, indexOf_append hb] at hk
  cases hk
  refine ⟨_, hout, ?_⟩
  have hput := putBelow_placed hf hp hc hfit (before.length + offset)
  have hlen : position (front.length + back.length) (before.length + offset : Int) =
    front.length := by
    unfold position
    split_ifs <;> omega
  rwa [hsplit, hlist, insertAt_append front back c hlen] at hput

/-- A node that may stand below `p` lands where it was meant to: behind so many of the children as
the index says, behind all or before all of them, or just before or just after another child; and
what is put beside itself stays. An index has to be one that the list takes. -/
theorem attached_lands (hf : f.WellFormed) (hp : p < f.size) (hc : c < f.size) (hfit : f.Fits p c) :
    (∀ i : Nat, fittingInsertion f p i (.node c) →
      ∃ g, outcome (insertChild p i (.node c)) f = (.ok (), g) ∧
        f.PutBelow g p c (movedTo (f.children p) (min i (f.children p).length) c)) ∧
    (∃ g, outcome (appendChild p (.node c)) f = (.ok (), g) ∧
      f.PutBelow g p c (movedTo (f.children p) (f.children p).length c)) ∧
    (∃ g, outcome (prependChild p (.node c)) f = (.ok (), g) ∧
      f.PutBelow g p c (movedTo (f.children p) 0 c)) ∧
    ∀ n, f.parent? n = some p →
      (c ≠ n → ∃ before after, (f.children p).filter (· != c) = before ++ n :: after ∧
        (∃ g, outcome (insertBefore n (.node c)) f = (.ok (), g) ∧
          f.PutBelow g p c (before ++ c :: n :: after)) ∧
        ∃ g, outcome (insertAfter n (.node c)) f = (.ok (), g) ∧
          f.PutBelow g p c (before ++ n :: c :: after)) ∧
      (c = n → outcome (insertBefore n (.node c)) f = (.ok (), f) ∧
        outcome (insertAfter n (.node c)) f = (.ok (), f)) := by
  have hcheck := (checkAttach_eq_ok_iff hf).2 ⟨rfl, hfit⟩
  refine ⟨fun i hi => ?_, ?_, ?_, fun n hn => ⟨fun hcn => ?_, fun hcn => ?_⟩⟩
  · exact attachAt_lands isIndex hf hp hc hfit fun j hj => hi c j hcheck hj
  · have happend := attachAt_lands (i := (f.children p).length) (fun _ => true) hf hp hc hfit
      fun _ _ => rfl
    rw [Nat.min_self] at happend
    simpa only [appendChild, outcome_bind, outcome_get] using happend
  · have hprepend := attachAt_lands (i := 0) isIndex hf hp hc hfit fun j hj => by
      rw [indexWithout_zero hj]
      rfl
    rwa [Nat.zero_min] at hprepend
  · have hmem : n ∈ (f.children p).filter (· != c) :=
      List.mem_filter.2 ⟨hf.mem_of_parent? hn, by simpa using hcn.symm⟩
    obtain ⟨before, after, hsplit⟩ := List.append_of_mem hmem
    refine ⟨before, after, hsplit, ?_, ?_⟩
    · exact insertSibling_lands hf hn hc hfit hcn hsplit rfl rfl
    · have hlist : before ++ n :: after = (before ++ [n]) ++ after := by simp
      have hlen : (before ++ [n]).length = before.length + 1 := by simp
      have hafter := insertSibling_lands hf hn hc hfit hcn hsplit hlist hlen
      rwa [List.append_assoc] at hafter
  · subst hcn
    exact ⟨outcome_insertSibling_self hn hcheck 0, outcome_insertSibling_self hn hcheck 1⟩

/-- The content of the block quote moves behind two of the children of the document, before or after
each of them, and to both ends. -/
theorem attached_lands_quoteBetween :
    quoteBetween.Fits 4 0 ∧ fittingInsertion quoteBetween 4 2 (.node 0) ∧
      (∃ g, outcome (insertChild 4 2 (.node 0)) quoteBetween = (.ok (), g) ∧
        quoteBetween.PutBelow g 4 0 [2, 1, 0, 3]) ∧
      ∃ g, outcome (insertAfter 3 (.node 0)) quoteBetween = (.ok (), g) ∧
        quoteBetween.PutBelow g 4 0 [2, 1, 3, 0] := by
  have hf := wellFormed_quoteBetween
  have hfit : quoteBetween.Fits 4 0 := fits_of_tests hf (by decide) (by decide)
  have hindex : fittingInsertion quoteBetween 4 2 (.node 0) := by
    intro c j hc hj
    have hcheck : quoteBetween.checkAttach 4 (.node 0) = .ok 0 := rfl
    rw [hcheck] at hc
    cases hc
    have hsame : quoteBetween.indexWithout 4 0 2 = .ok 2 := rfl
    rw [hsame] at hj
    cases hj
    decide
  obtain ⟨hinsert, -, -, hbeside⟩ := attached_lands hf (by decide) (by decide) hfit
  obtain ⟨before, after, hsplit, -, hafter⟩ := (hbeside 3 rfl).1 (by decide)
  have hlist : quoteBetween.children 4 = [2, 1] ++ 3 :: [] := rfl
  obtain ⟨rfl, rfl⟩ : before = [2, 1] ∧ after = [] := by
    have hkept : (quoteBetween.children 4).filter (· != 0) = [2, 1, 3] := rfl
    rw [hkept] at hsplit
    rcases before with _ | ⟨a, _ | ⟨b, _ | ⟨d, before⟩⟩⟩ <;> simp_all
  exact ⟨hfit, hindex, hinsert 2 hindex, hafter⟩

/-- At an index that no list takes the paragraph does not land. -/
theorem not_landed_tooLargeIndex :
    looseParagraph.WellFormed ∧ looseParagraph.Fits 0 1 ∧
      ∀ g, outcome (insertChild 0 (9223372036854775808 : Nat) (.node 1)) looseParagraph ≠
        (.ok (), g) := by
  have hf := wellFormed_looseParagraph
  have hout : (outcome (insertChild 0 (9223372036854775808 : Nat) (.node 1)) looseParagraph).1 =
      .error .indexTooLarge := rfl
  refine ⟨hf, fits_of_tests hf (by decide) (by decide), fun g hg => ?_⟩
  rw [hg] at hout
  cases hout

end MarkdownTree.Forest
