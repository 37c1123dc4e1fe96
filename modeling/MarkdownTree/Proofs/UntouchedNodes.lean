import MarkdownTree.Proofs.FailingFast

/-!
What a pass leaves in place. An action reaches for the nodes that it names and for the node that it
was chosen about, unless it keeps that one; any other node keeps its parent and its order among the
others, and no element and no metadata changes at all. Passes come about by actions that are carried
out one after the other, however they end, so it is enough to look at a single action.
-/

namespace MarkdownTree.Revision

open Forest Asking

variable {σ ε : Type} {visit : Visitor σ ε} {f g h : Forest} {c n p root top : NodeId}
  {moved moved' nodes : List NodeId} {call : Call ε Answer} {calls : List (Call ε Answer)}
  {action : Action} {progress : Progress}

def Action.touched (n : NodeId) : Action → List NodeId
  | .keep => []
  | action => n :: nodesAmong action.values

/-- The nodes that the answers of the visitor reach for. An answer that stands for no action is
carried out on no node. -/
def touched (calls : List (Call ε Answer)) : List NodeId :=
  calls.flatMap fun call =>
    match call.answer with
    | .error _ => []
    | .ok a =>
      match a.toAction call.node with
      | .error _ => []
      | .ok action => action.touched call.node

theorem Action.touched_of_ne (hne : action ≠ .keep) :
    action.touched n = n :: nodesAmong action.values := by
  cases action with
  | keep => exact absurd rfl hne
  | replace v descend => rfl
  | splice values final => rfl
  | delete => rfl

theorem touched_append (calls more : List (Call ε Answer)) :
    touched (calls ++ more) = touched calls ++ touched more :=
  List.flatMap_append

theorem touched_singleton (hchose : Chose call action) :
    touched [call] = action.touched call.node := by
  obtain ⟨a, hanswer, haction⟩ := hchose
  simp [touched, hanswer, haction]

/-- Nodes that are not among `moved` stand in `g` where they stood in `f`, and all nodes have the
elements and the metadata that they had. -/
structure LeavesInPlace (moved : List NodeId) (f g : Forest) : Prop where
  size_le : f.size ≤ g.size
  parent?_eq (n : NodeId) (hn : n < f.size) (hm : n ∉ moved) : g.parent? n = f.parent? n
  order_eq (p : NodeId) (hp : p < f.size) :
    without (g.children p) moved = without (f.children p) moved
  element_eq (n : NodeId) (hn : n < f.size) : g.element n = f.element n
  metadata_eq (n : NodeId) (hn : n < f.size) : g.metadata n = f.metadata n

theorem without_without (hsub : moved ⊆ moved') (list : List NodeId) :
    without (without list moved) moved' = without list moved' := by
  rw [without, without, List.filter_filter]
  refine List.filter_congr fun n _ => ?_
  have hmem : n ∈ moved → n ∈ moved' := fun hn => hsub hn
  grind

theorem without_eq_nil {list : List NodeId} (hsub : list ⊆ moved) : without list moved = [] := by
  refine List.filter_eq_nil_iff.2 fun n hn => ?_
  simpa using hsub hn

namespace LeavesInPlace

theorem refl (moved : List NodeId) (f : Forest) : LeavesInPlace moved f f :=
  ⟨Nat.le_refl _, fun _ _ _ => rfl, fun _ _ => rfl, fun _ _ => rfl, fun _ _ => rfl⟩

theorem mono (hfg : LeavesInPlace moved f g) (hsub : moved ⊆ moved') :
    LeavesInPlace moved' f g where
  size_le := hfg.size_le
  parent?_eq n hn hm := hfg.parent?_eq n hn fun hmem => hm (hsub hmem)
  order_eq p hp := by
    rw [← without_without hsub (g.children p), hfg.order_eq p hp, without_without hsub]
  element_eq := hfg.element_eq
  metadata_eq := hfg.metadata_eq

theorem trans (hfg : LeavesInPlace moved f g) (hgh : LeavesInPlace moved g h) :
    LeavesInPlace moved f h where
  size_le := Nat.le_trans hfg.size_le hgh.size_le
  parent?_eq n hn hm := by
    have hng := Nat.lt_of_lt_of_le hn hfg.size_le
    exact (hgh.parent?_eq n hng hm).trans (hfg.parent?_eq n hn hm)
  order_eq p hp := by
    have hpg := Nat.lt_of_lt_of_le hp hfg.size_le
    exact (hgh.order_eq p hpg).trans (hfg.order_eq p hp)
  element_eq n hn := by
    have hng := Nat.lt_of_lt_of_le hn hfg.size_le
    exact (hgh.element_eq n hng).trans (hfg.element_eq n hn)
  metadata_eq n hn := by
    have hng := Nat.lt_of_lt_of_le hn hfg.size_le
    exact (hgh.metadata_eq n hng).trans (hfg.metadata_eq n hn)

end LeavesInPlace

theorem leavesInPlace_of_within (hf : f.WellFormed) (hfg : f.Within g) (moved : List NodeId) :
    LeavesInPlace moved f g where
  size_le := hfg.size_le
  parent?_eq _ hn _ := hfg.parent?_eq hn
  order_eq p hp := by rw [hfg.children_eq hp]
  element_eq _ hn := hfg.element_eq hf hn
  metadata_eq _ hn := hfg.metadata_eq hf hn

/-- New links leave elements and metadata alone. -/
theorem leavesInPlace_of_sameData (hdata : f.SameData g)
    (hparent : ∀ n, n ∉ moved → g.parent? n = f.parent? n)
    (horder : ∀ p, without (g.children p) moved = without (f.children p) moved) :
    LeavesInPlace moved f g where
  size_le := Nat.le_of_eq hdata.size_eq.symm
  parent?_eq n _ hm := hparent n hm
  order_eq p _ := horder p
  element_eq n _ := by
    rw [Forest.element, Forest.element, hdata.elementKey_eq, hdata.elements_eq]
  metadata_eq n _ := by
    rw [Forest.metadata, Forest.metadata, hdata.recordKey_eq, hdata.records_eq]

theorem leavesInPlace_detach (hf : f.WellFormed) (hn : n ∈ moved) :
    LeavesInPlace moved f (f.detach n) := by
  apply leavesInPlace_of_sameData (sameData_detach f n)
  · intro m hm
    rw [parent?_detach, if_neg (ne_of_mem_of_not_mem hn hm).symm]
  · intro p
    rw [children_detach hf, without, List.filter_filter]
    refine List.filter_congr fun m _ => ?_
    grind

theorem leavesInPlace_rootPlaced (hf : f.WellFormed) (hroot : n ≠ root → n ∈ moved) :
    LeavesInPlace moved f (rootPlaced f root n) := by
  unfold rootPlaced
  split
  · exact .refl moved f
  · rename_i hne
    exact leavesInPlace_detach hf (hroot hne)

theorem leavesInPlace_replaced {before after : List NodeId} (hf : f.WellFormed)
    (hlist : f.children p = before ++ c :: after) (hlt : ∀ k ∈ nodes, k < f.size)
    (hc : c ∈ moved) (hnodes : nodes ⊆ moved) :
    LeavesInPlace moved f (f.replaced p c before after nodes) := by
  apply leavesInPlace_of_sameData (sameData_replaced f p c before after nodes)
  · intro m hm
    have hmc : m ≠ c := (ne_of_mem_of_not_mem hc hm).symm
    rw [parent?_replaced hlt, if_neg fun hmn => hm (hnodes hmn), if_neg hmc]
  · intro q
    rw [children_replaced hf hlist]
    split
    · rename_i hq
      -- Left of the place and right of it nothing goes but what is named, and the rest is named.
      have hsplit (left right : List NodeId) :
          without (left ++ right) moved = without left moved ++ without right moved :=
        List.filter_append left right
      have hchild : without [c] moved = [] := without_eq_nil (by simpa using hc)
      calc without (without before nodes ++ nodes ++ without after nodes) moved
          = without before moved ++ without after moved := by
            rw [hsplit, hsplit, without_without hnodes, without_without hnodes,
              without_eq_nil hnodes, List.append_nil]
        _ = without (before ++ ([c] ++ after)) moved := by
            rw [hsplit, hsplit, hchild, List.nil_append]
        _ = without (f.children q) moved := by rw [hq, hlist, List.singleton_append]
    · exact without_without hnodes _

/-- A node that takes the place of the root is named by the action, unless it is the root itself. -/
theorem mem_touched_of_rootAction {descend : Bool}
    (haction : rootAction f root action = .ok (.node n, descend)) (hne : n ≠ root) :
    n ∈ action.touched root := by
  have hnamed : Value.node n ∈ action.values → n ∈ nodesAmong action.values := fun hmem =>
    List.mem_filterMap.2 ⟨.node n, hmem, rfl⟩
  cases action with
  | keep =>
      cases haction
      exact absurd rfl hne
  | replace v again =>
      cases haction
      exact List.mem_cons_of_mem root (hnamed List.mem_cons_self)
  | splice values final =>
      rcases values with _ | ⟨v, _ | ⟨w, values⟩⟩
      · cases haction
      · cases haction
        exact List.mem_cons_of_mem root (hnamed List.mem_cons_self)
      · cases haction
  | delete => cases haction

/-- Carrying out an action moves no node that the action does not reach for. -/
theorem Performed.leavesInPlace (hperformed : Performed root call action g)
    (hafter : call.after.WellFormed) (hknown : action.KnownIn call.after) :
    LeavesInPlace (action.touched call.node) call.after g ∧ g.WellFormed := by
  cases hperformed with
  | keep => exact ⟨.refl _ _, hafter⟩
  | @root _ new _ hnode haction =>
      rw [hnode]
      refine ⟨?_, wellFormed_rootPlaced hafter root new⟩
      exact leavesInPlace_rootPlaced hafter (mem_touched_of_rootAction haction)
  | @child _ p _ _ hnode hne hparent hreplaced =>
      obtain ⟨before, after, hlist⟩ := List.append_of_mem (hafter.mem_of_parent? hparent)
      obtain ⟨nodes, hvalues, hfit, hlt, -, rfl⟩ := replaceChild_ok hafter hlist hknown hreplaced
      refine ⟨?_, hafter.replaced hlist hfit hlt⟩
      rw [Action.touched_of_ne hne, hvalues, nodesAmong_map]
      exact leavesInPlace_replaced hafter hlist hlt List.mem_cons_self
        (List.subset_cons_self call.node nodes)

/-- Actions that are carried out one after the other. -/
theorem Applied.leavesInPlace (happlied : Applied root f calls g) (hf : f.WellFormed)
    (hharmless : ∀ call ∈ calls, Harmless call) :
    LeavesInPlace (touched calls) f g ∧ g.WellFormed := by
  induction happlied with
  | nil => exact ⟨.refl _ f, hf⟩
  | @snoc calls call action g _ hchose hperformed ih =>
      obtain ⟨hbefore, hwell⟩ := ih fun call hc => hharmless call (List.mem_append_left _ hc)
      have hcall := hharmless call (List.mem_append_right _ List.mem_cons_self)
      have hafter := hcall.wellFormed hwell
      obtain ⟨haction, hg⟩ := hperformed.leavesInPlace hafter (hcall.known action hchose)
      refine ⟨?_, hg⟩
      rw [touched_append, touched_singleton hchose]
      -- Calls before this one, the call, and what is done after it.
      exact ((hbefore.mono (List.subset_append_left _ _)).trans
        (leavesInPlace_of_within hwell hcall.within _)).trans
        (haction.mono (List.subset_append_right _ _))

theorem FailedAt.leavesInPlace (hfailed : FailedAt root f g calls) (hf : f.WellFormed)
    (hharmless : ∀ call ∈ calls, Harmless call) : LeavesInPlace (touched calls) f g := by
  obtain ⟨before, last, rfl, happlied, rfl⟩ := hfailed
  obtain ⟨hbefore, hwell⟩ := happlied.leavesInPlace hf fun call hc =>
    hharmless call (List.mem_append_left _ hc)
  have hlast := hharmless last (List.mem_append_right _ List.mem_cons_self)
  rw [touched_append]
  exact (hbefore.mono (List.subset_append_left _ _)).trans
    (leavesInPlace_of_within hwell hlast.within _)

theorem leavesInPlace_revise {steps : Nat} {s : σ} {t : σ × List (Call ε Answer)}
    {r : Except (Stop ε) NodeId} (hf : f.WellFormed) (hharmless : AllGood Harmless t)
    (hres : result (revise visit.traced steps root) f (s, []) = (r, g, t)) :
    LeavesInPlace (touched t.2) f g := by
  have hquiet : AllGood Quiet t := fun call hcall => (hharmless call hcall).quiet
  cases accounted_revise hf hquiet hres with
  | done _ happlied => exact (happlied.leavesInPlace hf hharmless).1
  | failed hfailed => exact hfailed.leavesInPlace hf hharmless

/-- Removes the second paragraph, and then answers about the third with what is no answer. -/
def faltering : Visitor Unit Empty := fun n f s =>
  (.ok (.value (if n = 1 then .null else if n = 2 then .bool true else .node n)), f, s)

def secondRemoved : Forest :=
  threeParagraphs.replaced 3 1 [0] [2] []

theorem passCalls_faltering :
    passCalls faltering 9 3 threeParagraphs () = [
      ⟨3, threeParagraphs, .ok (.value (.node 3)), threeParagraphs⟩,
      ⟨0, threeParagraphs, .ok (.value (.node 0)), threeParagraphs⟩,
      ⟨1, threeParagraphs, .ok (.value .null), threeParagraphs⟩,
      ⟨2, secondRemoved, .ok (.value (.bool true)), secondRemoved⟩] := rfl

theorem harmless_faltering :
    ∀ call ∈ passCalls faltering 9 3 threeParagraphs (), Harmless call := by
  have hkeep (n : NodeId) (f : Forest) :
      Harmless (⟨n, f, .ok (.value (.node n)), f⟩ : Call Empty Answer) :=
    harmless_of_same (knownIn_of_kept n f)
  have hremove : Harmless (⟨1, threeParagraphs, .ok (.value .null), threeParagraphs⟩ :
      Call Empty Answer) := by
    refine harmless_of_same fun action haction v hv => ?_
    cases haction
    exact absurd hv List.not_mem_nil
  have hfalter : Harmless (⟨2, secondRemoved, .ok (.value (.bool true)), secondRemoved⟩ :
      Call Empty Answer) := harmless_of_same nofun
  rw [passCalls_faltering]
  simp [hkeep, hremove, hfalter]

/-- If the visitor leaves the tree alone, then however a pass ends, each node that no action has
named and that was never answered with anything but keeping it has the parent that it had; such
nodes stand in the order in which they stood among the children of every node; and all elements and
metadata are as they were. -/
theorem untouched_stay_put (visit : Visitor σ ε) (steps : Nat) (root : NodeId) (f : Forest)
    (s : σ) (hf : f.WellFormed)
    (hharmless : ∀ call ∈ passCalls visit steps root f s, Harmless call) :
    LeavesInPlace (touched (passCalls visit steps root f s)) f
      (result (revise visit steps root) f s).2.1 := by
  obtain ⟨calls, hres⟩ := mirrors_revise visit steps root f s []
  have hcalls : passCalls visit steps root f s = calls := by
    rw [passCalls, Asking.calls, hres]
    rfl
  rw [hcalls] at hharmless ⊢
  exact leavesInPlace_revise (t := (_, calls)) hf hharmless hres

/-- The first paragraph stays before the third when the second is removed from between them,
although the pass fails at the third. -/
theorem untouched_stay_put_faltering :
    touched (passCalls faltering 9 3 threeParagraphs ()) = [1] ∧
      LeavesInPlace (touched (passCalls faltering 9 3 threeParagraphs ())) threeParagraphs
        (result (revise faltering 9 3) threeParagraphs ()).2.1 :=
  ⟨rfl, untouched_stay_put faltering 9 3 threeParagraphs () wellFormed_threeParagraphs
    harmless_faltering⟩

end MarkdownTree.Revision
