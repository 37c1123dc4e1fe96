import MarkdownTree.Proofs.OfferedOnce

/-!
What a single step of a pass can do, said once for all invariants: it closes the innermost place, or
it deals with the child there, which is passed over, met again, or offered to the visitor. What
becomes of a child that is offered is told by `Carried`. Throughout, the open places lie below each
other, which no quiet visitor and no answer of one can change.
-/

namespace MarkdownTree.Revision

open Forest Asking

variable {σ ε : Type} {visit : Visitor σ ε} {f g : Forest} {c k m n p top : NodeId}
  {nodes : List NodeId} {calls : List (Call ε Answer)} {progress progress' : Progress}
  {place : Frame} {rest : List Frame} {action : Action}

/-- The places of a pass are all the nodes between the root and the innermost place. -/
theorem Chain.mem_of_between (hf : f.WellFormed) (hchain : Chain f top (n :: nodes))
    (htop : f.AtOrAbove top m) (hm : f.AtOrAbove m n) : m ∈ n :: nodes := by
  induction nodes generalizing n with
  | nil =>
      rcases hm with rfl | hm
      · exact List.mem_cons_self
      · have hroot : n = top := hchain
        rw [← hroot] at htop
        exact absurd (htop.trans_ancestor hm) (hf.not_ancestor_self n)
  | cons above nodes ih =>
      rcases hm with rfl | hm
      · exact List.mem_cons_self
      · obtain ⟨q, hq, hmq⟩ := ancestor_iff_parent.1 hm
        rw [hchain.1] at hq
        cases hq
        exact List.mem_cons_of_mem n (ih hchain.2 hmq)

/-- A change that moves nothing over the innermost place puts nothing else over the root. -/
theorem Standing.ancestor_top_iff (h : Standing top progress f)
    (hstack : progress.stack = place :: rest)
    (hparent : ∀ n, f.AtOrAbove n place.node → g.parent? n = f.parent? n) :
    g.Ancestor n top ↔ f.Ancestor n top :=
  ancestor_iff_of_parent?_eq hparent (h.top_over hstack)

/-- The nodes at which an action opens a place. -/
def Action.Opens (child n : NodeId) : Action → Prop
  | .keep => n = child
  | .replace v descend => v = .node n ∧ descend = true
  | .splice .. | .delete => False

def Action.finals : Action → List NodeId
  | .splice values final => (nodesAmong values).filter (final.nodes values).contains
  | _ => []

/-- What an action makes final, it names. -/
theorem Action.finals_subset : action.finals ⊆ nodesAmong action.values := by
  cases action with
  | splice values final => exact List.filter_subset_self _
  | _ => exact List.nil_subset _

/-- An action that makes a node final opens no place. -/
theorem Action.not_opens_of_mem_finals (hm : m ∈ action.finals) : ¬ action.Opens c n := by
  cases action with
  | splice values final => exact id
  | _ => exact absurd hm List.not_mem_nil

/-- What carrying out an action leaves of the progress of a pass. -/
structure Recorded (action : Action) (child : NodeId) (progress progress' : Progress) : Prop where
  offered : progress.offered ⊆ progress'.offered
  final : progress'.final = action.finals ++ progress.final
  stack : progress'.stack.map (·.node) = progress.stack.map (·.node) ∨
    ∃ n, action.Opens child n ∧ progress'.stack.map (·.node) = n :: progress.stack.map (·.node)

/-- A place that is open afterwards was open before, or the action has opened it. -/
theorem Recorded.open_or (h : Recorded action c progress progress')
    (hn : n ∈ progress'.stack.map (·.node)) :
    n ∈ progress.stack.map (·.node) ∨ action.Opens c n := by
  rcases h.stack with heq | ⟨k, hopens, heq⟩
  · exact Or.inl (heq ▸ hn)
  · rw [heq] at hn
    rcases List.mem_cons.1 hn with rfl | hn
    · exact Or.inr hopens
    · exact Or.inl hn

/-- What carrying out an action does to the forest: a child that is kept changes nothing, and
otherwise nodes that fit are put in its place. -/
inductive Changed (p c : NodeId) (f : Forest) : Action → Forest → Prop
  | keep : Changed p c f .keep f
  | put {action : Action} {before after nodes : List NodeId} (hne : action ≠ .keep)
      (hvalues : action.values = nodes.map .node) (hlist : f.children p = before ++ c :: after)
      (hfit : f.AllFit p nodes) (hlt : ∀ k ∈ nodes, k < f.size) :
      Changed p c f action (f.replaced p c before after nodes)

namespace Changed

variable (hchanged : Changed p c f action g) (hf : f.WellFormed)

include hchanged hf

theorem wellFormed : g.WellFormed := by
  cases hchanged with
  | keep => exact hf
  | put _ _ hlist hfit hlt => exact hf.replaced hlist hfit hlt

/-- Nothing over the place moves. -/
theorem parent?_eq (hn : f.AtOrAbove n p) : g.parent? n = f.parent? n := by
  cases hchanged with
  | keep => rfl
  | put _ _ hlist hfit hlt => exact parent?_replaced_of_over hf hlist hfit hlt hn

omit hf in
/-- No node that comes in is over the place. -/
theorem not_over (hn : n ∈ nodesAmong action.values) : ¬ f.AtOrAbove n p := by
  cases hchanged with
  | keep => exact absurd hn List.not_mem_nil
  | put _ hvalues _ hfit _ =>
      rw [hvalues, nodesAmong_map] at hn
      exact (hfit.fits n hn).not_over

omit hf in
/-- A node at which a place is opened has come to stand below the place before. -/
theorem parent?_of_opens (hc : f.parent? c = some p) (hopens : action.Opens c n) :
    g.parent? n = some p := by
  cases hchanged with
  | keep =>
      cases hopens
      exact hc
  | @put _ before after nodes hne hvalues hlist hfit hlt =>
      cases action with
      | keep => exact absurd rfl hne
      | replace v descend =>
          obtain ⟨rfl, -⟩ := hopens
          have hn : n ∈ nodes := by
            obtain ⟨k, rfl, hk⟩ := List.map_eq_singleton_iff.1 hvalues.symm
            cases hk
            exact List.mem_cons_self
          rw [parent?_replaced hlt, if_pos hn]
      | splice values final => exact hopens.elim
      | delete => exact hopens.elim

end Changed

theorem map_node_placesAfter (left : List (NodeId × Nat)) (place : Frame) (next : Nat)
    (rest : List Frame) :
    (placesAfter left place.node next rest).map (·.node) = (place :: rest).map (·.node) := by
  rw [placesAfter, List.map_cons, List.map_cons, List.map_map]
  rfl

namespace Carried

variable (h : Carried progress place rest c f action progress' g)

include h

theorem recorded (hstack : progress.stack = place :: rest) :
    Recorded action c progress progress' := by
  cases h with
  | keep =>
      refine ⟨List.Subset.refl _, rfl, ?_⟩
      rw [hstack]
      exact (map_node_descendInto f c _).imp id fun heq => ⟨c, rfl, heq⟩
  | @replace before after n descend left stack hfitting hplaces =>
      have hnodes : stack.map (·.node) = progress.stack.map (·.node) := by
        rw [hplaces, hstack, map_node_placesAfter]
      refine ⟨List.subset_cons_self n _, rfl, ?_⟩
      cases descend with
      | true =>
          have hopened := map_node_descendInto (f.replaced place.node c before after [n]) n stack
          rw [hnodes] at hopened
          simp only [if_true]
          exact hopened.imp id fun heq => ⟨n, ⟨rfl, rfl⟩, heq⟩
      | false =>
          simp only [Bool.false_eq_true, if_false]
          exact Or.inl hnodes
  | @splice before after nodes final left hfitting =>
      refine ⟨List.Subset.refl _, ?_, Or.inl ?_⟩
      · rw [Action.finals, nodesAmong_map]
      · rw [hstack, map_node_placesAfter]
  | delete hfitting =>
      refine ⟨List.Subset.refl _, rfl, Or.inl ?_⟩
      rw [hstack, map_node_placesAfter]

theorem changed : Changed place.node c f action g := by
  cases h with
  | keep => exact .keep
  | replace hfitting _ => exact .put nofun rfl hfitting.list hfitting.fit hfitting.lt_size
  | splice hfitting => exact .put nofun rfl hfitting.list hfitting.fit hfitting.lt_size
  | delete hfitting => exact .put nofun rfl hfitting.list hfitting.fit hfitting.lt_size

end Carried

/-- What a step of a watched pass does that goes on. -/
inductive Moves (progress : Progress) (f : Forest) (calls : List (Call ε Answer)) :
    Progress → Forest → List (Call ε Answer) → Prop
  | close {place : Frame} {rest : List Frame} (hstack : progress.stack = place :: rest)
      (hend : (f.children place.node)[place.next]? = none) :
      Moves progress f calls { progress with stack := rest } f calls
  | passOver {place : Frame} {rest : List Frame} {c : NodeId}
      (hstack : progress.stack = place :: rest)
      (hc : (f.children place.node)[place.next]? = some c) (hfinal : c ∈ progress.final) :
      Moves progress f calls
        { progress with stack := { place with next := place.next + 1 } :: rest } f calls
  | meet {place : Frame} {rest : List Frame} {c : NodeId}
      (hstack : progress.stack = place :: rest)
      (hc : (f.children place.node)[place.next]? = some c) (hfinal : c ∉ progress.final)
      (hoffered : c ∈ progress.offered) :
      Moves progress f calls
        { progress with
          stack := descendInto f c ({ place with next := place.next + 1 } :: rest) } f calls
  | act {place : Frame} {rest : List Frame} {c : NodeId} {a : Answer} {action : Action}
      {g h : Forest} {progress' : Progress} (hstack : progress.stack = place :: rest)
      (hc : (f.children place.node)[place.next]? = some c) (hfinal : c ∉ progress.final)
      (hoffered : c ∉ progress.offered) (hquiet : Quiet (⟨c, f, .ok a, g⟩ : Call ε Answer))
      (haction : a.toAction c = .ok action)
      (hcarried : Carried { progress with offered := c :: progress.offered } place rest c g action
        progress' h) :
      Moves progress f calls progress' h (calls ++ [⟨c, f, .ok a, g⟩])

/-- The call that a step makes, if it makes one: it is about the child at the innermost place, which
is not final and was not offered before. -/
theorem calls_step {s t : σ × List (Call ε Answer)} {r : Except (Stop ε) Progress}
    (hres : result (step visit.traced progress) f s = (r, g, t)) :
    t.2 = s.2 ∨ ∃ place rest c a f', progress.stack = place :: rest ∧
      (f.children place.node)[place.next]? = some c ∧ c ∉ progress.final ∧ c ∉ progress.offered ∧
      t.2 = s.2 ++ [⟨c, f, a, f'⟩] := by
  rcases hstack : progress.stack with _ | ⟨place, rest⟩
  · unfold step at hres
    rw [hstack] at hres
    cases hres
    exact Or.inl rfl
  cases stepped_of_result hstack hres with
  | close => exact Or.inl rfl
  | passOver => exact Or.inl rfl
  | meet => exact Or.inl rfl
  | stop hc hfinal hoffered =>
      exact Or.inr ⟨place, rest, _, _, _, rfl, hc, hfinal, hoffered, rfl⟩
  | act hc hfinal hoffered =>
      exact Or.inr ⟨place, rest, _, _, _, rfl, hc, hfinal, hoffered, rfl⟩

/-- A step that goes on does one of the things that a step can do. -/
theorem Standing.moves {s t : σ × List (Call ε Answer)} (h : Standing top progress f)
    (hstack : progress.stack = place :: rest) (hquiet : AllGood Quiet t)
    (hres : result (step visit.traced progress) f s = (.ok progress', g, t)) :
    Moves progress f s.2 progress' g t.2 := by
  cases stepped_of_result hstack hres with
  | close hend => exact .close hstack hend
  | passOver hc hfinal => exact .passOver hstack hc hfinal
  | meet hc hfinal hoffered => exact .meet hstack hc hfinal hoffered
  | @act c a action g₁ _ _ _ hc hfinal hoffered _ haction hcarry =>
      have hq : Quiet (⟨c, f, .ok a, g₁⟩ : Call ε Answer) :=
        hquiet _ (List.mem_append_right _ List.mem_cons_self)
      have hasked := h.ask hstack (lt_size_of_mem_children (List.mem_of_getElem? hc)) hq
      have hcarried : Carried { progress with offered := c :: progress.offered } place rest c g₁
          action progress' g :=
        carried_of_ok hasked.wellFormed hstack (hasked.nodup hstack)
          (List.mem_of_getElem? (hq.getElem?_children hc))
          (hq.known action (chose_ok_iff.2 haction)) hcarry
      exact .act hstack hc hfinal hoffered hq haction hcarried

/-- The places still lie below each other after a step. -/
theorem Standing.step {calls' : List (Call ε Answer)} (h : Standing top progress f)
    (hmoves : Moves progress f calls progress' g calls') : Standing top progress' g := by
  cases hmoves with
  | close hstack _ => exact ⟨h.wellFormed, (h.chain_cons hstack).tail⟩
  | passOver hstack _ _ =>
      have hchain := h.chain_cons hstack
      exact ⟨h.wellFormed, hchain⟩
  | meet hstack hc _ _ =>
      have hparent := h.wellFormed.parent?_of_mem (List.mem_of_getElem? hc)
      exact ⟨h.wellFormed, (h.chain_cons hstack).descendInto hparent rfl⟩
  | @act place rest c a action g _ _ hstack hc _ _ hquiet _ hcarried =>
      have hrecorded := hcarried.recorded hstack
      have hchanged := hcarried.changed
      have hasked := h.ask hstack (lt_size_of_mem_children (List.mem_of_getElem? hc)) hquiet
      have hg := hasked.wellFormed
      have hmem := List.mem_of_getElem? (hquiet.getElem?_children hc)
      have hchain := hasked.chain_of_parent?_eq hstack fun n hn => hchanged.parent?_eq hg hn
      refine ⟨hchanged.wellFormed hg, ?_⟩
      rcases hrecorded.stack with heq | ⟨n, hopens, heq⟩
      · rw [heq]
        exact hchain
      · rw [hstack] at heq hchain
        rw [heq]
        exact ⟨hchanged.parent?_of_opens (hg.parent?_of_mem hmem) hopens, hchain⟩

end MarkdownTree.Revision
