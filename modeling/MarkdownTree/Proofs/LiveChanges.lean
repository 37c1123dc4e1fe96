import MarkdownTree.Proofs.LivePasses

/-!
Passes whose visitors may reply with lists change the forest only as they may, wherever they stop,
if their visitors do. Besides what a pass over answers does, they put the children of a node in the
place of another, read from their own list all along.
-/

namespace MarkdownTree.Revision

open Forest Asking

variable {σ ε : Type} {visit : Responder σ ε} {fine : σ → Prop} {ok : Forest → Prop}
  {may : Forest → Forest → Prop} {here named : Forest → NodeId → Prop} {f : Forest}

/-- The nodes that a decision puts in the place of a node, or the node whose children it puts there,
are of some kind. -/
def Decision.Names (named : NodeId → Prop) : Decision → Prop
  | .act a => a.Names named
  | .spliceChildren n _ => named n

/-- A pass may make its own changes, those with the children of a node that it may name included. -/
structure AllowsLists (ok : Forest → Prop) (may : Forest → Forest → Prop)
    (here named : Forest → NodeId → Prop) : Prop extends Allows ok may here named where
  replaceByChildren {f : Forest} {p c n : NodeId} (rounds : Nat) (hf : ok f) (hp : here f p)
    (hn : named f n) : may f (outcome (replaceByChildren rounds p (.node c) n) f).2

namespace Live

/-- What is asked of a visitor that may reply with lists. -/
def Heeds (ok : Forest → Prop) (may : Forest → Forest → Prop) (here named : Forest → NodeId → Prop)
    (fine : σ → Prop) (visit : Responder σ ε) : Prop :=
  ∀ n f s r g t, visit n f s = (r, g, t) → fine t → fine s ∧ (ok f → here f n → may f g ∧
    ∀ reply decision, r = .ok reply → reply.toDecision n = .ok decision →
      decision.Names (named g))

variable (h : AllowsLists ok may here named) (rounds : Nat)

include h

/-- A node that comes to stand in the place of the root is one that was named, or a child of one. -/
theorem here_of_mem_values {new : NodeId} {decision : Decision} (hf : ok f)
    (hnames : decision.Names (named f)) (hnew : .node new ∈ (decision.settle f).values) :
    here f new := by
  cases decision with
  | act a => exact h.here_of_named (hnames (.node new) hnew new rfl)
  | spliceChildren n final =>
      obtain ⟨c, hc, heq⟩ := List.mem_map.1 hnew
      cases heq
      exact h.here_of_mem hf (h.here_of_named hnames) hc

theorem obeys_replaceByChildren (rounds p c n : NodeId) (stack : List Frame) :
    Obeys ok may fine (fun f => here f p ∧ named f n ∧ StackAt (here f) stack)
      (edit (replaceByChildren rounds p (.node c) n) : Pass σ ε (Option Nat))
      fun _ f => StackAt (here f) stack := by
  refine obeys_edit fun f hf hpre => ?_
  have hfg := h.replaceByChildren (c := c) rounds hf hpre.1 hpre.2.1
  exact ⟨hfg, fun _ _ => hpre.2.2.later h.toAllows hfg⟩

theorem obeys_spliceChildren (p : Progress) (place : Frame) (c n : NodeId) (final : Finality) :
    Obeys ok may fine (fun f => here f place.node ∧ named f n ∧ StackAt (here f) p.stack)
      (spliceChildren rounds p place c n final : Pass σ ε Progress)
      fun q f => StackAt (here f) q.stack := by
  refine .bind h.allowance (.forest h.allowance) fun f =>
    .bind h.allowance (.forest h.allowance) fun g =>
      .bind h.allowance (obeys_attempt h.allowance _) fun left =>
        .bind h.allowance ((obeys_replaceByChildren h rounds place.node c n p.stack).of_pre
          fun k _ hpre => ?_) fun index => ?_
  · obtain ⟨-, rfl, -, rfl, -, hpre⟩ := hpre
    exact hpre
  · cases index with
    | none => exact .throw h.allowance
    | some i =>
        refine .bind h.allowance (.forest h.allowance) fun k =>
          .pure h.allowance fun m _ hpre => ?_
        obtain ⟨rfl, -, hstack⟩ := hpre
        exact (StackAt.shift hstack left).setNext i

theorem obeys_carryOut (p : Progress) (place : Frame) (c : NodeId) (decision : Decision) :
    Obeys ok may fine
      (fun f => (here f place.node ∧ here f c ∧ StackAt (here f) p.stack) ∧
        decision.Names (named f))
      (carryOut rounds p place c decision : Pass σ ε Progress)
      fun q f => StackAt (here f) q.stack := by
  cases decision with
  | act a => exact Revision.obeys_carryOut h.toAllows p place c a
  | spliceChildren n final =>
      exact (obeys_spliceChildren h rounds p place c n final).of_pre fun f _ hpre =>
        ⟨hpre.1.1, hpre.2, hpre.1.2.2⟩

variable (hvisit : Heeds ok may here named fine visit)

include hvisit

theorem obeys_consult (n : NodeId) (offered : List NodeId) :
    Obeys ok may fine (here · n) (consult visit n offered)
      fun answer f => answer.1.Names (named f) := by
  unfold consult
  split
  · exact .pure h.allowance fun _ _ _ v hv => absurd hv List.not_mem_nil
  · have hask : Obeys ok may fine (here · n) (visit.ask Stop.visitor n) fun reply f =>
        ∀ decision, reply.toDecision n = .ok decision → decision.Names (named f) := by
      refine .ask fun f s r g t hcall ht => ?_
      obtain ⟨hs, hchange⟩ := hvisit n f s r g t hcall ht
      refine ⟨hs, fun hf hn => ?_⟩
      obtain ⟨hfg, hnames⟩ := hchange hf hn
      exact ⟨hfg, fun reply hreply decision => hnames reply decision hreply⟩
    exact .bind h.allowance hask fun reply =>
      .bind h.allowance (obeys_attempt h.allowance (reply.toDecision n)) fun decision =>
        .pure h.allowance fun f _ hpre => hpre.2 decision hpre.1

theorem obeys_handleChild (p : Progress) (place : Frame) (c : NodeId) :
    Obeys ok may fine (fun f => here f place.node ∧ here f c ∧ StackAt (here f) p.stack)
      (handleChild visit rounds p place c) fun q f => StackAt (here f) q.stack := by
  unfold handleChild
  split
  · exact .pure h.allowance fun _ _ hpre => hpre.2.2.setNext _
  · have hlater (f g : Forest) (hfg : may f g)
        (hpre : here f place.node ∧ here f c ∧ StackAt (here f) p.stack) :
        here g place.node ∧ here g c ∧ StackAt (here g) p.stack :=
      ⟨h.here_of_may hfg hpre.1, h.here_of_may hfg hpre.2.1, hpre.2.2.later h.toAllows hfg⟩
    refine .bind h.allowance (((obeys_consult h hvisit c p.offered).frame hlater).of_pre
      fun _ _ hpre => ⟨hpre.2.1, hpre⟩) fun answer => ?_
    exact (obeys_carryOut h rounds { p with offered := answer.2 } place c answer.1).of_pre
      fun _ _ hpre => ⟨hpre.2, hpre.1⟩

theorem obeys_step (p : Progress) :
    Obeys ok may fine (fun f => StackAt (here f) p.stack) (step visit rounds p)
      fun q f => StackAt (here f) q.stack := by
  unfold step
  rcases hp : p.stack with _ | ⟨place, rest⟩
  · exact .pure h.allowance fun _ _ hstack => hp ▸ hstack
  · refine .bind h.allowance (.forest h.allowance) fun f => ?_
    rcases hc : (f.children place.node)[place.next]? with _ | c
    · refine .pure h.allowance fun g _ hpre frame hframe => ?_
      obtain ⟨rfl, -, hstack⟩ := hpre
      exact hstack frame (List.mem_cons_of_mem place hframe)
    · refine (obeys_handleChild h rounds hvisit p place c).of_pre fun g _ hpre => ?_
      obtain ⟨rfl, hf, hstack⟩ := hpre
      have hplace := hstack place List.mem_cons_self
      exact ⟨hplace, h.here_of_mem hf hplace (List.mem_of_getElem? hc), hp ▸ hstack⟩

theorem obeys_finish (steps : Nat) (p : Progress) :
    Obeys ok may fine (fun f => StackAt (here f) p.stack) (finish visit rounds steps p)
      fun _ _ => True := by
  induction steps generalizing p with
  | zero =>
      unfold finish
      split
      · exact .pure h.allowance fun _ _ _ => trivial
      · exact .throw h.allowance
  | succ steps ih =>
      unfold finish
      split
      · exact .pure h.allowance fun _ _ _ => trivial
      · exact .bind h.allowance (obeys_step h rounds hvisit p) fun q => ih q

theorem obeys_reviseAt (steps : Nat) (root new : NodeId) (descend : Bool) (offered : List NodeId) :
    Obeys ok may fine (here · new) (reviseAt visit rounds steps root new descend offered)
      fun r f => here f r := by
  refine .bind h.allowance (obeys_takePlace h.toAllows root new offered) fun offered => ?_
  cases descend with
  | true =>
      have hfinish := (obeys_finish h rounds hvisit steps ⟨[⟨new, 0⟩], offered, []⟩).frame
        fun f g hfg (hn : here f new) => h.here_of_may hfg hn
      refine .bind h.allowance (hfinish.of_pre fun f _ hn => ⟨fun frame hframe => ?_, hn⟩) fun _ =>
        .pure h.allowance fun _ _ hpre => hpre.2
      rw [List.mem_singleton.1 hframe]
      exact hn
  | false => exact .pure h.allowance fun _ _ hn => hn

/-- A pass changes the forest as it may, wherever it stops. -/
theorem obeys_revise (steps : Nat) (root : NodeId) :
    Obeys ok may fine (here · root) (revise visit rounds steps root) fun r f => here f r := by
  have hconsult := (obeys_consult h hvisit root []).keep fun f g hfg => h.here_of_may hfg
  refine .bind h.allowance hconsult fun answer =>
    .bind h.allowance (.forest h.allowance) fun f => ?_
  refine .bind h.allowance (obeys_attempt h.allowance _) fun chosen => ?_
  obtain ⟨v, descend⟩ := chosen
  cases v with
  | node new =>
      refine (obeys_reviseAt h rounds hvisit steps root new descend answer.2).of_pre fun g hg hpre => ?_
      obtain ⟨hroot, rfl, -, hnames, hn⟩ := hpre
      rcases rootAction_node hroot with rfl | hnew
      · exact hn
      · exact here_of_mem_values h hg hnames hnew
  | _ => exact .throw h.allowance

omit hvisit in
/-- A pass changes the forest as it may if every call of its visitor does. -/
theorem may_revise_of_calls {s : σ} {steps : Nat} {root : NodeId} (hf : ok f) (hroot : here f root)
    (hcalls : ∀ call ∈ passCalls visit rounds steps root f s,
      ok call.before → here call.before call.node →
        may call.before call.after ∧ ∀ reply decision, call.answer = .ok reply →
          reply.toDecision call.node = .ok decision → decision.Names (named call.after)) :
    may f (result (revise visit rounds steps root) f s).2.1 := by
  have hvisit : Heeds ok may here named
      (AllGood fun call => ok call.before → here call.before call.node →
        may call.before call.after ∧ ∀ reply decision, call.answer = .ok reply →
          reply.toDecision call.node = .ok decision → decision.Names (named call.after))
      visit.traced :=
    fun _ _ _ _ _ _ hcall ht => Callback.allGood_traced hcall ht
  exact ((obeys_revise h rounds hvisit steps root).of_calls
    (mirrors_revise visit rounds steps root) hf hroot hcalls).1

end Live

end MarkdownTree.Revision
