import MarkdownTree.Proofs.PassSteps

/-!
Nodes that a splice makes final. Such a node is never offered from then on. A node below it is
offered only if a later answer puts the final node itself in the place of another and asks to go on
below it; nothing else opens a place at a final node. The invariant says of each final node that it
is not over the root of the pass, and that it is among the open places only after such an answer.
-/

namespace MarkdownTree.Revision

open Forest Asking

variable {σ ε : Type} {visit : Visitor σ ε} {f g : Forest} {c m n new root top : NodeId}
  {call : Call ε Answer} {calls calls' : List (Call ε Answer)} {progress progress' : Progress}
  {place : Frame} {rest : List Frame} {action : Action}

/-- A call is answered by a splice that makes a node final. -/
def Seals (call : Call ε Answer) (m : NodeId) : Prop :=
  ∃ action, Chose call action ∧ m ∈ action.finals

/-- A call is answered by putting a node in place and going on below it. -/
def Reopens (call : Call ε Answer) (m : NodeId) : Prop :=
  Chose call (.replace (.node m) true)

/-- After a node was made final it is not offered, and what lies below it is not offered either
unless the node was opened again in the meantime. -/
def Heeded (calls : List (Call ε Answer)) : Prop :=
  ∀ before call between later after m, calls = before ++ call :: (between ++ later :: after) →
    Seals call m → later.node ≠ m ∧
      (later.before.Ancestor m later.node → ∃ k ∈ between, Reopens k m)

theorem Seals.mem_finals (hseals : Seals call m) (hchose : Chose call action) :
    m ∈ action.finals := by
  obtain ⟨action', hchose', hm⟩ := hseals
  exact hchose'.unique hchose ▸ hm

/-- A place that an answer opens elsewhere than at the node it is about is at a node that it puts in
place. -/
theorem reopens_of_opens (hchose : Chose call action) (hopens : action.Opens call.node m)
    (hne : m ≠ call.node) : Reopens call m := by
  cases action with
  | keep => exact absurd hopens hne
  | replace v descend =>
      obtain ⟨rfl, rfl⟩ := hopens
      exact hchose
  | splice values final => exact hopens.elim
  | delete => exact hopens.elim

theorem split_concat {α : Type} {xs before after : List α} {x y : α}
    (h : xs ++ [x] = before ++ y :: after) :
    (xs = before ∧ x = y ∧ after = []) ∨
      ∃ more, after = more ++ [x] ∧ xs = before ++ y :: more := by
  rcases List.eq_nil_or_concat after with rfl | ⟨more, z, rfl⟩
  · obtain ⟨rfl, hxy⟩ := List.append_inj' h rfl
    exact Or.inl ⟨rfl, List.singleton_inj.1 hxy, rfl⟩
  · have hmore : xs ++ [x] = (before ++ y :: more) ++ [z] := by simpa using h
    obtain ⟨rfl, hxz⟩ := List.append_inj' hmore rfl
    obtain rfl := List.singleton_inj.1 hxz
    exact Or.inr ⟨more, List.concat_eq_append, rfl⟩

/-- What an action makes final is not over the root of the pass, and no place is open there. -/
theorem Standing.sealed_of_finals (h : Standing top progress f)
    (hstack : progress.stack = place :: rest) (hrecorded : Recorded action c progress progress')
    (hchanged : Changed place.node c f action g) (hm : m ∈ action.finals) :
    ¬ g.Ancestor m top ∧ m ∉ progress'.stack.map (·.node) := by
  have hnot := hchanged.not_over (Action.finals_subset hm)
  refine ⟨fun hmt => hnot ?_, fun hms => ?_⟩
  · have hcarry : g.Ancestor m top ↔ f.Ancestor m top :=
      h.ancestor_top_iff hstack fun n hn => hchanged.parent?_eq h.wellFormed hn
    exact ((hcarry.1 hmt).trans_atOrAbove (h.top_over hstack)).atOrAbove
  · rcases hrecorded.open_or hms with hold | hopens
    · exact hnot (h.over_place hstack hold)
    · exact Action.not_opens_of_mem_finals hm hopens

/-- What holds of the final nodes at each step of a pass whose result has the root `top`. -/
structure Sealing (top : NodeId) (progress : Progress) (f : Forest)
    (calls : List (Call ε Answer)) : Prop where
  standing : Standing top progress f
  sealed : ∀ before call after m, calls = before ++ call :: after → Seals call m →
    m ∈ progress.final ∧ ¬ f.Ancestor m top ∧
      (m ∈ progress.stack.map (·.node) → ∃ k ∈ after, Reopens k m)
  heeded : Heeded calls

namespace Sealing

variable (h : Sealing top progress f calls)

include h

/-- A child that is offered is not final, and it is below a final node only if that is among the
open places. -/
theorem offer (hstack : progress.stack = place :: rest)
    (hc : (f.children place.node)[place.next]? = some c) (hfinal : c ∉ progress.final)
    (answer : Except ε Answer) (g : Forest) : Heeded (calls ++ [⟨c, f, answer, g⟩]) := by
  intro before call between later after m hsplit hseals
  have hcons : before ++ call :: (between ++ later :: after) =
      (before ++ call :: between) ++ later :: after := by simp
  rw [hcons] at hsplit
  rcases split_concat hsplit with ⟨hcalls, rfl, rfl⟩ | ⟨more, rfl, hcalls⟩
  · obtain ⟨hmfinal, hmtop, hmstack⟩ := h.sealed before call between m hcalls hseals
    refine ⟨?_, fun hmc => hmstack ?_⟩
    · rintro rfl
      exact hfinal hmfinal
    have hf := h.standing.wellFormed
    obtain ⟨p, hp, hmp⟩ := ancestor_iff_parent.1 hmc
    rw [hf.parent?_of_mem (List.mem_of_getElem? hc)] at hp
    cases hp
    have htop : f.AtOrAbove top m := by
      rcases hmp.linear (h.standing.top_over hstack) with (rfl | hmt) | htm
      · exact .refl f m
      · exact absurd hmt hmtop
      · exact htm
    rw [hstack]
    exact (h.standing.chain_cons hstack).mem_of_between hf htop hmp
  · exact h.heeded before call between later more m (by simp [hcalls]) hseals

/-- Progress without a call keeps the invariant if it opens no final node. -/
theorem walk (hstanding : Standing top progress' f) (hfinal : progress'.final = progress.final)
    (hopened : ∀ n ∈ progress'.stack.map (·.node),
      n ∈ progress.stack.map (·.node) ∨ n ∉ progress.final) :
    Sealing top progress' f calls := by
  refine ⟨hstanding, fun before call after m hsplit hseals => ?_, h.heeded⟩
  obtain ⟨hmfinal, hmtop, hmstack⟩ := h.sealed before call after m hsplit hseals
  refine ⟨hfinal ▸ hmfinal, hmtop, fun hm => hmstack ?_⟩
  exact (hopened m hm).resolve_right fun hno => hno hmfinal

/-- Carrying out the answer about a child keeps the invariant: a node that the answer makes final
fits, so it is not over the innermost place, and only a replacement that asks for it opens a place
at a node that was final before. -/
theorem act {a : Answer} {f' : Forest} (hstack : progress.stack = place :: rest)
    (hc : (f.children place.node)[place.next]? = some c) (hfinal : c ∉ progress.final)
    (hquiet : Quiet (⟨c, f, .ok a, f'⟩ : Call ε Answer)) (haction : a.toAction c = .ok action)
    (hcarried : Carried { progress with offered := c :: progress.offered } place rest c f' action
      progress' g) (hstanding : Standing top progress' g) :
    Sealing top progress' g (calls ++ [⟨c, f, .ok a, f'⟩]) := by
  have hplace := lt_size_of_mem_children (List.mem_of_getElem? hc)
  have hasked := h.standing.ask hstack hplace hquiet
  have hrecorded := hcarried.recorded hstack
  have hchanged := hcarried.changed
  have hchose : Chose (⟨c, f, .ok a, f'⟩ : Call ε Answer) action := chose_ok_iff.2 haction
  refine ⟨hstanding, fun before call after m hsplit hseals => ?_, h.offer hstack hc hfinal _ _⟩
  rw [hrecorded.final]
  -- The call that made the node final is this one or an earlier one.
  rcases split_concat hsplit with ⟨-, rfl, rfl⟩ | ⟨more, rfl, hcalls⟩
  · have hm := hseals.mem_finals hchose
    obtain ⟨hmtop, hmstack⟩ := hasked.sealed_of_finals hstack hrecorded hchanged hm
    exact ⟨List.mem_append_left _ hm, hmtop, fun hms => absurd hms hmstack⟩
  · obtain ⟨hmfinal, hmtop, hmstack⟩ := h.sealed before call more m hcalls hseals
    refine ⟨List.mem_append_right _ hmfinal, fun hm => hmtop ?_, fun hms => ?_⟩
    · have hcarry : g.Ancestor m top ↔ f'.Ancestor m top :=
        hasked.ancestor_top_iff hstack fun n hn => hchanged.parent?_eq hasked.wellFormed hn
      have hcall : f'.Ancestor m top ↔ f.Ancestor m top :=
        h.standing.ancestor_top_iff hstack fun n hn =>
          hquiet.parent?_of_over h.standing.wellFormed hplace hn
      exact hcall.1 (hcarry.1 hm)
    · rcases hrecorded.open_or hms with hold | hopens
      · obtain ⟨k, hk, hreopens⟩ := hmstack hold
        exact ⟨k, List.mem_append_left _ hk, hreopens⟩
      · have hmc : m ≠ c := fun hmc => hfinal (hmc ▸ hmfinal)
        exact ⟨_, List.mem_append_right _ List.mem_cons_self, reopens_of_opens hchose hopens hmc⟩

theorem step (hmoves : Moves progress f calls progress' g calls') :
    Sealing top progress' g calls' := by
  have hstanding := h.standing.step hmoves
  cases hmoves with
  | close hstack _ =>
      refine h.walk hstanding rfl fun n hn => Or.inl ?_
      rw [hstack]
      exact List.mem_cons_of_mem _ hn
  | passOver hstack _ _ =>
      refine h.walk hstanding rfl fun n hn => Or.inl ?_
      rw [hstack]
      exact hn
  | @meet place rest c hstack _ hfinal _ =>
      refine h.walk hstanding rfl fun n hn => ?_
      rw [hstack]
      rcases map_node_descendInto f c ({ place with next := place.next + 1 } :: rest) with
        heq | heq
      · exact Or.inl (heq ▸ hn)
      · rw [heq] at hn
        rcases List.mem_cons.1 hn with rfl | hn
        · exact Or.inr hfinal
        · exact Or.inl hn
  | act hstack hc hfinal _ hquiet haction hcarried =>
      exact h.act hstack hc hfinal hquiet haction hcarried hstanding

end Sealing

/-- In a run that keeps the invariant, every call heeds what was made final before. -/
theorem Sealing.finish {steps : Nat} {s t : σ × List (Call ε Answer)} {r : Except (Stop ε) Unit}
    (h : Sealing top progress f s.2) (hquiet : AllGood Quiet t)
    (hres : result (finish visit.traced steps progress) f s = (r, g, t)) : Heeded t.2 := by
  have hends : Ends visit (Sealing top) r g t :=
    ends_finish (fun h hstack hquiet hstep => h.step (h.standing.moves hstack hquiet hstep)) h
      hquiet hres
  cases hends with
  | closed _ h => exact h.heeded
  | exhausted h => exact h.heeded
  | stopped _ h hstep =>
      rcases calls_step hstep with heq | ⟨_, _, c, a, f', hplace, hc, hfinal, -, heq⟩
      · rw [heq]
        exact h.heeded
      · rw [heq]
        exact h.offer hplace hc hfinal a f'

theorem heeded_of_length_le {calls : List (Call ε Answer)} (h : calls.length ≤ 1) :
    Heeded calls := by
  intro before call between later after m hsplit
  rw [hsplit] at h
  simp only [List.length_append, List.length_cons] at h
  omega

/-- If the root of a pass is made final, nothing is done below it. -/
theorem descend_eq_false {action : Action} {descend : Bool}
    (h : rootAction f root action = .ok (.node new, descend)) (hm : m ∈ action.finals) :
    descend = false := by
  cases action with
  | splice values final =>
      rcases values with _ | ⟨v, _ | ⟨w, values⟩⟩
      · cases h
      · simp only [rootAction, Except.ok.injEq, Prod.mk.injEq] at h
        obtain ⟨-, rfl⟩ := h
        obtain ⟨hmem, hfinal⟩ := List.mem_filter.1 hm
        simp only [Bool.not_eq_false', List.any_eq_true]
        exact ⟨m, hmem, hfinal⟩
      · cases h
  | _ => exact absurd hm List.not_mem_nil

theorem heeded_revise {steps : Nat} {s : σ} {t : σ × List (Call ε Answer)}
    {r : Except (Stop ε) NodeId} (hf : f.WellFormed) (hquiet : AllGood Quiet t)
    (hres : result (revise visit.traced steps root) f (s, []) = (r, g, t)) : Heeded t.2 := by
  obtain ⟨call, hcall, -, hbefore, hbegins⟩ :=
    begins_revise hf (fun call hc => (hquiet call hc).wellFormed) hres
  have hafter := (hquiet call hcall).wellFormed (hbefore ▸ hf)
  cases hbegins with
  | stop _ => exact heeded_of_length_le (Nat.le_refl 1)
  | done _ _ => exact heeded_of_length_le (Nat.le_refl 1)
  | @goOn action new _ _ _ _ hchose haction hfinish =>
      have hstart : Sealing new (begun root new) (rootPlaced call.after root new) [call] := by
        refine ⟨⟨wellFormed_rootPlaced hafter root new, rfl⟩,
          fun before other after m hsplit hseals => ?_, heeded_of_length_le (Nat.le_refl 1)⟩
        have hother : other ∈ [call] := hsplit ▸ List.mem_append_right _ List.mem_cons_self
        obtain rfl := List.mem_singleton.1 hother
        exact absurd (descend_eq_false haction (hseals.mem_finals hchose)) Bool.noConfusion
      exact hstart.finish hquiet hfinish

/-- A document with two paragraphs, and a quotation of a paragraph apart from it. -/
def quoteApart : Forest where
  nodes := #[⟨0, some 1, [], 0⟩, ⟨1, none, [0], 1⟩, ⟨2, some 4, [], 2⟩, ⟨3, some 4, [], 3⟩,
    ⟨4, none, [2, 3], 4⟩]
  elements := #[.ofFields .paragraph [], .ofFields .blockQuote [], .ofFields .paragraph [],
    .ofFields .paragraph [], .ofFields .document []]
  records := #[[], [], [], [], []]

/-- Puts the quotation in the place of the first paragraph as a final node, and then, as a node like
any other, in the place of the second. -/
def reopening : Visitor Unit Empty := fun n f s =>
  (.ok (if n = 2 then .action (.splice [.node 1] .allNodes)
    else .value (.node (if n = 3 then 1 else n))), f, s)

theorem wellFormed_quoteApart : quoteApart.WellFormed := by
  have hparagraph := wellFormed_newNode wellFormed_empty (.ofFields .paragraph []) [] (by simp)
  have hquote := wellFormed_newNode hparagraph (.ofFields .blockQuote []) [0] (by decide)
  have hsecond := wellFormed_newNode hquote (.ofFields .paragraph []) [] (by simp)
  have hthird := wellFormed_newNode hsecond (.ofFields .paragraph []) [] (by simp)
  exact wellFormed_newNode hthird (.ofFields .document []) [2, 3] (by decide)

def quoteSpliced : Forest :=
  { quoteApart with nodes := #[⟨0, some 1, [], 0⟩, ⟨1, some 4, [0], 1⟩, ⟨2, none, [], 2⟩,
      ⟨3, some 4, [], 3⟩, ⟨4, none, [1, 3], 4⟩] }

/-- The document after the quotation was put in place again. -/
def quoteReplaced : Forest :=
  { quoteApart with nodes := #[⟨0, some 1, [], 0⟩, ⟨1, some 4, [0], 1⟩, ⟨2, none, [], 2⟩,
      ⟨3, none, [], 3⟩, ⟨4, none, [1], 4⟩] }

theorem passCalls_reopening :
    passCalls reopening 12 4 quoteApart () = [
      ⟨4, quoteApart, .ok (.value (.node 4)), quoteApart⟩,
      ⟨2, quoteApart, .ok (.action (.splice [.node 1] .allNodes)), quoteApart⟩,
      ⟨3, quoteSpliced, .ok (.value (.node 1)), quoteSpliced⟩,
      ⟨0, quoteReplaced, .ok (.value (.node 0)), quoteReplaced⟩] := rfl

theorem quiet_reopening : ∀ call ∈ passCalls reopening 12 4 quoteApart (), Quiet call := by
  have hquote {n : NodeId} {f : Forest} {a : Answer} (hlt : 1 < f.size)
      (ha : ∀ action, a.toAction n = .ok action → ∀ v ∈ action.values, v = .node 1) :
      Quiet (⟨n, f, .ok a, f⟩ : Call Empty Answer) := by
    refine quiet_of_same fun action haction v hv c hc => ?_
    rw [ha action haction v hv] at hc
    cases hc
    exact hlt
  have hsplice : Quiet (⟨2, quoteApart, .ok (.action (.splice [.node 1] .allNodes)), quoteApart⟩ :
      Call Empty Answer) := by
    refine hquote (by decide) fun action haction v hv => ?_
    cases haction
    exact List.mem_singleton.1 hv
  have hreplace : Quiet (⟨3, quoteSpliced, .ok (.value (.node 1)), quoteSpliced⟩ :
      Call Empty Answer) := by
    refine hquote (by decide) fun action haction v hv => ?_
    cases haction
    exact List.mem_singleton.1 hv
  rw [passCalls_reopening]
  simp [quiet_kept, hsplice, hreplace]

theorem seals_reopening :
    Seals (⟨2, quoteApart, .ok (.action (.splice [.node 1] .allNodes)), quoteApart⟩ :
      Call Empty Answer) 1 :=
  ⟨_, ⟨_, rfl, rfl⟩, List.mem_singleton_self 1⟩

/-- Once a splice has made a node final, a quiet visitor is never asked about it, and never about a
node below it unless a later answer puts the final node itself in place and asks to go on there. -/
theorem final_until_reopened (visit : Visitor σ ε) (steps : Nat) (root : NodeId) (f : Forest)
    (s : σ) (hf : f.WellFormed) (hquiet : ∀ call ∈ passCalls visit steps root f s, Quiet call) :
    ∀ before call between later after m,
      passCalls visit steps root f s = before ++ call :: (between ++ later :: after) →
      Seals call m → later.node ≠ m ∧
        (later.before.Ancestor m later.node → ∃ k ∈ between, Reopens k m) := by
  obtain ⟨calls, hres⟩ := mirrors_revise visit steps root f s []
  have hcalls : passCalls visit steps root f s = calls := by
    rw [passCalls, Asking.calls, hres]
    rfl
  rw [hcalls] at hquiet ⊢
  have hheeded : Heeded calls := heeded_revise (t := (_, calls)) hf hquiet hres
  exact hheeded

end MarkdownTree.Revision
