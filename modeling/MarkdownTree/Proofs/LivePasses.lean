import MarkdownTree.Proofs.LiveLists
import MarkdownTree.Proofs.Places
import MarkdownTree.Revision.Reply

/-!
Passes whose visitors may reply with the list in which a node keeps its children. As long as no such
list with anything in it is handed over below the root, the pass does what it does with the nodes
that the lists hold at the time: everything that is known of answers holds of these replies. And a
pass carries a well-formed forest on as long as each list that is handed over leaves nothing over.
-/

namespace MarkdownTree.Revision

open Forest Asking

variable {σ ε : Type} {visit : Responder σ ε} {f g : Forest} {rounds steps : Nat} {root : NodeId}

/-! ### Replies as answers -/

def Reply.settle (f : Forest) : Reply → Answer
  | .answer a => a
  | .children n final => .action (.splice (Sequence.items f (.childrenOf n)) final)

/-- A visitor that answers with the nodes that the lists of its replies hold at the time. -/
def settledVisitor (visit : Responder σ ε) : Visitor σ ε := fun n f s =>
  let (reply, g, t) := visit n f s
  (reply.map (·.settle g), g, t)

def settledCall (call : Call ε Reply) : Call ε Answer :=
  ⟨call.node, call.before, call.answer.map (·.settle call.after), call.after⟩

/-- What comes of a pass, with the calls as their replies come to answers. -/
def settledRun {α : Type}
    (x : Except (Stop ε) α × Forest × (σ × List (Call ε Reply))) :
    Except (Stop ε) α × Forest × (σ × List (Call ε Answer)) :=
  (x.1, x.2.1, x.2.2.1, x.2.2.2.map settledCall)

/-- A reply hands over no list with anything in it. -/
def SteadyReply (f : Forest) : Reply → Prop
  | .answer _ => True
  | .children n _ => f.Steady (.childrenOf n)

/-- A call is about the root, or its reply hands over no list with anything in it. -/
def SteadyBelow (root : NodeId) (call : Call ε Reply) : Prop :=
  call.node ≠ root → ∀ reply, call.answer = .ok reply → SteadyReply call.after reply

theorem toAction_settle (f : Forest) (n : NodeId) (reply : Reply) :
    (reply.settle f).toAction n = (reply.toDecision n).map (·.settle f) := by
  cases reply with
  | answer a =>
      simp only [Reply.settle, Reply.toDecision]
      cases a.toAction n <;> rfl
  | children m final => rfl

theorem traced_settledVisitor {n : NodeId} {s t : σ} {reply : Except ε Reply}
    (h : visit n f s = (reply, g, t)) (calls : List (Call ε Reply)) :
    (settledVisitor visit).traced n f (s, calls.map settledCall) =
      (reply.map (·.settle g), g, t,
        (calls ++ [(⟨n, f, reply, g⟩ : Call ε Reply)]).map settledCall) := by
  simp only [Callback.traced, settledVisitor, h, List.map_append, List.map_cons, List.map_nil]
  rfl

/-! ### Single steps -/

namespace Live

section
variable (visit : Responder σ ε) (rounds : Nat) (s : σ)

theorem result_consult (n : NodeId) (offered : List NodeId) (f : Forest) :
    result (consult visit n offered) f s =
      if n ∈ offered then (.ok (.act .keep, offered), f, s)
      else
        match visit n f s with
        | (.error e, g, t) => (.error (.visitor e), g, t)
        | (.ok reply, g, t) =>
          match reply.toDecision n with
          | .error e => (.error (.fault e), g, t)
          | .ok decision => (.ok (decision, n :: offered), g, t) := by
  unfold consult
  by_cases hoffered : n ∈ offered
  · simp [hoffered]
  · simp only [List.contains_eq_mem, hoffered, decide_false, Bool.false_eq_true, if_false,
      result_bind, result_ask]
    rcases visit n f s with ⟨e | reply, g, t⟩
    · rfl
    · simp only [result_attempt]
      cases reply.toDecision n <;> rfl

/-- A child is passed over, or met again, or the visitor is asked and its decision is carried
out. -/
theorem result_handleChild (p : Progress) (place : Frame) (c : NodeId) (f : Forest) :
    result (handleChild visit rounds p place c) f s =
      if c ∈ p.final then (.ok { p with stack := setNext (place.next + 1) p.stack }, f, s)
      else if c ∈ p.offered then result (Revision.carryOut p place c .keep) f s
      else
        match visit c f s with
        | (.error e, g, t) => (.error (.visitor e), g, t)
        | (.ok reply, g, t) =>
          match reply.toDecision c with
          | .error e => (.error (.fault e), g, t)
          | .ok decision =>
            result (carryOut rounds { p with offered := c :: p.offered } place c decision) g t := by
  unfold handleChild
  by_cases hfinal : c ∈ p.final
  · simp [hfinal]
  · simp only [List.contains_eq_mem, hfinal, decide_false, Bool.false_eq_true, if_false,
      result_bind, result_consult]
    by_cases hoffered : c ∈ p.offered
    · simp [hoffered, carryOut]
    · simp only [hoffered, if_false]
      rcases visit c f s with ⟨e | reply, g, t⟩
      · rfl
      · simp only
        cases reply.toDecision c <;> rfl

theorem result_step {p : Progress} {place : Frame} {rest : List Frame}
    (hstack : p.stack = place :: rest) (f : Forest) :
    result (step visit rounds p) f s =
      match (f.children place.node)[place.next]? with
      | none => (.ok { p with stack := rest }, f, s)
      | some c => result (handleChild visit rounds p place c) f s := by
  simp only [step, hstack, result_bind, result_forest]
  cases (f.children place.node)[place.next]? <;> rfl

theorem result_revise (steps : Nat) (root : NodeId) (f : Forest) :
    result (revise visit rounds steps root) f s =
      match visit root f s with
      | (.error e, g, t) => (.error (.visitor e), g, t)
      | (.ok reply, g, t) =>
        match reply.toDecision root with
        | .error e => (.error (.fault e), g, t)
        | .ok decision =>
          match rootAction g root (decision.settle g) with
          | .error e => (.error (.fault e), g, t)
          | .ok (.node new, descend) =>
            result (reviseAt visit rounds steps root new descend [root]) g t
          | .ok (v, _) => (.error (.fault (.noMember v.typeName "unlink")), g, t) := by
  simp only [revise, result_bind, result_consult, List.not_mem_nil, if_false]
  rcases visit root f s with ⟨e | reply, g, t⟩
  · rfl
  · simp only
    cases reply.toDecision root with
    | error e => rfl
    | ok decision =>
        simp only [result_forest, result_attempt]
        rcases rootAction g root (decision.settle g) with e | ⟨v, descend⟩
        · rfl
        · cases v <;> rfl

end

/-! ### Watching a pass -/

section
variable (visit : Responder σ ε) (rounds : Nat)

theorem mirrors_consult (n : NodeId) (offered : List NodeId) :
    Mirrors (consult visit.traced n offered) (consult visit n offered) := by
  unfold consult
  split
  · exact .pure _
  · exact .bind (.ask visit _ n) fun reply => .bind (mirrors_attempt _) fun decision => .pure _

theorem mirrors_carryOut (p : Progress) (place : Frame) (c : NodeId) (decision : Decision) :
    Mirrors (carryOut rounds p place c decision : Pass (σ × List (Call ε Reply)) ε Progress)
      (carryOut rounds p place c decision) := by
  cases decision with
  | act a => exact Revision.mirrors_carryOut p place c a
  | spliceChildren n final =>
      refine .bind .forest fun f => .bind .forest fun g => .bind (mirrors_attempt _) fun left => ?_
      refine .bind (mirrors_edit _) fun index => ?_
      cases index with
      | none => exact .throw _
      | some i => exact .bind .forest fun h => .pure _

theorem mirrors_handleChild (p : Progress) (place : Frame) (c : NodeId) :
    Mirrors (handleChild visit.traced rounds p place c) (handleChild visit rounds p place c) := by
  unfold handleChild
  split
  · exact .pure _
  · exact .bind (mirrors_consult visit c p.offered) fun answer =>
      mirrors_carryOut rounds { p with offered := answer.2 } place c answer.1

theorem mirrors_step (p : Progress) :
    Mirrors (step visit.traced rounds p) (step visit rounds p) := by
  unfold step
  cases p.stack with
  | nil => exact .pure _
  | cons place rest =>
      refine .bind .forest fun f => ?_
      cases (f.children place.node)[place.next]? with
      | none => exact .pure _
      | some c => exact mirrors_handleChild visit rounds p place c

theorem mirrors_finish (steps : Nat) (p : Progress) :
    Mirrors (finish visit.traced rounds steps p) (finish visit rounds steps p) := by
  induction steps generalizing p with
  | zero =>
      unfold finish
      split
      · exact .pure _
      · exact .throw _
  | succ steps ih =>
      unfold finish
      split
      · exact .pure _
      · exact .bind (mirrors_step visit rounds p) fun p' => ih p'

theorem mirrors_reviseAt (steps : Nat) (root new : NodeId) (descend : Bool)
    (offered : List NodeId) :
    Mirrors (reviseAt visit.traced rounds steps root new descend offered)
      (reviseAt visit rounds steps root new descend offered) := by
  refine .bind (mirrors_takePlace root new offered) fun offered => ?_
  cases descend with
  | true => exact .bind (mirrors_finish visit rounds steps _) fun _ => .pure _
  | false => exact .pure _

theorem mirrors_revise (steps : Nat) (root : NodeId) :
    Mirrors (revise visit.traced rounds steps root) (revise visit rounds steps root) := by
  refine .bind (mirrors_consult visit root []) fun answer => .bind .forest fun f => ?_
  refine .bind (mirrors_attempt _) fun chosen => ?_
  obtain ⟨v, descend⟩ := chosen
  cases v with
  | node new => exact mirrors_reviseAt visit rounds steps root new descend answer.2
  | _ => exact .throw _

def passCalls (steps : Nat) (root : NodeId) (f : Forest) (s : σ) : List (Call ε Reply) :=
  calls (revise visit.traced rounds steps root) f s

end

/-! ### Lists with nothing in them -/

/-- Carrying out an action does not concern the state of the visitor. -/
theorem result_carryOut_any {τ : Type} (p : Progress) (place : Frame) (c : NodeId) (action : Action)
    (f : Forest) (s : σ) (u : τ) :
    result (Revision.carryOut p place c action : Pass τ ε Progress) f u =
      ((result (Revision.carryOut p place c action : Pass σ ε Progress) f s).1,
        (result (Revision.carryOut p place c action : Pass σ ε Progress) f s).2.1, u) := by
  obtain ⟨r, g, hres, -⟩ := exists_result_carryOut (ε := ε) p place c action f
  rw [hres, hres]

/-- To splice the children of a node that has none is to splice no nodes. -/
theorem result_spliceChildren_empty {n : NodeId} (h : f.children n = []) (p : Progress)
    (place : Frame) (c : NodeId) (final : Finality) (s : σ) :
    result (spliceChildren rounds p place c n final : Pass σ ε Progress) f s =
      result (Revision.carryOut p place c (.splice [] final)) f s := by
  have hitems : Sequence.items f (.childrenOf n) = [] := by simp [Sequence.items, h]
  have hleft : departures f c [] = .ok [] := rfl
  simp only [spliceChildren, Revision.carryOut, result_bind, result_forest, hitems, hleft,
    result_attempt, result_edit, result_substitute, outcome_replaceByChildren_empty h]
  rcases hres : outcome (replaceChild place.node (.node c) []) f with ⟨e | i, g⟩
  · rfl
  · have hnone := children_replaceChild_nothing h hres
    simp only [result_bind, result_forest, hnone]
    rfl

/-- What was decided with nothing in the lists that are handed over is the action that the decision
comes to. -/
theorem result_carryOut_settle {τ : Type} {n : NodeId} {reply : Reply} {decision : Decision}
    (hsteady : SteadyReply f reply) (hdecision : reply.toDecision n = .ok decision)
    (p : Progress) (place : Frame) (c : NodeId) (s : σ) (u : τ) :
    result (Revision.carryOut p place c (decision.settle f) : Pass τ ε Progress) f u =
      ((result (carryOut rounds p place c decision : Pass σ ε Progress) f s).1,
        (result (carryOut rounds p place c decision : Pass σ ε Progress) f s).2.1, u) := by
  cases decision with
  | act a => exact result_carryOut_any p place c a f s u
  | spliceChildren m final =>
      have hnone : f.children m = [] := by
        cases reply with
        | answer a =>
            simp only [Reply.toDecision] at hdecision
            cases haction : a.toAction n <;> rw [haction] at hdecision <;> cases hdecision
        | children k final' =>
            cases hdecision
            exact hsteady
      have hitems : Sequence.items f (.childrenOf m) = [] := by simp [Sequence.items, hnone]
      rw [carryOut, result_spliceChildren_empty hnone, Decision.settle, hitems]
      exact result_carryOut_any p place c _ f s u

section
variable {s t : σ × List (Call ε Reply)} {p : Progress}

theorem toAction_of_toDecision {n : NodeId} {reply : Reply} {decision : Decision}
    (h : reply.toDecision n = .ok decision) (f : Forest) :
    (reply.settle f).toAction n = .ok (decision.settle f) := by
  rw [toAction_settle, h]
  rfl

theorem toAction_of_toDecision_error {n : NodeId} {reply : Reply} {e : TreeFault}
    (h : reply.toDecision n = .error e) (f : Forest) : (reply.settle f).toAction n = .error e := by
  rw [toAction_settle, h]
  rfl

theorem state_carryOut {place : Frame} {c : NodeId} {decision : Decision} {s t : σ}
    {r : Except (Stop ε) Progress}
    (hres : result (carryOut rounds p place c decision : Pass σ ε Progress) f s = (r, g, t)) :
    t = s := by
  cases decision with
  | act a => exact Revision.state_carryOut s hres
  | spliceChildren n final =>
      simp only [carryOut, spliceChildren, result_bind, result_forest, result_attempt,
        result_edit] at hres
      cases hleft : departures f c (Sequence.items f (.childrenOf n)) with
      | error e =>
          rw [hleft] at hres
          cases hres
          rfl
      | ok left =>
          simp only [hleft] at hres
          rcases hout : outcome (replaceByChildren rounds place.node (.node c) n) f with
            ⟨e | _ | i, h⟩ <;>
          · rw [hout] at hres
            cases hres
            rfl

theorem offered_carryOut {place : Frame} {c : NodeId} {decision : Decision} {s t : σ}
    {q : Progress}
    (hres : result (carryOut rounds p place c decision : Pass σ ε Progress) f s = (.ok q, g, t)) :
    p.offered ⊆ q.offered := by
  cases decision with
  | act a =>
      obtain ⟨r, h, hres', hsub⟩ := exists_result_carryOut (ε := ε) p place c a f
      rw [carryOut, hres'] at hres
      cases r with
      | error e => cases hres
      | ok q' =>
          cases hres
          exact hsub q rfl
  | spliceChildren n final =>
      simp only [carryOut, spliceChildren, result_bind, result_forest, result_attempt,
        result_edit] at hres
      cases hleft : departures f c (Sequence.items f (.childrenOf n)) with
      | error e =>
          rw [hleft] at hres
          cases hres
      | ok left =>
          simp only [hleft] at hres
          rcases hout : outcome (replaceByChildren rounds place.node (.node c) n) f with
            ⟨e | _ | i, h⟩
          · rw [hout] at hres
            cases hres
          · rw [hout] at hres
            cases hres
          · rw [hout] at hres
            cases hres
            exact List.Subset.refl _

/-- What becomes of a child: it is passed over, or met again, or the visitor is asked, whose call is
noted, and fails, or gives a reply that is refused, or one that is carried out. -/
inductive Handles (visit : Responder σ ε) (rounds : Nat) (p : Progress) (place : Frame) (c : NodeId)
    (f : Forest) (s : σ × List (Call ε Reply)) :
    Except (Stop ε) Progress → Forest → σ × List (Call ε Reply) → Prop
  | passOver (hfinal : c ∈ p.final) : Handles visit rounds p place c f s
      (.ok { p with stack := setNext (place.next + 1) p.stack }) f s
  | meet (hfinal : c ∉ p.final) (hoffered : c ∈ p.offered) : Handles visit rounds p place c f s
      (.ok { p with stack := descendInto f c (setNext (place.next + 1) p.stack) }) f s
  | fails {e : ε} {g : Forest} {u : σ} (hfinal : c ∉ p.final) (hnew : c ∉ p.offered)
      (hvisit : visit c f s.1 = (.error e, g, u)) : Handles visit rounds p place c f s
      (.error (.visitor e)) g (u, s.2 ++ [⟨c, f, .error e, g⟩])
  | refused {reply : Reply} {e : TreeFault} {g : Forest} {u : σ} (hfinal : c ∉ p.final)
      (hnew : c ∉ p.offered) (hvisit : visit c f s.1 = (.ok reply, g, u))
      (hdecision : reply.toDecision c = .error e) : Handles visit rounds p place c f s
      (.error (.fault e)) g (u, s.2 ++ [⟨c, f, .ok reply, g⟩])
  | decided {reply : Reply} {decision : Decision} {g h : Forest} {u : σ}
      {r : Except (Stop ε) Progress} (hfinal : c ∉ p.final) (hnew : c ∉ p.offered)
      (hvisit : visit c f s.1 = (.ok reply, g, u)) (hdecision : reply.toDecision c = .ok decision)
      (hres : result (carryOut rounds { p with offered := c :: p.offered } place c decision) g
        (u, s.2 ++ [⟨c, f, .ok reply, g⟩]) = (r, h, u, s.2 ++ [⟨c, f, .ok reply, g⟩])) :
      Handles visit rounds p place c f s r h (u, s.2 ++ [⟨c, f, .ok reply, g⟩])

theorem handles_of_result {place : Frame} {c : NodeId} {r : Except (Stop ε) Progress}
    (hres : result (handleChild visit.traced rounds p place c) f s = (r, g, t)) :
    Handles visit rounds p place c f s r g t := by
  rw [result_handleChild] at hres
  split at hres
  · next hfinal =>
    cases hres
    exact .passOver hfinal
  next hfinal =>
  split at hres
  · next hoffered =>
    cases hres
    exact .meet hfinal hoffered
  next hnew =>
  rcases hvisit : visit c f s.1 with ⟨answer, g₁, u⟩
  have htraced : visit.traced c f s = (answer, g₁, u, s.2 ++ [⟨c, f, answer, g₁⟩]) := by
    simp [Callback.traced, hvisit]
  rw [htraced] at hres
  cases answer with
  | error e =>
      cases hres
      exact .fails hfinal hnew hvisit
  | ok reply =>
      cases hdecision : reply.toDecision c with
      | error e =>
          simp only [hdecision] at hres
          cases hres
          exact .refused hfinal hnew hvisit hdecision
      | ok decision =>
          simp only [hdecision] at hres
          obtain rfl := state_carryOut hres
          exact .decided hfinal hnew hvisit hdecision hres

/-- Nodes that were offered stay offered. -/
theorem Handles.offered {place : Frame} {c : NodeId} {q : Progress}
    (h : Handles visit rounds p place c f s (.ok q) g t) : p.offered ⊆ q.offered := by
  cases h with
  | passOver => exact List.Subset.refl _
  | meet => exact List.Subset.refl _
  | decided _ _ _ _ hres =>
      exact List.Subset.trans (List.subset_cons_self _ _) (offered_carryOut hres)

/-- A step closes a place, or handles the child there. -/
theorem step_cases {place : Frame} {rest : List Frame} {r : Except (Stop ε) Progress}
    (hstack : p.stack = place :: rest)
    (hres : result (step visit.traced rounds p) f s = (r, g, t)) :
    ((f.children place.node)[place.next]? = none ∧ r = .ok { p with stack := rest } ∧ g = f ∧
      t = s) ∨
      ∃ c, (f.children place.node)[place.next]? = some c ∧
        Handles visit rounds p place c f s r g t := by
  rw [result_step visit.traced rounds s hstack] at hres
  cases hchild : (f.children place.node)[place.next]? with
  | none =>
      simp only [hchild] at hres
      cases hres
      exact Or.inl ⟨rfl, rfl, rfl, rfl⟩
  | some c =>
      simp only [hchild] at hres
      exact Or.inr ⟨c, rfl, handles_of_result hres⟩

/-- Nodes that were offered stay offered. -/
theorem offered_step {q : Progress}
    (hres : result (step visit.traced rounds p) f s = (.ok q, g, t)) : p.offered ⊆ q.offered := by
  cases hstack : p.stack with
  | nil =>
      simp only [step, hstack, result_pure] at hres
      cases hres
      exact List.Subset.refl _
  | cons place rest =>
      rcases step_cases hstack hres with ⟨-, hq, -⟩ | ⟨c, -, h⟩
      · cases hq
        exact List.Subset.refl _
      · exact h.offered

/-- A child is handled as with the answers that the replies come to. -/
theorem Handles.settled {place : Frame} {c : NodeId} {r : Except (Stop ε) Progress}
    (h : Handles visit rounds p place c f s r g t) (hroot : root ∈ p.offered)
    (ht : AllGood (SteadyBelow root) t) :
    result (Revision.handleChild (settledVisitor visit).traced p place c) f
      (s.1, s.2.map settledCall) = settledRun (r, g, t) := by
  rw [Revision.result_handleChild]
  cases h with
  | passOver hfinal =>
      rw [if_pos hfinal]
      rfl
  | meet hfinal hoffered =>
      rw [if_neg hfinal, if_pos hoffered]
      rfl
  | fails hfinal hnew hvisit =>
      rw [if_neg hfinal, if_neg hnew, traced_settledVisitor hvisit s.2]
      rfl
  | refused hfinal hnew hvisit hdecision =>
      rw [if_neg hfinal, if_neg hnew, traced_settledVisitor hvisit s.2]
      simp only [Except.map, toAction_of_toDecision_error hdecision]
      rfl
  | @decided reply decision g₁ h u r hfinal hnew hvisit hdecision hres =>
      have hne : c ≠ root := fun hc => hnew (hc ▸ hroot)
      have hsteady : SteadyReply g₁ reply :=
        ht ⟨c, f, .ok reply, g₁⟩ (List.mem_append_right _ List.mem_cons_self) hne reply rfl
      rw [if_neg hfinal, if_neg hnew, traced_settledVisitor hvisit s.2]
      simp only [Except.map, toAction_of_toDecision hdecision]
      rw [result_carryOut_settle hsteady hdecision _ place c
        (u, s.2 ++ [⟨c, f, .ok reply, g₁⟩]), hres]
      rfl

theorem step_settled {r : Except (Stop ε) Progress} (hroot : root ∈ p.offered)
    (hres : result (step visit.traced rounds p) f s = (r, g, t))
    (ht : AllGood (SteadyBelow root) t) :
    result (Revision.step (settledVisitor visit).traced p) f (s.1, s.2.map settledCall) =
      settledRun (r, g, t) := by
  cases hstack : p.stack with
  | nil =>
      simp only [step, hstack, result_pure] at hres
      cases hres
      simp only [Revision.step, hstack, result_pure]
      rfl
  | cons place rest =>
      rw [Revision.result_step _ _ hstack]
      rcases step_cases hstack hres with ⟨hend, rfl, rfl, rfl⟩ | ⟨c, hchild, h⟩
      · simp only [hend]
        rfl
      · simp only [hchild]
        exact h.settled hroot ht

/-- The rest of a pass goes on as with the answers that the replies come to. -/
theorem finish_settled {r : Except (Stop ε) Unit} (hroot : root ∈ p.offered)
    (hres : result (finish visit.traced rounds steps p) f s = (r, g, t))
    (ht : AllGood (SteadyBelow root) t) :
    result (Revision.finish (settledVisitor visit).traced steps p) f (s.1, s.2.map settledCall) =
      settledRun (r, g, t) := by
  induction steps generalizing p f s with
  | zero =>
      unfold finish at hres
      unfold Revision.finish
      split at hres
      · next hempty =>
        cases hres
        rw [if_pos hempty]
        rfl
      · next hempty =>
        cases hres
        rw [if_neg hempty]
        rfl
  | succ steps ih =>
      unfold finish at hres
      unfold Revision.finish
      split at hres
      · next hempty =>
        cases hres
        rw [if_pos hempty]
        rfl
      · next hempty =>
        rw [if_neg hempty, result_bind]
        rw [result_bind] at hres
        rcases hstep : result (step visit.traced rounds p) f s with ⟨e | q, h, u⟩
        · rw [hstep] at hres
          cases hres
          rw [step_settled hroot hstep ht]
          rfl
        · rw [hstep] at hres
          rw [step_settled hroot hstep ((mirrors_finish visit rounds steps q).allGood hres ht)]
          exact ih (offered_step hstep hroot) hres

theorem reviseAt_settled {new : NodeId} {descend : Bool} {offered : List NodeId}
    {r : Except (Stop ε) NodeId} (hroot : root ∈ offered)
    (hres : result (reviseAt visit.traced rounds steps root new descend offered) f s = (r, g, t))
    (ht : AllGood (SteadyBelow root) t) :
    result (Revision.reviseAt (settledVisitor visit).traced steps root new descend offered) f
      (s.1, s.2.map settledCall) = settledRun (r, g, t) := by
  unfold reviseAt at hres
  unfold Revision.reviseAt
  rw [result_bind] at hres ⊢
  obtain ⟨taken, h, htake, hoffered⟩ := exists_result_takePlace (ε := ε) root new offered f
  rw [htake] at hres ⊢
  cases taken with
  | error e =>
      cases hres
      rfl
  | ok offered' =>
      cases descend with
      | false =>
          cases hres
          rfl
      | true =>
          simp only [Except.mapError, if_true, result_bind] at hres ⊢
          rcases hfinish : result (finish visit.traced rounds steps ⟨[⟨new, 0⟩], offered', []⟩) h s
            with ⟨e | _, h', u⟩
          · rw [hfinish] at hres
            cases hres
            rw [finish_settled (hoffered offered' rfl hroot) hfinish ht]
            rfl
          · rw [hfinish] at hres
            cases hres
            rw [finish_settled (hoffered offered' rfl hroot) hfinish ht]
            rfl

end

end Live

/-! ### Whole passes -/

/-- As long as no list with anything in it is handed over below the root, a pass does what it does
with the nodes that the lists hold at the time. -/
theorem revise_settled {s : σ}
    (hsteady : ∀ call ∈ Live.passCalls visit rounds steps root f s, SteadyBelow root call) :
    result (revise (settledVisitor visit).traced steps root) f (s, []) =
      settledRun (result (Live.revise visit.traced rounds steps root) f (s, [])) := by
  rcases hrun : result (Live.revise visit.traced rounds steps root) f (s, []) with ⟨r, g, t⟩
  have ht : AllGood (SteadyBelow root) t := by
    intro call hcall
    refine hsteady call ?_
    rw [Live.passCalls, calls, hrun]
    exact hcall
  rw [Live.result_revise] at hrun
  rw [result_revise]
  rcases hvisit : visit root f s with ⟨answer, g₁, t₁⟩
  have htraced : visit.traced root f (s, []) = (answer, g₁, t₁, [⟨root, f, answer, g₁⟩]) := by
    simp [Callback.traced, hvisit]
  have hsettled : (settledVisitor visit).traced root f (s, []) =
      (answer.map (·.settle g₁), g₁, t₁,
        ([⟨root, f, answer, g₁⟩] : List (Call ε Reply)).map settledCall) :=
    traced_settledVisitor hvisit []
  rw [htraced] at hrun
  rw [hsettled]
  cases answer with
  | error e =>
      cases hrun
      rfl
  | ok reply =>
      cases hdecision : reply.toDecision root with
      | error e =>
          simp only [hdecision] at hrun
          cases hrun
          simp only [Except.map, Live.toAction_of_toDecision_error hdecision]
          rfl
      | ok decision =>
          simp only [hdecision] at hrun
          simp only [Except.map, Live.toAction_of_toDecision hdecision]
          rcases hroot : rootAction g₁ root (decision.settle g₁) with e | ⟨v, descend⟩
          · rw [hroot] at hrun
            cases hrun
            rfl
          · rw [hroot] at hrun
            cases v with
            | node new => exact Live.reviseAt_settled List.mem_cons_self hrun ht
            | _ =>
                cases hrun
                rfl

theorem passCalls_settled {s : σ}
    (hsteady : ∀ call ∈ Live.passCalls visit rounds steps root f s, SteadyBelow root call) :
    passCalls (settledVisitor visit) steps root f s =
      (Live.passCalls visit rounds steps root f s).map settledCall := by
  rw [passCalls, calls, revise_settled hsteady]
  rfl

/-! ### Forests that are carried on -/

/-- A reply about `n` names nodes that exist, and hands over no list that leaves anything over where
`n` stands, unless `n` is the root. -/
def Reply.Lawful (f : Forest) (root n : NodeId) : Reply → Prop
  | .answer a => ∀ action, a.toAction n = .ok action → action.KnownIn f
  | .children m _ => n ≠ root → ∀ p, f.LeavesNothing p (.node n) (.childrenOf m)

/-- What is asked of a single call of a visitor that replies. -/
def LawfulCall (root : NodeId) (call : Call ε Reply) : Prop :=
  call.before.WellFormed → call.before.CarriesOn call.after ∧
    ∀ reply, call.answer = .ok reply → reply.Lawful call.after root call.node

namespace Live

section
variable {s t : σ × List (Call ε Reply)} {p : Progress} {place : Frame} {c : NodeId}

theorem carriesOn_carryOut {reply : Reply} {decision : Decision} {s t : σ}
    {r : Except (Stop ε) Progress} (hf : f.WellFormed) (hc : c ≠ root)
    (hdecision : reply.toDecision c = .ok decision) (hlawful : reply.Lawful f root c)
    (hres : result (carryOut rounds p place c decision : Pass σ ε Progress) f s = (r, g, t)) :
    f.CarriesOn g := by
  cases reply with
  | answer a =>
      cases haction : a.toAction c with
      | error e =>
          simp only [Reply.toDecision, haction] at hdecision
          cases hdecision
      | ok action =>
          simp only [Reply.toDecision, haction] at hdecision
          cases hdecision
          have hobeys : Obeys Forest.WellFormed Forest.CarriesOn (fun _ : σ => True) _
              (Revision.carryOut p place c action : Pass σ ε Progress) _ :=
            obeys_carryOut allows_carriesOn p place c action
          refine ((hobeys f s r g t hres trivial).2 hf ⟨⟨trivial, trivial, ?_⟩, ?_⟩).1
          · exact fun _ _ => trivial
          · exact hlawful action haction
  | children m final =>
      cases hdecision
      have hcarries := (relinked_replaceByChildren hf (hlawful hc place.node) rounds).carriesOn
      simp only [carryOut, spliceChildren, result_bind, result_forest, result_attempt,
        result_edit] at hres
      cases hleft : departures f c (Sequence.items f (.childrenOf m)) with
      | error e =>
          rw [hleft] at hres
          cases hres
          exact .refl hf
      | ok left =>
          simp only [hleft] at hres
          rcases hout : outcome (replaceByChildren rounds place.node (.node c) m) f with
            ⟨e | _ | i, h⟩ <;>
          · rw [hout] at hres hcarries
            cases hres
            exact hcarries

theorem Handles.carriesOn {r : Except (Stop ε) Progress}
    (h : Handles visit rounds p place c f s r g t) (hf : f.WellFormed) (hroot : root ∈ p.offered)
    (ht : AllGood (LawfulCall root) t) : f.CarriesOn g := by
  have hcall {answer : Except ε Reply} {g : Forest} {u : σ}
      (hgood : AllGood (LawfulCall root) (u, s.2 ++ [⟨c, f, answer, g⟩])) :=
    hgood ⟨c, f, answer, g⟩ (List.mem_append_right _ List.mem_cons_self) hf
  cases h with
  | passOver => exact .refl hf
  | meet => exact .refl hf
  | fails => exact (hcall ht).1
  | refused => exact (hcall ht).1
  | decided _ hnew _ hdecision hres =>
      obtain ⟨hchange, hlawful⟩ := hcall ht
      have hne : c ≠ root := fun hc => hnew (hc ▸ hroot)
      exact hchange.trans
        (carriesOn_carryOut hchange.wellFormed hne hdecision (hlawful _ rfl) hres)

theorem carriesOn_step {r : Except (Stop ε) Progress} (hf : f.WellFormed)
    (hroot : root ∈ p.offered) (hres : result (step visit.traced rounds p) f s = (r, g, t))
    (ht : AllGood (LawfulCall root) t) : f.CarriesOn g := by
  cases hstack : p.stack with
  | nil =>
      simp only [step, hstack, result_pure] at hres
      cases hres
      exact .refl hf
  | cons place rest =>
      rcases step_cases hstack hres with ⟨-, -, rfl, -⟩ | ⟨c, -, h⟩
      · exact .refl hf
      · exact h.carriesOn hf hroot ht

theorem carriesOn_finish {r : Except (Stop ε) Unit} (hf : f.WellFormed) (hroot : root ∈ p.offered)
    (hres : result (finish visit.traced rounds steps p) f s = (r, g, t))
    (ht : AllGood (LawfulCall root) t) : f.CarriesOn g := by
  induction steps generalizing p f s with
  | zero =>
      unfold finish at hres
      split at hres <;>
      · cases hres
        exact .refl hf
  | succ steps ih =>
      unfold finish at hres
      split at hres
      · cases hres
        exact .refl hf
      · rw [result_bind] at hres
        rcases hstep : result (step visit.traced rounds p) f s with ⟨e | q, h, u⟩
        · rw [hstep] at hres
          cases hres
          exact carriesOn_step hf hroot hstep ht
        · rw [hstep] at hres
          have hmid := carriesOn_step hf hroot hstep
            ((mirrors_finish visit rounds steps q).allGood hres ht)
          exact hmid.trans (ih hmid.wellFormed (offered_step hstep hroot) hres)

theorem carriesOn_reviseAt {new : NodeId} {descend : Bool} {offered : List NodeId}
    {r : Except (Stop ε) NodeId} (hf : f.WellFormed) (hroot : root ∈ offered)
    (hres : result (reviseAt visit.traced rounds steps root new descend offered) f s = (r, g, t))
    (ht : AllGood (LawfulCall root) t) : f.CarriesOn g := by
  unfold reviseAt at hres
  rw [result_bind] at hres
  obtain ⟨taken, h, htake, hoffered⟩ := exists_result_takePlace (ε := ε) root new offered f
  have hobeys : Obeys Forest.WellFormed Forest.CarriesOn (fun _ : σ × List (Call ε Reply) => True) _
      (takePlace root new offered : Pass _ ε (List NodeId)) _ :=
    obeys_takePlace allows_carriesOn root new offered
  have hmid : f.CarriesOn h := ((hobeys f s _ _ _ (htake s) trivial).2 hf trivial).1
  rw [htake] at hres
  cases taken with
  | error e =>
      cases hres
      exact hmid
  | ok offered' =>
      cases descend with
      | false =>
          cases hres
          exact hmid
      | true =>
          simp only [Except.mapError, if_true, result_bind] at hres
          rcases hfinish : result (finish visit.traced rounds steps ⟨[⟨new, 0⟩], offered', []⟩) h s
            with ⟨e | _, h', u⟩ <;>
          · rw [hfinish] at hres
            cases hres
            exact hmid.trans
              (carriesOn_finish hmid.wellFormed (hoffered offered' rfl hroot) hfinish ht)

end

/-- A pass carries a well-formed forest on, wherever it stops, if every call of its visitor does and
its reply is lawful. -/
theorem carriesOn_revise {s : σ} (hf : f.WellFormed)
    (hcalls : ∀ call ∈ passCalls visit rounds steps root f s, LawfulCall root call) :
    f.CarriesOn (result (revise visit rounds steps root) f s).2.1 := by
  obtain ⟨more, hmirror⟩ := mirrors_revise visit rounds steps root f s []
  rcases hrun : result (revise visit.traced rounds steps root) f (s, []) with ⟨r, g, t⟩
  have ht : AllGood (LawfulCall root) t := by
    intro call hcall
    refine hcalls call ?_
    rw [passCalls, calls, hrun]
    exact hcall
  have hg : (result (revise visit rounds steps root) f s).2.1 = g := by
    rw [hrun] at hmirror
    cases hmirror
    rfl
  rw [hg]
  rw [result_revise] at hrun
  rcases hvisit : visit root f s with ⟨answer, g₁, u⟩
  have htraced : visit.traced root f (s, []) = (answer, g₁, u, [⟨root, f, answer, g₁⟩]) := by
    simp [Callback.traced, hvisit]
  have hfirst (hgood : LawfulCall root ⟨root, f, answer, g₁⟩) : f.CarriesOn g₁ := (hgood hf).1
  rw [htraced] at hrun
  cases answer with
  | error e =>
      cases hrun
      exact hfirst (ht _ List.mem_cons_self)
  | ok reply =>
      cases hdecision : reply.toDecision root with
      | error e =>
          simp only [hdecision] at hrun
          cases hrun
          exact hfirst (ht _ List.mem_cons_self)
      | ok decision =>
          simp only [hdecision] at hrun
          rcases hroot : rootAction g₁ root (decision.settle g₁) with e | ⟨v, descend⟩
          · rw [hroot] at hrun
            cases hrun
            exact hfirst (ht _ List.mem_cons_self)
          · rw [hroot] at hrun
            cases v with
            | node new =>
                have hgood := (mirrors_reviseAt visit rounds steps root new descend [root]).allGood
                  hrun ht
                have hchange := hfirst (hgood _ List.mem_cons_self)
                exact hchange.trans
                  (carriesOn_reviseAt hchange.wellFormed List.mem_cons_self hrun ht)
            | _ =>
                cases hrun
                exact hfirst (ht _ List.mem_cons_self)

end Live

end MarkdownTree.Revision
