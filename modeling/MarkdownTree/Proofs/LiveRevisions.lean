import MarkdownTree.Proofs.LivePasses
import MarkdownTree.Proofs.SplicedNodes
import MarkdownTree.Proofs.SubstitutedLists
import MarkdownTree.Proofs.TreeRefinement

/-!
Revisions whose visitors may reply with the list in which a node keeps its children. Main
statements: such a revision does what the plain recursion does, it ends, final nodes stay final, and
the nodes of a splice get their turn, each under the conditions for answers of their own, as long as
no list with anything in it is handed over below the root. A list that is read while it changes can
break any of them.
-/

namespace MarkdownTree.Revision.Live

open Forest Asking

variable {σ ε : Type} {visit : Responder σ ε} {f : Forest} {s : σ} {rounds steps : Nat}
  {root : NodeId}

/-! ### More steps -/

theorem approximates_finish (visit : Responder σ ε) (rounds steps k : Nat) (p : Progress) :
    Approximates (finish visit rounds steps p) (finish visit rounds (steps + k) p) := by
  induction steps generalizing p with
  | zero =>
      intro f s hres
      unfold finish at hres ⊢
      split at hres
      · rename_i hempty
        cases 0 + k <;> simp [hempty]
      · exact absurd rfl hres
  | succ steps ih =>
      rw [Nat.succ_add]
      unfold finish
      split
      · exact .refl _
      · exact .bind (.refl _) fun q => ih q

theorem approximates_revise (visit : Responder σ ε) (rounds steps k : Nat) (root : NodeId) :
    Approximates (revise visit rounds steps root) (revise visit rounds (steps + k) root) := by
  refine .bind (.refl _) fun answer => .bind (.refl _) fun f => .bind (.refl _) fun chosen => ?_
  obtain ⟨v, descend⟩ := chosen
  cases v with
  | node new =>
      refine .bind (.refl _) fun offered => ?_
      cases descend with
      | true => exact .bind (approximates_finish visit rounds steps k _) fun _ => .refl _
      | false => exact .refl _
  | _ => exact .refl _

/-- More steps make no more calls once a revision has ended. -/
theorem passCalls_add (hends : (result (revise visit.traced rounds steps root) f (s, [])).1 ≠
    .error .exhausted) (k : Nat) :
    passCalls visit rounds (steps + k) root f s = passCalls visit rounds steps root f s := by
  rw [passCalls, calls, approximates_revise visit.traced rounds steps k root f (s, []) hends]
  rfl

/-! ### Answers of their own -/

def answeredCall (call : Call ε Answer) : Call ε Reply :=
  ⟨call.node, call.before, call.answer.map .answer, call.after⟩

theorem settledCall_answeredCall (call : Call ε Answer) :
    settledCall (answeredCall call) = call := by
  obtain ⟨n, f, answer, g⟩ := call
  cases answer <;> rfl

theorem steadyBelow_answeredCall (root : NodeId) (call : Call ε Answer) :
    SteadyBelow root (answeredCall call) := by
  intro _ reply hreply
  obtain ⟨n, f, answer, g⟩ := call
  cases answer <;> cases hreply
  trivial

/-- One visitor replies as another answers, up to what it keeps as its state. -/
def Answers {τ : Type} (visit' : Responder τ ε) (visit : Visitor σ ε) (keep : σ → τ) : Prop :=
  ∀ n f s, visit' n f (keep s) =
    ((visit n f s).1.map .answer, (visit n f s).2.1, keep (visit n f s).2.2)

theorem answers_answering (visit : Visitor σ ε) : Answers (answering visit) visit id :=
  fun _ _ _ => rfl

theorem answers_traced (visit : Visitor σ ε) : Answers (answering visit).traced visit.traced
    fun s => (s.1, s.2.map answeredCall) := by
  intro n f s
  simp only [Callback.traced, answering, List.map_append, List.map_cons, List.map_nil]
  rfl

namespace Answers

section
variable {τ : Type} {visit' : Responder τ ε} {visit : Visitor σ ε} {keep : σ → τ}
  (h : Answers visit' visit keep)

include h

theorem handleChild (p : Progress) (place : Frame) (c : NodeId) (f : Forest) (s : σ) :
    result (handleChild visit' rounds p place c) f (keep s) =
      ((result (Revision.handleChild visit p place c) f s).1,
        (result (Revision.handleChild visit p place c) f s).2.1,
        keep (result (Revision.handleChild visit p place c) f s).2.2) := by
  rw [result_handleChild, Revision.result_handleChild]
  split
  · rfl
  split
  · rfl
  rw [h]
  rcases visit c f s with ⟨e | a, g, t⟩
  · rfl
  · cases haction : a.toAction c with
    | error e =>
        simp only [Except.map, Reply.toDecision, haction]
        rfl
    | ok action =>
        simp only [Except.map, Reply.toDecision, haction]
        obtain ⟨r, g', hcarry, -⟩ := exists_result_carryOut (ε := ε)
          { p with offered := c :: p.offered } place c action g
        rw [hcarry t]
        exact hcarry (keep t)

theorem step (p : Progress) (f : Forest) (s : σ) :
    result (step visit' rounds p) f (keep s) =
      ((result (Revision.step visit p) f s).1, (result (Revision.step visit p) f s).2.1,
        keep (result (Revision.step visit p) f s).2.2) := by
  cases hstack : p.stack with
  | nil =>
      simp only [Live.step, Revision.step, hstack]
      rfl
  | cons place rest =>
      rw [result_step _ _ _ hstack, Revision.result_step _ _ hstack]
      cases (f.children place.node)[place.next]? with
      | none => rfl
      | some c => exact h.handleChild p place c f s

theorem finish (steps : Nat) (p : Progress) (f : Forest) (s : σ) :
    result (finish visit' rounds steps p) f (keep s) =
      ((result (Revision.finish visit steps p) f s).1,
        (result (Revision.finish visit steps p) f s).2.1,
        keep (result (Revision.finish visit steps p) f s).2.2) := by
  induction steps generalizing p f s with
  | zero =>
      unfold Live.finish Revision.finish
      split <;> rfl
  | succ steps ih =>
      unfold Live.finish Revision.finish
      split
      · rfl
      · rw [result_bind, result_bind, h.step]
        rcases result (Revision.step visit p) f s with ⟨e | q, g, t⟩
        · rfl
        · exact ih q g t

theorem revise (rounds steps : Nat) (root : NodeId) (f : Forest) (s : σ) :
    result (revise visit' rounds steps root) f (keep s) =
      ((result (Revision.revise visit steps root) f s).1,
        (result (Revision.revise visit steps root) f s).2.1,
        keep (result (Revision.revise visit steps root) f s).2.2) := by
  rw [result_revise, Revision.result_revise, h]
  rcases visit root f s with ⟨e | a, g, t⟩
  · rfl
  cases haction : a.toAction root with
  | error e =>
      simp only [Except.map, Reply.toDecision, haction]
      rfl
  | ok action =>
      have hdecision : (Reply.answer a).toDecision root = .ok (.act action) := by
        simp only [Reply.toDecision, haction]
        rfl
      simp only [Except.map, hdecision, haction, Decision.settle]
      rcases rootAction g root action with e | ⟨v, descend⟩
      · rfl
      cases v with
      | node new =>
          simp only [reviseAt, Revision.reviseAt, result_bind]
          obtain ⟨taken, g', htake, -⟩ := exists_result_takePlace (ε := ε) root new [root] g
          rw [htake (keep t), htake t]
          cases taken with
          | error e => rfl
          | ok offered =>
              cases descend with
              | false => rfl
              | true =>
                  simp only [Except.mapError, if_true, result_bind, h.finish]
                  rcases result (Revision.finish visit steps ⟨[⟨new, 0⟩], offered, []⟩) g' t
                    with ⟨_ | _, _, _⟩ <;> rfl
      | _ => rfl

end

end Answers

/-- With answers of its own, a revision is one that knows no other replies. -/
theorem result_answering (visit : Visitor σ ε) (rounds steps : Nat) (root : NodeId) (f : Forest)
    (s : σ) : result (revise (answering visit) rounds steps root) f s =
      result (Revision.revise visit steps root) f s :=
  (answers_answering visit).revise rounds steps root f s

theorem passCalls_answering (visit : Visitor σ ε) (rounds steps : Nat) (root : NodeId) (f : Forest)
    (s : σ) : passCalls (answering visit) rounds steps root f s =
      (Revision.passCalls visit steps root f s).map answeredCall :=
  congrArg (·.2.2.2) ((answers_traced visit).revise rounds steps root f (s, []))

theorem settled_answering (visit : Visitor σ ε) (rounds steps : Nat) (root : NodeId) (f : Forest)
    (s : σ) : (passCalls (answering visit) rounds steps root f s).map settledCall =
      Revision.passCalls visit steps root f s := by
  rw [passCalls_answering, List.map_map]
  exact List.map_id'' settledCall_answeredCall _

theorem forall_answering {visit : Visitor σ ε} {good : Call ε Answer → Prop}
    (h : ∀ call ∈ Revision.passCalls visit steps root f s, good call) :
    ∀ call ∈ passCalls (answering visit) rounds steps root f s,
      SteadyBelow root call ∧ good (settledCall call) := by
  rw [passCalls_answering]
  refine List.forall_mem_map.2 fun call hcall => ⟨steadyBelow_answeredCall root call, ?_⟩
  rw [settledCall_answeredCall]
  exact h call hcall

/-- What comes of a revision, without the calls, is what comes of it with settled answers. -/
theorem result_settled
    (hsteady : ∀ call ∈ passCalls visit rounds steps root f s, SteadyBelow root call) :
    result (Revision.revise (settledVisitor visit) steps root) f s =
      result (revise visit rounds steps root) f s := by
  obtain ⟨calls, hres⟩ := Revision.mirrors_revise (settledVisitor visit) steps root f s []
  obtain ⟨replies, hres'⟩ := mirrors_revise visit rounds steps root f s []
  rw [revise_settled hsteady, hres'] at hres
  simp only [settledRun, Prod.mk.injEq] at hres
  obtain ⟨hanswer, hforest, hstate, -⟩ := hres
  exact (Prod.ext hanswer (Prod.ext hforest hstate)).symm

/-! ### Termination -/

/-- A revision ends when its visitor is quiet, names no nodes but those that exist at the start, and
hands over no list with anything in it below the root: a number of steps that depends on the size of
the forest alone is enough, and more steps come to the same. -/
theorem ends_in_time (visit : Responder σ ε) (rounds : Nat) (root : NodeId) (f : Forest) (s : σ)
    (hf : f.WellFormed) (hroot : root < f.size)
    (hcalls : ∀ call ∈ passCalls visit rounds (stepBound f.size) root f s,
      SteadyBelow root call ∧ Quiet (settledCall call) ∧ NamesBelow f.size (settledCall call)) :
    (result (revise visit rounds (stepBound f.size) root) f s).1 ≠ .error .exhausted ∧
      ∀ steps ≥ stepBound f.size, result (revise visit rounds steps root) f s =
        result (revise visit rounds (stepBound f.size) root) f s := by
  have hsteady := fun call hcall => (hcalls call hcall).1
  have hsettled : ∀ call ∈ Revision.passCalls (settledVisitor visit) (stepBound f.size) root f s,
      Quiet call ∧ NamesBelow f.size call := by
    rw [passCalls_settled hsteady]
    exact List.forall_mem_map.2 fun call hcall => (hcalls call hcall).2
  obtain ⟨hends, -⟩ := pass_ends (settledVisitor visit) root f s hf hroot hsettled
  rw [result_settled hsteady] at hends
  refine ⟨hends, fun steps hsteps => ?_⟩
  obtain ⟨k, rfl⟩ := Nat.exists_eq_add_of_le hsteps
  exact approximates_revise visit rounds _ k root f s hends

/-- Although each paragraph brings back all three, the revision of them ends. -/
theorem ends_in_time_reversing :
    (result (revise (answering reversing) 0 (stepBound threeParagraphs.size) 3)
        threeParagraphs ()).1 ≠ .error .exhausted ∧
      ∀ steps ≥ stepBound threeParagraphs.size,
        result (revise (answering reversing) 0 steps 3) threeParagraphs () =
          result (revise (answering reversing) 0 (stepBound threeParagraphs.size) 3)
            threeParagraphs () := by
  exact ends_in_time (answering reversing) 0 3 threeParagraphs () wellFormed_threeParagraphs
    (by decide) (forall_answering quiet_reversing)

/-- Answers for the first paragraph with the list in which the document keeps all three. -/
def regathering : Responder Unit Empty := fun n f s =>
  (.ok (if n = 0 then .children 3 .noNode else .answer (.value (.node n))), f, s)

def callsRegathering : List (Call Empty Reply) := [
  ⟨3, threeParagraphs, .ok (.answer (.value (.node 3))), threeParagraphs⟩,
  ⟨0, threeParagraphs, .ok (.children 3 .noNode), threeParagraphs⟩]

theorem quiet_regathering :
    ∀ call ∈ callsRegathering,
      Quiet (settledCall call) ∧ NamesBelow threeParagraphs.size (settledCall call) := by
  have hlt : ∀ m, .node m ∈ Sequence.items threeParagraphs (.childrenOf 3) → m < 4 := by
    intro m hm
    obtain ⟨k, hk, heq⟩ := List.mem_map.1 hm
    cases heq
    exact wellFormed_threeParagraphs.lt_size_of_mem hk
  rw [callsRegathering, List.forall_mem_cons, List.forall_mem_singleton]
  refine ⟨⟨quiet_kept 3 _, namesBelow_kept 3 _ _⟩, quiet_of_same fun action haction v hv c hc => ?_,
    ?_⟩
  · cases haction
    exact hlt c (hc ▸ hv)
  · rintro action ⟨a, ha, haction⟩ m hm
    cases ha
    cases haction
    exact hlt m hm

/-- The unlinking passes over a paragraph of the list, which then comes in again and again. -/
theorem endless_spliceChildren (rounds : Nat) :
    ∃ g, ∀ (progress : Progress) (s : Unit × List (Call Empty Reply)),
      result (spliceChildren rounds progress ⟨3, 0⟩ 0 3 .noNode : Pass _ Empty Progress)
        threeParagraphs s = (.error .exhausted, g, s) := by
  obtain ⟨g, hout⟩ := replaceByChildren_endless wellFormed_threeParagraphs
    (show threeParagraphs.children 3 = [] ++ 0 :: [1, 2] from rfl)
    (show threeParagraphs.checkReplacement 3 [] _ = .ok [0, 1, 2] from rfl)
    (show threeParagraphs.leftover 0 3 ≠ [] by decide) rounds
  have hleft : departures threeParagraphs 0
      (Sequence.items threeParagraphs (.childrenOf 3)) = .ok [(3, 1), (3, 2)] := rfl
  refine ⟨g, fun progress s => ?_⟩
  simp only [spliceChildren, result_bind, result_forest, hleft, result_attempt, result_edit, hout]
  rfl

theorem endless_step (rounds : Nat) :
    ∃ g, ∀ s : Unit × List (Call Empty Reply),
      result (step regathering.traced rounds ⟨[⟨3, 0⟩], [3], []⟩) threeParagraphs s =
        (.error .exhausted, g, s.1,
          s.2 ++ [⟨0, threeParagraphs, .ok (.children 3 .noNode), threeParagraphs⟩]) := by
  obtain ⟨g, hsplice⟩ := endless_spliceChildren rounds
  refine ⟨g, fun s => ?_⟩
  have hchild : (threeParagraphs.children 3)[0]? = some 0 := rfl
  have hreply : regathering.traced 0 threeParagraphs s = (.ok (.children 3 .noNode),
      threeParagraphs, s.1,
      s.2 ++ [⟨0, threeParagraphs, .ok (.children 3 .noNode), threeParagraphs⟩]) := rfl
  rw [result_step regathering.traced rounds s rfl]
  simp only [hchild, result_handleChild, hreply, Reply.toDecision, carryOut, hsplice]
  rfl

/-- With a step or more, the pass is stopped in its first step, after the answer for `0`. -/
theorem exhausted_regathering (rounds steps : Nat) :
    ∃ g calls, result (revise regathering.traced rounds steps 3) threeParagraphs ((), []) =
      (.error .exhausted, g, (), calls) ∧ ∀ call ∈ calls,
        Quiet (settledCall call) ∧ NamesBelow threeParagraphs.size (settledCall call) := by
  cases steps with
  | zero =>
      refine ⟨threeParagraphs, callsRegathering.take 1, rfl, fun call hcall => ?_⟩
      exact quiet_regathering call (List.mem_of_mem_take hcall)
  | succ steps =>
      obtain ⟨g, hstep⟩ := endless_step rounds
      refine ⟨g, callsRegathering, ?_, quiet_regathering⟩
      show result (finish regathering.traced rounds (steps + 1) ⟨[⟨3, 0⟩], [3], []⟩ >>= fun _ =>
        pure 3) threeParagraphs ((), callsRegathering.take 1) = _
      rw [finish, result_bind, if_neg (by decide), result_bind, hstep]
      rfl

/-- The list takes in the last paragraph again and again, and the revision does not end. -/
theorem not_ending_regathering :
    threeParagraphs.WellFormed ∧
      (∀ rounds steps, ∀ call ∈ passCalls regathering rounds steps 3 threeParagraphs (),
        Quiet (settledCall call) ∧ NamesBelow threeParagraphs.size (settledCall call)) ∧
      ∀ rounds steps, (result (revise regathering rounds steps 3) threeParagraphs ()).1 =
        .error .exhausted := by
  refine ⟨wellFormed_threeParagraphs, fun rounds steps call hcall => ?_, fun rounds steps => ?_⟩
  · obtain ⟨g, calls, hrun, hgood⟩ := exhausted_regathering rounds steps
    rw [passCalls, Asking.calls, hrun] at hcall
    exact hgood call hcall
  · obtain ⟨g, calls, hrun, -⟩ := exhausted_regathering rounds steps
    obtain ⟨more, hmirror⟩ := mirrors_revise regathering rounds steps 3 threeParagraphs () []
    rw [hrun] at hmirror
    exact (congrArg (·.1) hmirror).symm

/-! ### Refinement -/

def reviseTree (visit : Responder σ ε) (rounds steps : Nat) (root : NodeId) : Pass σ ε Tree := do
  let top ← revise visit rounds steps root
  pure ((← Asking.forest).tree top)

theorem reviseTree_settled
    (hsteady : ∀ call ∈ passCalls visit rounds steps root f s, SteadyBelow root call) :
    result (Revision.reviseTree (settledVisitor visit).traced steps root) f (s, []) =
      settledRun (result (reviseTree visit.traced rounds steps root) f (s, [])) := by
  simp only [Revision.reviseTree, reviseTree, result_bind, revise_settled hsteady]
  rcases result (revise visit.traced rounds steps root) f (s, []) with ⟨e | top, g, t⟩ <;> rfl

/-- A revision whose visitor keeps the root, leaves the tree alone, names nothing but the node it is
asked about, the children of that node, and detached nodes, and hands over no list with anything in
it, does what the plain recursion does: it makes the same calls in the same order and comes to the
same tree, or stops in the same way. If the visitor keeps every node, the calls are about the nodes
of the tree in pre-order, and the tree stays as it is. -/
theorem refines_recursion (visit : Responder σ ε) (rounds : Nat) (root : NodeId) (f : Forest)
    (s : σ) (hf : f.WellFormed) (hroot : root < f.size)
    (hlocal : ∀ steps, ∀ call ∈ passCalls visit rounds steps root f s,
      SteadyBelow root call ∧ Local root (settledCall call)) :
    (∀ last : Except (Stop ε) Tree × Forest × (σ × List (Call ε Answer)),
      last.1 ≠ .error .exhausted →
        ((∃ steps, settledRun (result (reviseTree visit.traced rounds steps root) f (s, [])) =
            last) ↔
          ∃ fuel, result (rewriteTree (settledVisitor visit).traced fuel (f.tree root)) f (s, []) =
            last)) ∧
      ((∀ steps, ∀ call ∈ passCalls visit rounds steps root f s,
          Chose (settledCall call) .keep) →
        ∃ enough, ∀ steps ≥ enough, ∃ g t calls,
          result (reviseTree visit.traced rounds steps root) f (s, []) =
            (.ok (f.tree root), g, (t, calls)) ∧ calls.map (·.node) = f.preorder root) := by
  have hsteady (steps : Nat) := fun call hcall => (hlocal steps call hcall).1
  have hsettled (steps : Nat) := reviseTree_settled (hsteady steps)
  have hcalls {good : Call ε Answer → Prop}
      (h : ∀ steps, ∀ call ∈ passCalls visit rounds steps root f s, good (settledCall call))
      (steps : Nat) : ∀ call ∈ Revision.passCalls (settledVisitor visit) steps root f s,
        good call := by
    rw [passCalls_settled (hsteady steps)]
    exact List.forall_mem_map.2 (h steps)
  obtain ⟨hagree, hkeeps⟩ := revise_refines_recursion (settledVisitor visit) root f s hf hroot
    (hcalls fun steps call hcall => (hlocal steps call hcall).2)
  refine ⟨fun last hlast => ?_, fun hkeep => ?_⟩
  · have hagrees := hagree last hlast
    simp only [hsettled] at hagrees
    exact hagrees
  · obtain ⟨enough, hkept⟩ := hkeeps (hcalls hkeep)
    refine ⟨enough, fun steps hsteps => ?_⟩
    obtain ⟨g, t, calls, hres, hnodes⟩ := hkept steps hsteps
    rw [hsettled] at hres
    rcases hrun : result (reviseTree visit.traced rounds steps root) f (s, []) with
      ⟨r, g', t', replies⟩
    rw [hrun] at hres
    simp only [settledRun, Prod.mk.injEq] at hres
    obtain ⟨rfl, rfl, rfl, rfl⟩ := hres
    refine ⟨_, _, replies, rfl, ?_⟩
    rw [← hnodes, List.map_map]
    rfl

/-- Puts the paragraph out of the quotation before it, the paragraph from apart in the place of the
second one, and the children of the third, which has none, in the place of the third. -/
def takingApart : Responder Unit Empty := fun n f s =>
  (.ok (match n with
    | 1 => .answer (.value (.list [.node 0, .node 1]))
    | 2 => .answer (.value (.node 5))
    | 3 => .children 3 .noNode
    | n => .answer (.value (.node n))), f, s)

/-- The document after the quotation was emptied, and after the second paragraph was replaced. -/
def quoteEmptied : Forest :=
  { quoteFirst with nodes := #[⟨0, some 4, [], 0⟩, ⟨1, some 4, [], 1⟩, ⟨2, some 4, [], 2⟩,
      ⟨3, some 4, [], 3⟩, ⟨4, none, [0, 1, 2, 3], 4⟩, ⟨5, none, [], 5⟩] }

def secondReplaced : Forest :=
  { quoteFirst with nodes := #[⟨0, some 4, [], 0⟩, ⟨1, some 4, [], 1⟩, ⟨2, none, [], 2⟩,
      ⟨3, some 4, [], 3⟩, ⟨4, none, [0, 1, 5, 3], 4⟩, ⟨5, some 4, [], 5⟩] }

def callsApart : List (Call Empty Reply) := [
  ⟨4, quoteFirst, .ok (.answer (.value (.node 4))), quoteFirst⟩,
  ⟨1, quoteFirst, .ok (.answer (.value (.list [.node 0, .node 1]))), quoteFirst⟩,
  ⟨0, quoteEmptied, .ok (.answer (.value (.node 0))), quoteEmptied⟩,
  ⟨2, quoteEmptied, .ok (.answer (.value (.node 5))), quoteEmptied⟩,
  ⟨3, secondReplaced, .ok (.children 3 .noNode), secondReplaced⟩]

theorem passCalls_takingApart (steps : Nat) :
    ∃ k, passCalls takingApart 0 steps 4 quoteFirst () = callsApart.take k := by
  rcases steps with _ | _ | _ | _ | _ | _ | steps
  · exact ⟨1, rfl⟩
  · exact ⟨2, rfl⟩
  · exact ⟨3, rfl⟩
  · exact ⟨3, rfl⟩
  · exact ⟨4, rfl⟩
  · exact ⟨5, rfl⟩
  · have hends : (result (revise takingApart.traced 0 6 4) quoteFirst ((), [])).1 ≠
        .error .exhausted := by
      have hres : (result (revise takingApart.traced 0 6 4) quoteFirst ((), [])).1 = .ok 4 := rfl
      rw [hres]
      exact nofun
    refine ⟨5, ?_⟩
    rw [Nat.add_comm steps 6, passCalls_add hends]
    rfl

theorem local_takingApart (steps : Nat) :
    ∀ call ∈ passCalls takingApart 0 steps 4 quoteFirst (),
      SteadyBelow 4 call ∧ Local 4 (settledCall call) := by
  have hkept (n : NodeId) (f : Forest) :
      SteadyBelow 4 (⟨n, f, .ok (.answer (.value (.node n))), f⟩ : Call Empty Reply) ∧
        Local 4 (settledCall (⟨n, f, .ok (.answer (.value (.node n))), f⟩ : Call Empty Reply)) :=
    ⟨fun _ reply hreply => by cases hreply; trivial, local_of_keep 4 n f⟩
  obtain ⟨k, hcalls⟩ := passCalls_takingApart steps
  rw [hcalls]
  intro call hcall
  have hmem := List.mem_of_mem_take hcall
  simp only [callsApart, List.mem_cons, List.not_mem_nil, or_false] at hmem
  rcases hmem with rfl | rfl | rfl | rfl | rfl
  · exact hkept 4 _
  · refine ⟨fun _ reply hreply => by cases hreply; trivial,
      local_of_same (fun h => absurd h (by decide)) fun action haction v hv => ?_⟩
    cases haction
    simp only [Action.values, List.mem_cons, List.not_mem_nil, or_false] at hv
    rcases hv with rfl | rfl
    · exact ⟨0, by decide, rfl, Or.inr (Or.inl List.mem_cons_self)⟩
    · exact ⟨1, by decide, rfl, Or.inl rfl⟩
  · exact hkept 0 _
  · refine ⟨fun _ reply hreply => by cases hreply; trivial,
      local_of_same (fun h => absurd h (by decide)) fun action haction v hv => ?_⟩
    cases haction
    exact ⟨5, by decide, List.mem_singleton.1 hv, Or.inr (Or.inr rfl)⟩
  · refine ⟨fun _ reply hreply => by cases hreply; rfl,
      local_of_same (fun h => absurd h (by decide)) fun action haction v hv => ?_⟩
    cases haction
    exact absurd hv List.not_mem_nil

def keepingAll : Responder Unit Empty := fun n f s => (.ok (.answer (.value (.node n))), f, s)

theorem passCalls_keepingAll (steps : Nat) :
    ∃ k, passCalls keepingAll 0 steps 4 quoteFirst () = (([4, 1, 0, 2, 3].map fun n =>
      ⟨n, quoteFirst, .ok (.answer (.value (.node n))), quoteFirst⟩) :
        List (Call Empty Reply)).take k := by
  rcases steps with _ | _ | _ | _ | _ | _ | _ | steps
  · exact ⟨1, rfl⟩
  · exact ⟨2, rfl⟩
  · exact ⟨3, rfl⟩
  · exact ⟨3, rfl⟩
  · exact ⟨4, rfl⟩
  · exact ⟨5, rfl⟩
  · exact ⟨5, rfl⟩
  · have hends : (result (revise keepingAll.traced 0 7 4) quoteFirst ((), [])).1 ≠
        .error .exhausted := by
      have hres : (result (revise keepingAll.traced 0 7 4) quoteFirst ((), [])).1 = .ok 4 := rfl
      rw [hres]
      exact nofun
    refine ⟨5, ?_⟩
    rw [Nat.add_comm steps 7, passCalls_add hends]
    rfl

theorem keep_keepingAll (steps : Nat) :
    ∀ call ∈ passCalls keepingAll 0 steps 4 quoteFirst (),
      (SteadyBelow 4 call ∧ Local 4 (settledCall call)) ∧ Chose (settledCall call) .keep := by
  obtain ⟨k, hcalls⟩ := passCalls_keepingAll steps
  rw [hcalls]
  intro call hcall
  obtain ⟨n, -, rfl⟩ := List.mem_map.1 (List.mem_of_mem_take hcall)
  exact ⟨⟨fun _ reply hreply => by cases hreply; trivial, local_of_keep 4 n quoteFirst⟩,
    chose_ok_iff.2 (toAction_same n)⟩

/-- The recursion tells what becomes of the document that is taken apart, and of one that is
kept. -/
theorem refines_recursion_quoteFirst :
    (∃ steps g calls, settledRun (result (reviseTree takingApart.traced 0 steps 4) quoteFirst
        ((), [])) = (.ok (.node 4 [.node 0 [], .node 1 [], .node 5 []]), g, ((), calls)) ∧
      calls.map (·.node) = [4, 1, 0, 2, 3]) ∧
    ∃ enough, ∀ steps ≥ enough, ∃ g t calls,
      result (reviseTree keepingAll.traced 0 steps 4) quoteFirst ((), []) =
        (.ok (quoteFirst.tree 4), g, (t, calls)) ∧ calls.map (·.node) = [4, 1, 0, 2, 3] := by
  constructor
  · have hagree := (refines_recursion takingApart 0 4 quoteFirst () wellFormed_quoteFirst
      (by decide) local_takingApart).1
    obtain ⟨steps, hsteps⟩ := (hagree (.ok (.node 4 [.node 0 [], .node 1 [], .node 5 []]), _, _)
      nofun).2 ⟨8, rfl⟩
    exact ⟨steps, _, _, hsteps, rfl⟩
  · exact (refines_recursion keepingAll 0 4 quoteFirst () wellFormed_quoteFirst (by decide)
      fun steps call hcall => (keep_keepingAll steps call hcall).1).2
      fun steps call hcall => (keep_keepingAll steps call hcall).2

/-- Answers for the block quote with the list in which it keeps its two paragraphs. -/
def unwrapping : Responder Unit Empty := fun n f s =>
  (.ok (if n = 2 then .children 2 .noNode else .answer (.value (.node n))), f, s)

def firstLost : Forest :=
  { pairQuoted with nodes := #[⟨0, none, [], 0⟩, ⟨1, some 3, [], 1⟩, ⟨2, none, [1], 2⟩,
      ⟨3, none, [1], 3⟩] }

/-- The calls that are made about the document with the block quote. -/
def callsUnwrapping : List (Call Empty Reply) := [
  ⟨3, pairQuoted, .ok (.answer (.value (.node 3))), pairQuoted⟩,
  ⟨2, pairQuoted, .ok (.children 2 .noNode), pairQuoted⟩,
  ⟨1, firstLost, .ok (.answer (.value (.node 1))), firstLost⟩]

theorem result_unwrapping :
    result (revise unwrapping.traced 1 3 3) pairQuoted ((), []) =
      (.ok 3, firstLost, (), callsUnwrapping) := rfl

theorem passCalls_unwrapping (steps : Nat) :
    ∃ k, passCalls unwrapping 1 steps 3 pairQuoted () = callsUnwrapping.take k := by
  rcases steps with _ | _ | _ | steps
  · exact ⟨1, rfl⟩
  · exact ⟨2, rfl⟩
  · exact ⟨3, rfl⟩
  · refine ⟨3, ?_⟩
    rw [Nat.add_comm steps 3, passCalls_add (by rw [result_unwrapping]; exact nofun)]
    rfl

theorem local_unwrapping (steps : Nat) :
    ∀ call ∈ passCalls unwrapping 1 steps 3 pairQuoted (), Local 3 (settledCall call) := by
  obtain ⟨k, hcalls⟩ := passCalls_unwrapping steps
  rw [hcalls]
  intro call hcall
  have hmem := List.mem_of_mem_take hcall
  simp only [callsUnwrapping, List.mem_cons, List.not_mem_nil, or_false] at hmem
  rcases hmem with rfl | rfl | rfl
  · exact local_of_keep 3 3 pairQuoted
  · refine local_of_same (fun h => absurd h (by decide)) fun action haction v hv => ?_
    cases haction
    obtain ⟨m, hm, rfl⟩ := List.mem_map.1 hv
    exact ⟨m, wellFormed_pairQuoted.lt_size_of_mem hm, rfl, Or.inr (Or.inl hm)⟩
  · exact local_of_keep 3 1 firstLost

/-- The recursion puts both paragraphs in the place of the block quote; the revision loses the
first. -/
theorem not_refining_unwrapping :
    pairQuoted.WellFormed ∧
      (∀ steps, ∀ call ∈ passCalls unwrapping 1 steps 3 pairQuoted (),
        Local 3 (settledCall call)) ∧
      ¬ ∀ last : Except (Stop Empty) Tree × Forest × (Unit × List (Call Empty Answer)),
        last.1 ≠ .error .exhausted →
          ((∃ steps, settledRun (result (reviseTree unwrapping.traced 1 steps 3) pairQuoted
              ((), [])) = last) ↔
            ∃ fuel, result (rewriteTree (settledVisitor unwrapping).traced fuel
              (pairQuoted.tree 3)) pairQuoted ((), []) = last) := by
  refine ⟨wellFormed_pairQuoted, local_unwrapping, fun hagree => ?_⟩
  obtain ⟨steps, hsteps⟩ := (hagree (.ok (.node 3 [.node 0 [], .node 1 []]), _, _) (fun h => by
    cases h)).2 ⟨8, rfl⟩
  rcases hrun : result (reviseTree unwrapping.traced 1 steps 3) pairQuoted ((), []) with ⟨r, g, t⟩
  have hr : r = .ok (.node 3 [.node 0 [], .node 1 []]) := by
    rw [hrun] at hsteps
    exact congrArg (·.1) hsteps
  -- With more steps, both the tree and the one without the first paragraph come out.
  have hmore : Approximates (reviseTree unwrapping.traced 1 steps 3)
      (reviseTree unwrapping.traced 1 (steps + 3) 3) :=
    .bind (approximates_revise _ 1 steps 3 3) fun _ => .refl _
  have hmore' : Approximates (reviseTree unwrapping.traced 1 3 3)
      (reviseTree unwrapping.traced 1 (3 + steps) 3) :=
    .bind (approximates_revise _ 1 3 steps 3) fun _ => .refl _
  have hthree : (result (reviseTree unwrapping.traced 1 3 3) pairQuoted ((), [])).1 =
      .ok (.node 3 [.node 1 []]) := by
    rw [reviseTree, result_bind, result_unwrapping]
    rfl
  have hfirst := hmore pairQuoted ((), []) (by rw [hrun, hr]; exact nofun)
  have hsecond := hmore' pairQuoted ((), []) (by rw [hthree]; exact nofun)
  rw [Nat.add_comm, hsecond, hrun, hr] at hfirst
  have hsame := hthree.symm.trans (congrArg (·.1) hfirst)
  cases hsame

/-! ### Final nodes -/

/-- Once a splice has made a node final, a quiet visitor that hands over no list with anything in it
is never asked about it, and never about a node below it unless a later reply puts the final node
itself in place and asks to go on there. -/
theorem sealed_until_reopened (visit : Responder σ ε) (rounds steps : Nat) (root : NodeId)
    (f : Forest) (s : σ) (hf : f.WellFormed)
    (hquiet : ∀ call ∈ passCalls visit rounds steps root f s,
      SteadyBelow root call ∧ Quiet (settledCall call)) :
    ∀ before call between later after m,
      (passCalls visit rounds steps root f s).map settledCall =
        before ++ call :: (between ++ later :: after) →
      Seals call m → later.node ≠ m ∧
        (later.before.Ancestor m later.node → ∃ k ∈ between, Reopens k m) := by
  have hcalls := passCalls_settled fun call hcall => (hquiet call hcall).1
  rw [← hcalls]
  refine final_until_reopened (settledVisitor visit) steps root f s hf ?_
  rw [hcalls]
  exact List.forall_mem_map.2 fun call hcall => (hquiet call hcall).2

/-- The quotation is put in place again before its paragraph is offered. -/
theorem sealed_until_reopened_reopening :
    (0 : NodeId) ≠ 1 ∧
      (quoteReplaced.Ancestor 1 0 →
        ∃ k ∈ [(⟨3, quoteSpliced, .ok (.value (.node 1)), quoteSpliced⟩ : Call Empty Answer)],
          Reopens k 1) :=
  sealed_until_reopened (answering reopening) 0 12 4 quoteApart () wellFormed_quoteApart
    (forall_answering quiet_reopening)
    [⟨4, quoteApart, .ok (.value (.node 4)), quoteApart⟩] _ [_]
    ⟨0, quoteReplaced, .ok (.value (.node 0)), quoteReplaced⟩
      [] 1 ((settled_answering reopening 0 12 4 quoteApart ()).trans passCalls_reopening)
      seals_reopening

/-- Its paragraph is offered then, although it lies below a node that was made final. -/
theorem not_sealed_reopening :
    quoteApart.WellFormed ∧
      (∀ call ∈ passCalls (answering reopening) 0 12 4 quoteApart (),
        SteadyBelow 4 call ∧ Quiet (settledCall call)) ∧
      ¬ ∀ before call between later after m,
        (passCalls (answering reopening) 0 12 4 quoteApart ()).map settledCall =
          before ++ call :: (between ++ later :: after) →
        Seals call m → later.node ≠ m ∧ ¬ later.before.Ancestor m later.node := by
  refine ⟨wellFormed_quoteApart, forall_answering quiet_reopening, fun hfinal => ?_⟩
  have hbelow : quoteReplaced.parent? 0 = some 1 := by decide
  exact (hfinal [⟨4, quoteApart, .ok (.value (.node 4)), quoteApart⟩] _
    [⟨3, quoteSpliced, .ok (.value (.node 1)), quoteSpliced⟩]
    ⟨0, quoteReplaced, .ok (.value (.node 0)), quoteReplaced⟩ [] 1
      ((settled_answering reopening 0 12 4 quoteApart ()).trans passCalls_reopening)
      seals_reopening).2 (.parent hbelow)

/-! ### Nodes of a splice -/

/-- Each node of a splice below the root that is not final, and was neither offered nor put in the
place of another before, gets its turn: a quiet visitor that hands over no list with anything in it
is asked about it, in the order of the splice, unless the reply about an earlier node, or about a
node below one, names it before; only an error ends the revision sooner. About a node that is
spliced in the place of the root itself the visitor is never asked. -/
theorem offered_in_turn (visit : Responder σ ε) (rounds steps : Nat) (root : NodeId) (f : Forest)
    (s : σ) (hf : f.WellFormed)
    (hquiet : ∀ call ∈ passCalls visit rounds steps root f s,
      SteadyBelow root call ∧ Quiet (settledCall call)) :
    ∀ before call after earlier n later,
      (passCalls visit rounds steps root f s).map settledCall = before ++ call :: after →
      SplicesIn before call earlier n later →
      (call.node ≠ root → GetsTurn earlier later n after ∨
        (∃ stop g t, result (revise visit rounds steps root) f s = (.error stop, g, t)) ∧
          Undisturbed earlier later n after) ∧
      (call.node = root → n ∉ (passCalls visit rounds steps root f s).map (·.node)) := by
  have hsteady := fun call hcall => (hquiet call hcall).1
  have hcalls := passCalls_settled hsteady
  have hnodes : (passCalls visit rounds steps root f s).map (·.node) =
      (Revision.passCalls (settledVisitor visit) steps root f s).map (·.node) := by
    rw [hcalls, List.map_map]
    rfl
  rw [← hcalls, hnodes, ← result_settled hsteady]
  refine spliced_offered_in_turn (settledVisitor visit) steps root f s hf ?_
  rw [hcalls]
  exact List.forall_mem_map.2 fun call hcall => (hquiet call hcall).2

/-- The second paragraph is offered in its new place, after the quotation and what it holds. -/
theorem offered_in_turn_gathering :
    ((2 : NodeId) ≠ 4 → GetsTurn [1] [] 3 [
        (⟨1, quoteSpliced, .ok (.value (.node 1)), quoteSpliced⟩ : Call Empty Answer),
        ⟨0, quoteSpliced, .ok (.value (.node 0)), quoteSpliced⟩,
        ⟨3, quoteSpliced, .ok (.value (.node 3)), quoteSpliced⟩] ∨
      (∃ stop g t, result (revise (answering gathering) 0 12 4) quoteApart () =
        (.error stop, g, t)) ∧
        Undisturbed [1] [] 3 [
          (⟨1, quoteSpliced, .ok (.value (.node 1)), quoteSpliced⟩ : Call Empty Answer),
          ⟨0, quoteSpliced, .ok (.value (.node 0)), quoteSpliced⟩,
          ⟨3, quoteSpliced, .ok (.value (.node 3)), quoteSpliced⟩]) ∧
    ((2 : NodeId) = 4 →
      3 ∉ (passCalls (answering gathering) 0 12 4 quoteApart ()).map (·.node)) :=
  offered_in_turn (answering gathering) 0 12 4 quoteApart () wellFormed_quoteApart
    (forall_answering quiet_gathering) _ _ _ [1] 3 []
    ((settled_answering gathering 0 12 4 quoteApart ()).trans passCalls_gathering)
    splicesIn_gathering

/-- The quotation that takes the place of the document is not offered, though the revision returns
it and no reply names it again. -/
theorem not_offered_in_turn_quotingRoot :
    quoteApart.WellFormed ∧
      (∀ call ∈ passCalls (answering quotingRoot) 0 12 4 quoteApart (),
        SteadyBelow 4 call ∧ Quiet (settledCall call)) ∧
      result (revise (answering quotingRoot) 0 12 4) quoteApart () = (.ok 1, quoteApart, ()) ∧
      ¬ ∀ before call after earlier n later,
        (passCalls (answering quotingRoot) 0 12 4 quoteApart ()).map settledCall =
          before ++ call :: after →
        SplicesIn before call earlier n later → GetsTurn earlier later n after := by
  refine ⟨wellFormed_quoteApart, forall_answering quiet_quotingRoot, result_answering _ _ _ _ _ _,
    fun hturns => ?_⟩
  have hsplices : SplicesIn []
      (⟨4, quoteApart, .ok (.value (.list [.node 1])), quoteApart⟩ : Call Empty Answer) [] 1
      [] := by
    refine ⟨⟨_, _, ⟨_, rfl, rfl⟩, rfl⟩, by decide, by simp, fun k hk => ?_⟩
    rw [List.mem_singleton.1 hk]
    exact not_seals_value rfl
  have hcalls := (settled_answering quotingRoot 0 12 4 quoteApart ()).trans passCalls_quotingRoot
  obtain ⟨between, next, rest, hsplit, -, hnext⟩ := hturns [] _ _ [] 1 [] hcalls hsplices
  obtain rfl : next = ⟨0, quoteApart, .ok (.value (.node 0)), quoteApart⟩ := by
    have hmem : next ∈ [(⟨0, quoteApart, .ok (.value (.node 0)), quoteApart⟩ :
        Call Empty Answer)] := hsplit ▸ List.mem_append_right _ List.mem_cons_self
    exact List.mem_singleton.1 hmem
  rcases hnext with hnode | ⟨-, hnames⟩
  · exact absurd hnode (by decide)
  · exact not_names_kept 0 quoteApart quoteApart hnames

end MarkdownTree.Revision.Live
