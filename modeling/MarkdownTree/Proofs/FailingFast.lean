import MarkdownTree.Proofs.PassSteps
import MarkdownTree.Proofs.Within

/-!
Passes that end in an error. Every check of an action comes before its first change, so the forest
that an error leaves is the one that the last call of the visitor has left, and that one came about
by carrying out the actions decided on before, each as a whole. The invariant says that the calls
made so far account for the forest; a step makes at most one call, and a step that stops the pass
changes nothing after its call.
-/

namespace MarkdownTree.Revision

open Forest Asking

variable {σ ε : Type} {visit : Visitor σ ε} {f g h : Forest} {c n p root top : NodeId}
  {call : Call ε Answer} {calls calls' : List (Call ε Answer)} {progress progress' : Progress}
  {place : Frame} {rest : List Frame} {action : Action} {stop : Stop ε}

/-- A call that changes nothing: it may make new nodes, and names nodes that exist. -/
structure Harmless (call : Call ε Answer) : Prop where
  wellFormed : call.before.WellFormed → call.after.WellFormed
  within : call.before.Within call.after
  known : ∀ action, Chose call action → action.KnownIn call.after

theorem Harmless.quiet (h : Harmless call) : Quiet call where
  wellFormed := h.wellFormed
  size_le := h.within.size_le
  parent?_eq _ := h.within.parent?_eq
  children_eq _ := h.within.children_eq
  known := h.known

/-- The forest after an action that was decided on in a call: a node that is kept changes nothing;
the root gives way to another root; the values of an action about any other node replace it among
the children of its parent. -/
inductive Performed (root : NodeId) (call : Call ε Answer) : Action → Forest → Prop
  | keep : Performed root call .keep call.after
  | root {action : Action} {new : NodeId} {descend : Bool} (hnode : call.node = root)
      (haction : rootAction call.after root action = .ok (.node new, descend)) :
      Performed root call action (rootPlaced call.after root new)
  | child {action : Action} {p : NodeId} {index : Nat} {g : Forest} (hnode : call.node ≠ root)
      (haction : action ≠ .keep) (hparent : call.after.parent? call.node = some p)
      (hreplaced : outcome (replaceChild p (.node call.node) action.values) call.after =
        (.ok index, g)) :
      Performed root call action g

/-- Calls lead from a forest to another through the actions that were decided on in them, in order:
each call starts from what the actions before it have left. -/
inductive Applied (root : NodeId) (f : Forest) : List (Call ε Answer) → Forest → Prop
  | nil : Applied root f [] f
  | snoc {calls : List (Call ε Answer)} {call : Call ε Answer} {action : Action} {g : Forest}
      (before : Applied root f calls call.before) (hchose : Chose call action)
      (hperformed : Performed root call action g) : Applied root f (calls ++ [call]) g

/-- The calls of a pass that an error has ended: the last of them was made in the forest that the
actions before it have led to, and what it left stays as it is. -/
def FailedAt (root : NodeId) (f g : Forest) (calls : List (Call ε Answer)) : Prop :=
  ∃ before last, calls = before ++ [last] ∧ Applied root f before last.before ∧ last.after = g

variable {s t : σ}

/-- A substitution that is refused changes nothing. -/
theorem substitute_error {values : List Value} {stack : List Frame} {before after : List NodeId}
    (hf : f.WellFormed) (hlist : f.children p = before ++ c :: after)
    (hknown : ∀ v ∈ values, f.Known v)
    (hres : result (substitute p c values stack : Pass σ ε (List Frame × Nat)) f s =
      (.error stop, g, t)) : g = f := by
  rw [result_substitute] at hres
  cases hleft : departures f c values with
  | error e =>
      rw [hleft] at hres
      cases hres
      rfl
  | ok left =>
      rw [hleft] at hres
      rcases hout : outcome (replaceChild p (.node c) values) f with ⟨e | i, g'⟩
      · simp only [hout] at hres
        cases hres
        exact replaceChild_error hf hlist hknown hout
      · simp only [hout] at hres
        cases hres

/-- An action that is refused changes nothing. -/
theorem carryOut_error (hf : f.WellFormed) (hmem : c ∈ f.children place.node)
    (hknown : action.KnownIn f)
    (hres : result (carryOut progress place c action : Pass σ ε Progress) f s =
      (.error stop, g, t)) : g = f := by
  obtain ⟨before, after, hlist⟩ := List.append_of_mem hmem
  cases action with
  | keep => cases hres
  | replace v descend =>
      rcases result_bind_eq_error_iff.1 hres with hsub | ⟨_, _, _, _, hrest⟩
      · exact substitute_error hf hlist hknown hsub
      · cases hrest
  | splice values final =>
      rcases result_bind_eq_error_iff.1 hres with hsub | ⟨_, _, _, _, hrest⟩
      · exact substitute_error hf hlist hknown hsub
      · cases hrest
  | delete =>
      rw [result_delete, outcome_replaceChild_nil hf hlist] at hres
      cases hres

/-- A step that stops a pass has made a call, and has changed nothing after it. -/
theorem step_error {s t : σ × List (Call ε Answer)} (hf : f.WellFormed)
    (hstack : progress.stack = place :: rest) (hquiet : AllGood Quiet t)
    (hres : result (step visit.traced progress) f s = (.error stop, g, t)) :
    ∃ last, t.2 = s.2 ++ [last] ∧ last.before = f ∧ last.after = g := by
  cases stepped_of_result hstack hres with
  | stop => exact ⟨_, rfl, rfl, rfl⟩
  | @act c a action g₁ _ _ _ hc _ _ _ haction hcarry =>
      have hq : Quiet (⟨c, f, .ok a, g₁⟩ : Call ε Answer) :=
        hquiet _ (List.mem_append_right _ List.mem_cons_self)
      obtain rfl := carryOut_error (hq.wellFormed hf)
        (List.mem_of_getElem? (hq.getElem?_children hc))
        (hq.known action (chose_ok_iff.2 haction)) hcarry
      exact ⟨_, rfl, rfl, rfl⟩

/-- An action that was carried out about a child replaced it among the children of its parent. -/
theorem Carried.performed (h : Carried progress place rest c call.after action progress' g)
    (hf : call.after.WellFormed) (hmem : c ∈ call.after.children place.node)
    (hnode : call.node = c) (hroot : c ≠ root) : Performed root call action g := by
  subst hnode
  cases h.changed with
  | keep => exact .keep
  | put hne hvalues hlist hfit hlt =>
      have hreplaced := outcome_replaceChild hf hlist hfit hlt
      rw [← hvalues] at hreplaced
      exact .child hroot hne (hf.parent?_of_mem hmem) hreplaced

/-- What holds at each step of a pass that has begun in `f`: the actions so far account for the
forest. -/
structure Applying (root top : NodeId) (f : Forest) (progress : Progress) (g : Forest)
    (calls : List (Call ε Answer)) : Prop where
  standing : Standing top progress g
  root_offered : root ∈ progress.offered
  applied : Applied root f calls g

theorem Applying.step (hinv : Applying root top f progress g calls)
    (hmoves : Moves progress g calls progress' h calls') :
    Applying root top f progress' h calls' := by
  have hstanding := hinv.standing.step hmoves
  cases hmoves with
  | close => exact ⟨hstanding, hinv.root_offered, hinv.applied⟩
  | passOver => exact ⟨hstanding, hinv.root_offered, hinv.applied⟩
  | meet => exact ⟨hstanding, hinv.root_offered, hinv.applied⟩
  | @act place rest c a action g' _ _ hstack hc _ hoffered hquiet haction hcarried =>
      have hmem := List.mem_of_getElem? (hquiet.getElem?_children hc)
      have hroot : c ≠ root := fun heq => hoffered (heq ▸ hinv.root_offered)
      have hperformed : Performed root (⟨c, g, .ok a, g'⟩ : Call ε Answer) action h :=
        hcarried.performed (hquiet.wellFormed hinv.standing.wellFormed) hmem rfl hroot
      refine ⟨hstanding, ?_, .snoc hinv.applied ⟨a, rfl, haction⟩ hperformed⟩
      exact (hcarried.recorded hstack).offered (List.mem_cons_of_mem c hinv.root_offered)

/-- How a pass accounts for the forest that it leaves: every action that was decided on was carried
out, or an error has ended the pass at its last call. -/
inductive Accounted (root : NodeId) (f : Forest) {α : Type} :
    Except (Stop ε) α → Forest → List (Call ε Answer) → Prop
  | done {r : Except (Stop ε) α} {g : Forest} {calls : List (Call ε Answer)}
      (hr : ∀ stop, r = .error stop → stop = .exhausted) (happlied : Applied root f calls g) :
      Accounted root f r g calls
  | failed {stop : Stop ε} {g : Forest} {calls : List (Call ε Answer)}
      (hfailed : FailedAt root f g calls) : Accounted root f (.error stop) g calls

/-- A run that an error ends leaves what its last call has left. -/
theorem Applying.finish {steps : Nat} {s t : σ × List (Call ε Answer)} {r : Except (Stop ε) Unit}
    (hinv : Applying root top f progress g s.2) (hquiet : AllGood Quiet t)
    (hres : result (finish visit.traced steps progress) g s = (r, h, t)) :
    Accounted root f r h t.2 := by
  have hends : Ends visit (Applying root top f) r h t :=
    ends_finish (fun hinv hstack hquiet hstep =>
      hinv.step (hinv.standing.moves hstack hquiet hstep)) hinv hquiet hres
  cases hends with
  | closed _ hinv => exact .done (fun _ hstop => by cases hstop) hinv.applied
  | exhausted hinv => exact .done (fun _ hstop => (Except.error.inj hstop).symm) hinv.applied
  | stopped hstack hinv hstep =>
      obtain ⟨last, hcalls, rfl, hafter⟩ :=
        step_error hinv.standing.wellFormed hstack hquiet hstep
      exact .failed ⟨_, last, hcalls, hinv.applied, hafter⟩

theorem accounted_revise {steps : Nat} {s : σ} {t : σ × List (Call ε Answer)}
    {r : Except (Stop ε) NodeId} (hf : f.WellFormed) (hquiet : AllGood Quiet t)
    (hres : result (revise visit.traced steps root) f (s, []) = (r, g, t)) :
    Accounted root f r g t.2 := by
  obtain ⟨call, hcall, hnode, rfl, hbegins⟩ :=
    begins_revise hf (fun call hc => (hquiet call hc).wellFormed) hres
  have hafter := (hquiet call hcall).wellFormed hf
  cases hbegins with
  | stop _ => exact .failed ⟨[], call, rfl, .nil, rfl⟩
  | done hchose haction =>
      exact .done (fun _ hstop => by cases hstop) (.snoc .nil hchose (.root hnode haction))
  | @goOn action new _ r _ _ hchose haction hfinish =>
      have hroot : root ∈ (begun root new).offered := by
        unfold begun
        split <;> simp
      have hstart : Applying root new call.before (begun root new)
          (rootPlaced call.after root new) [call] :=
        ⟨⟨wellFormed_rootPlaced hafter root new, rfl⟩, hroot,
          .snoc .nil hchose (.root hnode haction)⟩
      cases hstart.finish hquiet hfinish with
      | done hr happlied =>
          refine .done (fun stop hstop => ?_) happlied
          cases r with
          | ok u => cases hstop
          | error e =>
              cases hstop
              exact hr _ rfl
      | failed hfailed => exact .failed hfailed

theorem harmless_of_same {a : Answer} (h : ∀ action, a.toAction n = .ok action →
    action.KnownIn f) : Harmless (⟨n, f, .ok a, f⟩ : Call ε Answer) where
  wellFormed := id
  within := .refl f
  known := (quiet_of_same h).known

end MarkdownTree.Revision
