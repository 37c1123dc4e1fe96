import MarkdownTree.Proofs.Places

/-!
Runs of a pass from one configuration to another. A run of some steps leaves all further steps to
the configuration that it reaches; a run that fails does so whatever steps are left.
-/

namespace MarkdownTree.Revision

open Forest Asking

variable {σ ε : Type} {visit : Visitor σ ε}

/-- Where a pass is: how far it has come, the forest, and the state of the visitor. -/
structure Config (σ : Type) where
  progress : Progress
  forest : Forest
  state : σ

variable {a b c : Config σ} {e : ε} {j k : Nat}

def Config.run (visit : Visitor σ ε) (steps : Nat) (c : Config σ) :
    Except (Stop ε) Unit × Forest × σ :=
  result (finish visit steps c.progress) c.forest c.state

/-- Within `k` steps a pass gets from one configuration to another. -/
def Reaches (visit : Visitor σ ε) (k : Nat) (a b : Config σ) : Prop :=
  ∃ taken ≤ k, ∀ steps, a.run visit (steps + taken) = b.run visit steps

/-- Within `k` steps a pass stops at a failure of the visitor. -/
def Fails (visit : Visitor σ ε) (k : Nat) (a : Config σ) (e : ε) : Prop :=
  ∃ taken ≤ k, ∀ steps, (a.run visit (steps + taken)).1 = .error (.visitor e)

namespace Reaches

theorem refl (a : Config σ) : Reaches visit 0 a a :=
  ⟨0, Nat.le_refl 0, fun _ => rfl⟩

theorem mono (h : Reaches visit j a b) (hjk : j ≤ k) : Reaches visit k a b := by
  obtain ⟨taken, hle, hrun⟩ := h
  exact ⟨taken, Nat.le_trans hle hjk, hrun⟩

theorem trans (hab : Reaches visit j a b) (hbc : Reaches visit k b c) :
    Reaches visit (j + k) a c := by
  obtain ⟨m, hm, hrun⟩ := hab
  obtain ⟨n, hn, hrun'⟩ := hbc
  refine ⟨n + m, by omega, fun steps => ?_⟩
  rw [← Nat.add_assoc, hrun, hrun']

theorem fails (hab : Reaches visit j a b) (hb : Fails visit k b e) :
    Fails visit (j + k) a e := by
  obtain ⟨m, hm, hrun⟩ := hab
  obtain ⟨n, hn, hfail⟩ := hb
  refine ⟨n + m, by omega, fun steps => ?_⟩
  rw [← Nat.add_assoc, hrun, hfail]

end Reaches

theorem Fails.mono (h : Fails visit j a e) (hjk : j ≤ k) : Fails visit k a e := by
  obtain ⟨taken, hle, hrun⟩ := h
  exact ⟨taken, Nat.le_trans hle hjk, hrun⟩

/-- As long as a place is open, a run begins with a step. -/
theorem run_succ {place : Frame} {rest : List Frame} (hstack : a.progress.stack = place :: rest)
    (steps : Nat) :
    a.run visit (steps + 1) =
      match result (step visit a.progress) a.forest a.state with
      | (.ok progress, g, t) => Config.run visit steps ⟨progress, g, t⟩
      | (.error stop, g, t) => (.error stop, g, t) := by
  unfold Config.run
  rw [finish, hstack, List.isEmpty_cons, if_neg Bool.false_ne_true, result_bind]
  rcases result (step visit a.progress) a.forest a.state with ⟨_ | _, _, _⟩ <;> rfl

theorem Reaches.of_step {place : Frame} {rest : List Frame}
    (hstack : a.progress.stack = place :: rest)
    (hstep : result (step visit a.progress) a.forest a.state =
      (.ok b.progress, b.forest, b.state)) : Reaches visit 1 a b := by
  refine ⟨1, Nat.le_refl 1, fun steps => ?_⟩
  rw [run_succ hstack, hstep]

theorem Fails.of_step {place : Frame} {rest : List Frame} {g : Forest} {t : σ}
    (hstack : a.progress.stack = place :: rest)
    (hstep : result (step visit a.progress) a.forest a.state = (.error (.visitor e), g, t)) :
    Fails visit 1 a e := by
  refine ⟨1, Nat.le_refl 1, fun steps => ?_⟩
  rw [run_succ hstack, hstep]

/-- A run that comes to a configuration without open places within the steps of a pass ends
there. -/
theorem Reaches.run_eq (h : Reaches visit k a b) (hstack : b.progress.stack = []) {steps : Nat}
    (hk : k ≤ steps) : a.run visit steps = (.ok (), b.forest, b.state) := by
  obtain ⟨taken, hle, hrun⟩ := h
  have hsteps : steps = (steps - taken) + taken := by omega
  rw [hsteps, hrun, Config.run]
  cases steps - taken <;>
  · rw [finish, hstack]
    rfl

/-- When the root is kept, the pass goes on with its children. -/
theorem result_revise_keep {root : NodeId} {f : Forest} {s t : σ}
    (hvisit : visit root f s = (.ok (.action .keep), f, t)) (steps : Nat) :
    result (revise visit steps root) f s =
      match Config.run visit steps ⟨⟨[⟨root, 0⟩], [root], []⟩, f, t⟩ with
      | (.ok _, g, u) => (.ok root, g, u)
      | (.error stop, g, u) => (.error stop, g, u) := by
  rw [result_revise, hvisit]
  simp only [Answer.toAction, rootAction]
  have htake : result (takePlace root root [root] : Pass σ ε (List NodeId)) f t =
      (.ok [root], f, t) := by
    simp [takePlace]
  refine (result_reviseAt _ _ htake steps true).trans ?_
  unfold Config.run
  rcases result (finish visit steps ⟨[⟨root, 0⟩], [root], []⟩) f t with ⟨_ | _, _, _⟩ <;> rfl

theorem Fails.run_eq (h : Fails visit k a e) {steps : Nat} (hk : k ≤ steps) :
    (a.run visit steps).1 = .error (.visitor e) := by
  obtain ⟨taken, hle, hrun⟩ := h
  have hsteps : steps = (steps - taken) + taken := by omega
  rw [hsteps]
  exact hrun _

end MarkdownTree.Revision
