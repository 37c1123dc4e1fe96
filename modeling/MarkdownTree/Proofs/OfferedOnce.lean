import MarkdownTree.Proofs.Offered
import MarkdownTree.Proofs.Subtrees

/-!
Whole passes and their offers: each step keeps the invariant of what is covered, so when no place is
open any more every node of the result is settled; and a node that was offered is never offered
again.
-/

namespace MarkdownTree.Revision

open Forest Asking

variable {σ ε : Type} {visit : Visitor σ ε} {f g : Forest} {c n new root top : NodeId}
  {calls : List (Call ε Answer)} {progress : Progress} {place : Frame} {rest : List Frame}

/-! ### Runs -/

theorem traced_eq {a : Except ε Answer} {s t : σ} (h : visit c f s = (a, g, t)) :
    visit.traced c f (s, calls) = (a, g, t, calls ++ [⟨c, f, a, g⟩]) := by
  simp [Callback.traced, h]

/-- What a step of a watched pass does with its innermost place: it closes the place, or it deals
with the child there, which is passed over, met again, or offered to the visitor. An error may stop
the pass once the visitor was asked; otherwise the action of the answer is carried out. -/
inductive Stepped (visit : Visitor σ ε) (progress : Progress) (place : Frame) (rest : List Frame)
    (f : Forest) (s : σ × List (Call ε Answer)) :
    Except (Stop ε) Progress → Forest → σ × List (Call ε Answer) → Prop
  | close (hend : (f.children place.node)[place.next]? = none) :
      Stepped visit progress place rest f s (.ok { progress with stack := rest }) f s
  | passOver {c : NodeId} (hc : (f.children place.node)[place.next]? = some c)
      (hfinal : c ∈ progress.final) :
      Stepped visit progress place rest f s
        (.ok { progress with stack := { place with next := place.next + 1 } :: rest }) f s
  | meet {c : NodeId} (hc : (f.children place.node)[place.next]? = some c)
      (hfinal : c ∉ progress.final) (hoffered : c ∈ progress.offered) :
      Stepped visit progress place rest f s
        (.ok { progress with
          stack := descendInto f c ({ place with next := place.next + 1 } :: rest) }) f s
  | stop {c : NodeId} {a : Except ε Answer} {stop : Stop ε} {g : Forest} {t : σ}
      (hc : (f.children place.node)[place.next]? = some c) (hfinal : c ∉ progress.final)
      (hoffered : c ∉ progress.offered) (hvisit : visit c f s.1 = (a, g, t)) :
      Stepped visit progress place rest f s (.error stop) g (t, s.2 ++ [⟨c, f, a, g⟩])
  | act {c : NodeId} {a : Answer} {action : Action} {g h : Forest} {t : σ}
      {r : Except (Stop ε) Progress} (hc : (f.children place.node)[place.next]? = some c)
      (hfinal : c ∉ progress.final) (hoffered : c ∉ progress.offered)
      (hvisit : visit c f s.1 = (.ok a, g, t)) (haction : a.toAction c = .ok action)
      (hcarry : result (carryOut { progress with offered := c :: progress.offered } place c action)
        g (t, s.2 ++ [⟨c, f, .ok a, g⟩]) = (r, h, (t, s.2 ++ [⟨c, f, .ok a, g⟩]))) :
      Stepped visit progress place rest f s r h (t, s.2 ++ [⟨c, f, .ok a, g⟩])

theorem stepped_of_result {s t : σ × List (Call ε Answer)} {r : Except (Stop ε) Progress}
    (hstack : progress.stack = place :: rest)
    (hres : result (step visit.traced progress) f s = (r, g, t)) :
    Stepped visit progress place rest f s r g t := by
  rw [result_step _ _ hstack] at hres
  cases hc : (f.children place.node)[place.next]? with
  | none =>
      rw [hc] at hres
      cases hres
      exact .close hc
  | some c =>
      simp only [hc, result_handleChild] at hres
      split at hres
      · rename_i hfinal
        rw [hstack] at hres
        cases hres
        exact .passOver hc hfinal
      rename_i hfinal
      split at hres
      · rename_i hoffered
        rw [result_keep, hstack] at hres
        cases hres
        exact .meet hc hfinal hoffered
      rename_i hoffered
      rcases hvisit : visit c f s.1 with ⟨e | a, g₁, t₁⟩
      · rw [traced_eq hvisit] at hres
        cases hres
        exact .stop hc hfinal hoffered hvisit
      rw [traced_eq hvisit] at hres
      cases haction : a.toAction c with
      | error e =>
          simp only [haction] at hres
          cases hres
          exact .stop hc hfinal hoffered hvisit
      | ok action =>
          simp only [haction] at hres
          cases state_carryOut _ hres
          exact .act hc hfinal hoffered hvisit haction hres

/-- How a watched run of steps that keep an invariant ends: no place is open any more, the steps
have run out, or a step stops the pass. -/
inductive Ends (visit : Visitor σ ε) (inv : Progress → Forest → List (Call ε Answer) → Prop) :
    Except (Stop ε) Unit → Forest → σ × List (Call ε Answer) → Prop
  | closed {progress : Progress} {f : Forest} {s : σ × List (Call ε Answer)}
      (hstack : progress.stack = []) (h : inv progress f s.2) : Ends visit inv (.ok ()) f s
  | exhausted {progress : Progress} {f : Forest} {s : σ × List (Call ε Answer)}
      (h : inv progress f s.2) : Ends visit inv (.error .exhausted) f s
  | stopped {progress : Progress} {place : Frame} {rest : List Frame} {f g : Forest}
      {s t : σ × List (Call ε Answer)} {stop : Stop ε} (hstack : progress.stack = place :: rest)
      (h : inv progress f s.2)
      (hstep : result (step visit.traced progress) f s = (.error stop, g, t)) :
      Ends visit inv (.error stop) g t

theorem ends_finish {inv : Progress → Forest → List (Call ε Answer) → Prop}
    {good : Call ε Answer → Prop} {steps : Nat} {s t : σ × List (Call ε Answer)}
    {r : Except (Stop ε) Unit}
    (hkeep : ∀ {progress progress' place rest f g s t}, inv progress f s.2 →
      progress.stack = place :: rest → AllGood good t →
      result (step visit.traced progress) f s = (.ok progress', g, t) → inv progress' g t.2)
    (h : inv progress f s.2) (hgood : AllGood good t)
    (hres : result (finish visit.traced steps progress) f s = (r, g, t)) :
    Ends visit inv r g t := by
  induction steps generalizing progress f s with
  | zero =>
      unfold finish at hres
      split at hres
      · rename_i hempty
        cases hres
        exact .closed (List.isEmpty_iff.1 hempty) h
      · cases hres
        exact .exhausted h
  | succ steps ih =>
      unfold finish at hres
      split at hres
      · rename_i hempty
        cases hres
        exact .closed (List.isEmpty_iff.1 hempty) h
      · rename_i hopen
        obtain ⟨place, rest, hstack⟩ := List.exists_cons_of_ne_nil fun hnil =>
          hopen (List.isEmpty_iff.2 hnil)
        rw [result_bind] at hres
        rcases hstep : result (step visit.traced progress) f s with ⟨e | progress₁, f₁, s₁⟩
        · rw [hstep] at hres
          cases hres
          exact .stopped hstack h hstep
        · rw [hstep] at hres
          have hgood₁ := (mirrors_finish visit steps progress₁).allGood hres hgood
          exact ih (hkeep h hstack hgood₁ hstep) hres

namespace Covering

theorem step {s t : σ × List (Call ε Answer)} {progress' : Progress}
    (h : Covering root top progress f s.2) (hstack : progress.stack = place :: rest)
    (hquiet : AllGood Quiet t)
    (hres : result (step visit.traced progress) f s = (.ok progress', g, t)) :
    Covering root top progress' g t.2 := by
  cases stepped_of_result hstack hres with
  | close hend => exact h.close hstack hend
  -- A final child and one that was offered are settled; any other is offered now.
  | passOver hc hfinal =>
      have hchain := h.standing.chain_cons hstack
      refine h.advance hstack hc hchain (List.Subset.refl _) fun n hn => ?_
      exact Or.inl (Or.inr (Or.inr (Or.inl ⟨_, h.final _ hfinal, hn⟩)))
  | meet hc _ hoffered => exact h.keep hstack hc ((h.offered _ hoffered).imp id Or.inl)
  | @act c a action g₁ _ t₁ _ hc _ _ _ haction hcarry =>
      have hmem : (⟨c, f, .ok a, g₁⟩ : Call ε Answer) ∈ s.2 ++ [⟨c, f, .ok a, g₁⟩] :=
        List.mem_append_right _ List.mem_cons_self
      have hchose : Chose (⟨c, f, .ok a, g₁⟩ : Call ε Answer) action := chose_ok_iff.2 haction
      have hq : Quiet ⟨c, f, .ok a, g₁⟩ := hquiet _ hmem
      have hasked := h.ask hstack (lt_size_of_mem_children (List.mem_of_getElem? hc)) hq
      have hc' := hq.getElem?_children hc
      have hcarried : Carried { progress with offered := c :: progress.offered } place rest c g₁
          action progress' g :=
        carried_of_ok hasked.wellFormed hstack (hasked.standing.nodup hstack)
          (List.mem_of_getElem? hc') (hq.known action hchose) hcarry
      refine hasked.carried hstack hc' hmem (Or.inl ?_) hchose hcarried
      rw [List.map_append]
      exact List.mem_append_right _ List.mem_cons_self

/-- The invariant at the start of a pass below a root that is settled itself. -/
theorem start (hf : f.WellFormed) {offered : List NodeId}
    (hoffered : ∀ n ∈ offered, n ∈ calls.map (·.node) ∨ PutInPlace calls root top n)
    (htop : Settled calls f root top top) :
    Covering root top ⟨[⟨top, 0⟩], offered, []⟩ f calls := by
  refine ⟨hf, rfl, hoffered, by simp, fun n hn => ?_⟩
  rcases hn with rfl | hn
  · exact Or.inl htop
  · obtain ⟨k, hk, hkn⟩ := hf.exists_mem_of_ancestor hn
    exact Or.inr ⟨⟨top, 0⟩, List.mem_cons_self, k, hk, hkn⟩

/-- When no place is open any more, every node of the tree is settled. -/
theorem settled (h : Covering root top progress f calls) (hstack : progress.stack = [])
    (hn : f.AtOrAbove top n) : Settled calls f root top n := by
  rcases h.covered n hn with hsettled | ⟨frame, hframe, -⟩
  · exact hsettled
  · rw [hstack] at hframe
    exact absurd hframe List.not_mem_nil

end Covering

/-! ### No node twice -/

/-- The nodes that calls were about are among the offered ones, each once. -/
structure Once (offered : List NodeId) (calls : List (Call ε Answer)) : Prop where
  subset : calls.map (·.node) ⊆ offered
  nodup : (calls.map (·.node)).Nodup

namespace Once

variable {offered : List NodeId}

theorem mono (h : Once offered calls) {offered' : List NodeId} (hsub : offered ⊆ offered') :
    Once offered' calls :=
  ⟨List.Subset.trans h.subset hsub, h.nodup⟩

theorem ask (h : Once offered calls) (hc : c ∉ offered) (a : Except ε Answer) :
    Once (c :: offered) (calls ++ [⟨c, f, a, g⟩]) := by
  refine ⟨fun n hn => ?_, ?_⟩
  · rw [List.map_append, List.mem_append] at hn
    rcases hn with hn | hn
    · exact List.mem_cons_of_mem c (h.subset hn)
    · rw [List.mem_singleton.1 hn]
      exact List.mem_cons_self
  · rw [List.map_append]
    refine List.nodup_append'.2 ⟨h.nodup, List.nodup_singleton _, fun n hn hnc => ?_⟩
    rw [List.mem_singleton.1 hnc] at hn
    exact hc (h.subset hn)

theorem carryOut {s t : σ × List (Call ε Answer)} {action : Action} {r : Except (Stop ε) Progress}
    (h : Once progress.offered s.2)
    (hres : result (carryOut progress place c action : Pass _ ε Progress) f s = (r, g, t)) :
    (t.2.map (·.node)).Nodup ∧ ∀ progress', r = .ok progress' → Once progress'.offered t.2 := by
  obtain ⟨r', g', hres', hsub⟩ := exists_result_carryOut (ε := ε) progress place c action f
  rw [hres'] at hres
  cases hres
  refine ⟨h.nodup, fun progress' hr => h.mono (hsub progress' ?_)⟩
  cases r' with
  | error e => cases hr
  | ok progress₁ =>
      cases hr
      rfl

theorem step {s t : σ × List (Call ε Answer)} {r : Except (Stop ε) Progress}
    (h : Once progress.offered s.2) (hstack : progress.stack = place :: rest)
    (hres : result (step visit.traced progress) f s = (r, g, t)) :
    (t.2.map (·.node)).Nodup ∧ ∀ progress', r = .ok progress' → Once progress'.offered t.2 := by
  cases stepped_of_result hstack hres with
  | close => exact ⟨h.nodup, fun _ hr => Except.ok.inj hr ▸ h⟩
  | passOver => exact ⟨h.nodup, fun _ hr => Except.ok.inj hr ▸ h⟩
  | meet => exact ⟨h.nodup, fun _ hr => Except.ok.inj hr ▸ h⟩
  | stop _ _ hoffered => exact ⟨(h.ask hoffered _).nodup, nofun⟩
  | act _ _ hoffered _ _ hcarry => exact (h.ask hoffered _).carryOut hcarry

theorem finish {steps : Nat} {s t : σ × List (Call ε Answer)} {r : Except (Stop ε) Unit}
    (h : Once progress.offered s.2)
    (hres : result (finish visit.traced steps progress) f s = (r, g, t)) :
    (t.2.map (·.node)).Nodup := by
  have hends : Ends visit (fun progress _ calls => Once progress.offered calls) r g t :=
    ends_finish (fun h hstack _ hstep => (h.step hstack hstep).2 _ rfl) h
      (fun _ _ => True.intro) hres
  cases hends with
  | closed _ h => exact h.nodup
  | exhausted h => exact h.nodup
  | stopped hstack h hstep => exact (h.step hstack hstep).1

end Once

/-! ### The root -/

/-- Nothing is done below the node that takes the place of the root only if an answer says so. -/
theorem rootAction_closed {action : Action}
    (h : rootAction f root action = .ok (.node new, false)) : action = .replace (.node new) false ∨
      ∃ final, action = .splice [.node new] final ∧ new ∈ final.nodes [.node new] := by
  cases action with
  | keep => cases h
  | replace v descend =>
      cases h
      exact Or.inl rfl
  | splice values final =>
      rcases values with _ | ⟨v, _ | ⟨w, values⟩⟩
      · cases h
      · simp only [rootAction, Except.ok.injEq, Prod.mk.injEq, Bool.not_eq_false'] at h
        obtain ⟨rfl, hfinal⟩ := h
        exact Or.inr ⟨final, rfl, by simpa [nodesAmong] using hfinal⟩
      · cases h
  | delete => cases h

theorem settled_closed {call : Call ε Answer} {action : Action} (hchose : Chose call action)
    (hclosed : rootAction f root action = .ok (.node new, false)) (hn : g.AtOrAbove new n) :
    Settled [call] g root new n := by
  have hmem : call ∈ [call] := List.mem_singleton_self call
  rcases rootAction_closed hclosed with rfl | ⟨final, rfl, hfinal⟩
  · rcases hn with rfl | hn
    · exact Or.inr (Or.inl (Or.inl ⟨call, hmem, false, hchose⟩))
    · exact Or.inr (Or.inr (Or.inr ⟨new, ⟨call, hmem, hchose⟩, hn⟩))
  · refine Or.inr (Or.inr (Or.inl ⟨new, ⟨call, hmem, [.node new], final, hchose, ?_, hfinal⟩, hn⟩))
    exact List.mem_singleton_self new

def rootPlaced (f : Forest) (root new : NodeId) : Forest :=
  if new = root then f else f.detach new

/-- How far a pass has come when `new` was put in the place of the root. -/
def begun (root new : NodeId) : Progress :=
  ⟨[⟨new, 0⟩], if new = root then [root] else [new, root], []⟩

/-- What a watched pass does once it has made its call about the root: it stops there, or puts a
node in the place of the root and is done, or goes on below that node. -/
inductive Begins (visit : Visitor σ ε) (steps : Nat) (root : NodeId) (call : Call ε Answer) :
    Except (Stop ε) NodeId → Forest → σ × List (Call ε Answer) → Prop
  | stop {stop : Stop ε} {s : σ} (hstop : stop ≠ .exhausted) :
      Begins visit steps root call (.error stop) call.after (s, [call])
  | done {action : Action} {new : NodeId} {s : σ} (hchose : Chose call action)
      (haction : rootAction call.after root action = .ok (.node new, false)) :
      Begins visit steps root call (.ok new) (rootPlaced call.after root new) (s, [call])
  | goOn {action : Action} {new : NodeId} {s : σ} {r : Except (Stop ε) Unit} {g : Forest}
      {t : σ × List (Call ε Answer)} (hchose : Chose call action)
      (haction : rootAction call.after root action = .ok (.node new, true))
      (hfinish : result (finish visit.traced steps (begun root new))
        (rootPlaced call.after root new) (s, [call]) = (r, g, t)) :
      Begins visit steps root call (r.map fun _ => new) g t

theorem wellFormed_rootPlaced (hf : f.WellFormed) (root new : NodeId) :
    (rootPlaced f root new).WellFormed := by
  unfold rootPlaced
  split
  · exact hf
  · exact hf.detach new

/-- Once a node was chosen for the place of the root, the pass is done or goes on below it. -/
theorem begins_reviseAt {steps : Nat} {root new : NodeId} {descend : Bool} {call : Call ε Answer}
    {action : Action} {s : σ} {t : σ × List (Call ε Answer)} {r : Except (Stop ε) NodeId}
    (hafter : call.after.WellFormed) (hchose : Chose call action)
    (haction : rootAction call.after root action = .ok (.node new, descend))
    (hres : result (reviseAt visit.traced steps root new descend [root]) call.after (s, [call]) =
      (r, g, t)) : Begins visit steps root call r g t := by
  have htake : result (takePlace root new [root] : Pass _ ε (List NodeId)) call.after (s, [call]) =
      (.ok (begun root new).offered, rootPlaced call.after root new, (s, [call])) := by
    rw [result_takePlace _ hafter, begun, rootPlaced]
    split <;> rfl
  rw [result_reviseAt _ _ htake] at hres
  cases descend with
  | false =>
      cases hres
      exact .done hchose haction
  | true =>
      simp only [if_true] at hres
      rcases hfinish : result (finish visit.traced steps ⟨[⟨new, 0⟩], (begun root new).offered, []⟩)
        (rootPlaced call.after root new) (s, [call]) with ⟨e | u, g', t'⟩
      all_goals
        rw [hfinish] at hres
        cases hres
        exact .goOn hchose haction hfinish

theorem begins_revise {steps : Nat} {root : NodeId} {s : σ} {t : σ × List (Call ε Answer)}
    {r : Except (Stop ε) NodeId} (hf : f.WellFormed)
    (hafter : ∀ call ∈ t.2, call.before.WellFormed → call.after.WellFormed)
    (hres : result (revise visit.traced steps root) f (s, []) = (r, g, t)) :
    ∃ call ∈ t.2, call.node = root ∧ call.before = f ∧ Begins visit steps root call r g t := by
  rw [result_revise] at hres
  rcases hvisit : visit root f s with ⟨a, f', s'⟩
  rw [traced_eq hvisit] at hres
  simp only [List.nil_append] at hres
  have hmem : (⟨root, f, a, f'⟩ : Call ε Answer) ∈ [(⟨root, f, a, f'⟩ : Call ε Answer)] :=
    List.mem_cons_self
  refine ⟨⟨root, f, a, f'⟩, ?_⟩
  cases a with
  | error e =>
      cases hres
      exact ⟨hmem, rfl, rfl, .stop nofun⟩
  | ok a =>
      cases haction : a.toAction root with
      | error e =>
          simp only [haction] at hres
          cases hres
          exact ⟨hmem, rfl, rfl, .stop nofun⟩
      | ok action =>
          simp only [haction] at hres
          have hchose : Chose (⟨root, f, .ok a, f'⟩ : Call ε Answer) action := ⟨a, rfl, haction⟩
          rcases hroot : rootAction f' root action with e | ⟨v, descend⟩
          · simp only [hroot] at hres
            cases hres
            exact ⟨hmem, rfl, rfl, .stop nofun⟩
          cases v with
          | node new =>
              simp only [hroot] at hres
              have hcall : (⟨root, f, .ok a, f'⟩ : Call ε Answer) ∈ t.2 := by
                obtain ⟨more, hmore⟩ := mirrors_reviseAt visit steps root new descend [root] f' s'
                  [⟨root, f, .ok a, f'⟩]
                cases hres.symm.trans hmore
                exact List.mem_append_left more hmem
              exact ⟨hcall, rfl, rfl, begins_reviseAt (hafter _ hcall hf) hchose hroot hres⟩
          | _ =>
              simp only [hroot] at hres
              cases hres
              exact ⟨hmem, rfl, rfl, .stop nofun⟩

/-- The invariant holds at the start of a pass: the root was offered, and the node in its place was
put there. -/
theorem Covering.begin {call : Call ε Answer} (hf : f.WellFormed) (hnode : call.node = root)
    (new : NodeId) : Covering root new (begun root new) (rootPlaced f root new) [call] := by
  have hroot : root ∈ [call].map (·.node) := by simp [hnode]
  refine .start (wellFormed_rootPlaced hf root new) (fun n hn => ?_) ?_
  · split at hn
    · exact Or.inl (by rwa [List.mem_singleton.1 hn])
    · rename_i hne
      rcases List.mem_cons.1 hn with rfl | hn
      · exact Or.inr (Or.inr ⟨rfl, hne⟩)
      · exact Or.inl (by rwa [List.mem_singleton.1 hn])
  · by_cases hne : new = root
    · exact Or.inl (hne ▸ hroot)
    · exact Or.inr (Or.inl (Or.inr ⟨rfl, hne⟩))

/-! ### Whole passes -/

/-- An invariant of the steps that says which nodes of the tree are covered settles them all by the
end of a pass. -/
theorem settled_revise_of_invariant {inv : Progress → Forest → List (Call ε Answer) → Prop}
    {good : Call ε Answer → Prop} {steps : Nat} {s : σ} {t : σ × List (Call ε Answer)}
    (hkeep : ∀ {progress progress' place rest f g s t}, inv progress f s.2 →
      progress.stack = place :: rest → AllGood good t →
      result (step visit.traced progress) f s = (.ok progress', g, t) → inv progress' g t.2)
    (hcovers : ∀ {progress f calls}, inv progress f calls → Covering root top progress f calls)
    (hstart : ∀ {f calls}, Covering root top (begun root top) f calls →
      inv (begun root top) f calls)
    (hwell : ∀ call ∈ t.2, call.before.WellFormed → call.after.WellFormed)
    (hf : f.WellFormed) (hgood : AllGood good t)
    (hres : result (revise visit.traced steps root) f (s, []) = (.ok top, g, t)) :
    g.WellFormed ∧ ∀ n, g.AtOrAbove top n → Settled t.2 g root top n := by
  obtain ⟨call, hcall, hnode, hbefore, hbegins⟩ := begins_revise hf hwell hres
  have hafter := hwell call hcall (hbefore ▸ hf)
  generalize hr : (Except.ok top : Except (Stop ε) NodeId) = r at hbegins
  cases hbegins with
  | stop _ => cases hr
  | done hchose haction =>
      cases hr
      exact ⟨wellFormed_rootPlaced hafter root top, fun n hn => settled_closed hchose haction hn⟩
  | @goOn action new _ r _ _ hchose haction hfinish =>
      cases r with
      | error e => cases hr
      | ok u =>
          cases hr
          have hends : Ends visit inv (.ok u) g t :=
            ends_finish hkeep (hstart (Covering.begin hafter hnode new)) hgood hfinish
          cases hends with
          | closed hstack h =>
              exact ⟨(hcovers h).wellFormed, fun n hn => (hcovers h).settled hstack hn⟩

theorem settled_revise {steps : Nat} {s : σ} {t : σ × List (Call ε Answer)} (hf : f.WellFormed)
    (hquiet : AllGood Quiet t)
    (hres : result (revise visit.traced steps root) f (s, []) = (.ok top, g, t)) :
    g.WellFormed ∧ ∀ n, g.AtOrAbove top n → Settled t.2 g root top n :=
  settled_revise_of_invariant Covering.step id id (fun call hc => (hquiet call hc).wellFormed) hf
    hquiet hres

theorem once_takePlace {offered : List NodeId} {s t : σ × List (Call ε Answer)}
    {r : Except (Stop ε) (List NodeId)} (honce : Once offered s.2)
    (hres : result (takePlace root new offered : Pass _ ε (List NodeId)) f s = (r, g, t)) :
    (t.2.map (·.node)).Nodup ∧ ∀ offered', r = .ok offered' → Once offered' t.2 := by
  unfold takePlace at hres
  split at hres
  · cases hres
    refine ⟨honce.nodup, fun offered' hr => ?_⟩
    cases hr
    exact honce
  · rw [result_bind, result_edit] at hres
    rcases hunlink : outcome (unlink new) f with ⟨e | u, f'⟩
    · rw [hunlink] at hres
      cases hres
      exact ⟨honce.nodup, nofun⟩
    · rw [hunlink] at hres
      cases hres
      refine ⟨honce.nodup, fun offered' hr => ?_⟩
      cases hr
      exact honce.mono (List.subset_cons_self new offered)

theorem nodup_reviseAt {steps : Nat} {descend : Bool} {offered : List NodeId}
    {s t : σ × List (Call ε Answer)} {r : Except (Stop ε) NodeId} (honce : Once offered s.2)
    (hres : result (reviseAt visit.traced steps root new descend offered) f s = (r, g, t)) :
    (t.2.map (·.node)).Nodup := by
  unfold reviseAt at hres
  rw [result_bind] at hres
  rcases htake : result (takePlace root new offered : Pass _ ε (List NodeId)) f s with
    ⟨e | offered', f', s'⟩
  · rw [htake] at hres
    cases hres
    exact (once_takePlace honce htake).1
  · rw [htake] at hres
    have honce' := (once_takePlace honce htake).2 offered' rfl
    cases descend with
    | false =>
        cases hres
        exact honce'.nodup
    | true =>
        simp only [if_true, result_bind] at hres
        rcases hfinish : result (finish visit.traced steps ⟨[⟨new, 0⟩], offered', []⟩) f' s' with
          ⟨e | u, g', t'⟩ <;>
        · rw [hfinish] at hres
          cases hres
          exact Once.finish honce' hfinish

theorem nodup_revise {steps : Nat} {s : σ} {t : σ × List (Call ε Answer)}
    {r : Except (Stop ε) NodeId}
    (hres : result (revise visit.traced steps root) f (s, []) = (r, g, t)) :
    (t.2.map (·.node)).Nodup := by
  rw [result_revise] at hres
  rcases hvisit : visit root f s with ⟨a, f', s'⟩
  rw [traced_eq hvisit] at hres
  simp only [List.nil_append] at hres
  have honce : Once [root] [(⟨root, f, a, f'⟩ : Call ε Answer)] :=
    ⟨List.Subset.refl _, List.nodup_singleton root⟩
  cases a with
  | error e =>
      cases hres
      exact honce.nodup
  | ok a =>
      simp only at hres
      split at hres
      · cases hres
        exact honce.nodup
      · split at hres
        · cases hres
          exact honce.nodup
        · exact nodup_reviseAt (s := (s', _)) honce hres
        · cases hres
          exact honce.nodup

/-! ### A node that is taken out before the place -/

def threeParagraphs : Forest where
  nodes := #[⟨0, some 3, [], 0⟩, ⟨1, some 3, [], 1⟩, ⟨2, some 3, [], 2⟩, ⟨3, none, [0, 1, 2], 3⟩]
  elements := #[.ofFields .paragraph [], .ofFields .paragraph [], .ofFields .paragraph [],
    .ofFields .document []]
  records := #[[], [], [], []]

/-- Takes the first paragraph out of the document again when it is asked about the second, and puts
it behind that one. -/
def swapping : Visitor Unit Empty := fun n f s =>
  (.ok (.value (if n = 1 then .list [.node 1, .node 0] else .node n)), f, s)

theorem wellFormed_threeParagraphs : threeParagraphs.WellFormed := by
  have hfirst := wellFormed_newNode wellFormed_empty (.ofFields .paragraph []) [] (by simp)
  have hsecond := wellFormed_newNode hfirst (.ofFields .paragraph []) [] (by simp)
  have hthird := wellFormed_newNode hsecond (.ofFields .paragraph []) [] (by simp)
  exact wellFormed_newNode hthird (.ofFields .document []) [0, 1, 2] (by decide)

theorem quiet_of_same {a : Answer} (h : ∀ action, a.toAction n = .ok action → action.KnownIn f) :
    Quiet (⟨n, f, .ok a, f⟩ : Call ε Answer) where
  wellFormed := id
  size_le := Nat.le_refl _
  parent?_eq _ _ := rfl
  children_eq _ _ := rfl
  known action hchose := by
    obtain ⟨a', ha, haction⟩ := hchose
    cases ha
    exact h action haction

theorem knownIn_of_kept (n : NodeId) (f : Forest) (action : Action)
    (h : (Answer.value (.node n)).toAction n = .ok action) : action.KnownIn f := by
  simp only [Answer.toAction, if_true, Except.ok.injEq] at h
  subst h
  exact fun v hv => absurd hv List.not_mem_nil

theorem knownIn_of_listed {nodes : List NodeId} (hlt : ∀ m ∈ nodes, m < f.size) (action : Action)
    (h : (Answer.value (.list (nodes.map .node))).toAction n = .ok action) : action.KnownIn f := by
  cases h
  rintro v hv m rfl
  obtain ⟨k, hk, heq⟩ := List.mem_map.1 hv
  rw [← Value.node.inj heq]
  exact hlt k hk

/-- A call that changes nothing and keeps the node is quiet. -/
theorem quiet_kept (n : NodeId) (f : Forest) :
    Quiet (⟨n, f, .ok (.value (.node n)), f⟩ : Call ε Answer) :=
  quiet_of_same (knownIn_of_kept n f)

/-- A call that changes nothing and lists nodes that exist is quiet. -/
theorem quiet_listed (n : NodeId) (nodes : List NodeId) (hlt : ∀ m ∈ nodes, m < f.size) :
    Quiet (⟨n, f, .ok (.value (.list (nodes.map .node))), f⟩ : Call ε Answer) :=
  quiet_of_same (knownIn_of_listed hlt)

theorem quiet_swapping :
    ∀ call ∈ passCalls swapping 9 3 threeParagraphs (), Quiet call := by
  obtain ⟨g, hg⟩ : ∃ g, g = threeParagraphs.replaced 3 1 [0] [2] [1, 0] := ⟨_, rfl⟩
  have hcalls : passCalls swapping 9 3 threeParagraphs () = [
      ⟨3, threeParagraphs, .ok (.value (.node 3)), threeParagraphs⟩,
      ⟨0, threeParagraphs, .ok (.value (.node 0)), threeParagraphs⟩,
      ⟨1, threeParagraphs, .ok (.value (.list [.node 1, .node 0])), threeParagraphs⟩,
      ⟨2, g, .ok (.value (.node 2)), g⟩] := by
    rw [hg]
    rfl
  have hmove : Quiet (⟨1, threeParagraphs, .ok (.value (.list [.node 1, .node 0])),
      threeParagraphs⟩ : Call Empty Answer) := quiet_listed 1 [1, 0] (by decide)
  rw [hcalls]
  simp [quiet_kept, hmove]

/-- A pass offers no node twice. If its visitor leaves the links alone and the pass returns, every
node of the tree that remains was offered, or the answers of the visitor put it aside. -/
theorem offered_once_or_excused (visit : Visitor σ ε) (steps : Nat) (root : NodeId) (f : Forest)
    (s : σ) (hf : f.WellFormed) (hquiet : ∀ call ∈ passCalls visit steps root f s, Quiet call) :
    ((passCalls visit steps root f s).map (·.node)).Nodup ∧
      ∀ top g t, result (revise visit steps root) f s = (.ok top, g, t) → ∀ n ∈ g.preorder top,
        Settled (passCalls visit steps root f s) g root top n := by
  obtain ⟨calls, hres⟩ := mirrors_revise visit steps root f s []
  have hcalls : passCalls visit steps root f s = calls := by
    rw [passCalls, Asking.calls, hres]
    rfl
  rw [hcalls] at hquiet ⊢
  refine ⟨nodup_revise hres, fun top g t hrun n hn => ?_⟩
  rw [hrun] at hres
  obtain ⟨hg, hsettled⟩ := settled_revise (t := (t, calls)) hf hquiet hres
  exact hsettled n (hg.mem_preorder_iff.1 hn)

/-- The third paragraph is offered although the first has left its place before it. -/
theorem offered_once_or_excused_swapping :
    ((passCalls swapping 9 3 threeParagraphs ()).map (·.node)).Nodup ∧
      ∀ top g t, result (revise swapping 9 3) threeParagraphs () = (.ok top, g, t) →
        ∀ n ∈ g.preorder top, Settled (passCalls swapping 9 3 threeParagraphs ()) g 3 top n :=
  offered_once_or_excused swapping 9 3 threeParagraphs () wellFormed_threeParagraphs quiet_swapping

end MarkdownTree.Revision
