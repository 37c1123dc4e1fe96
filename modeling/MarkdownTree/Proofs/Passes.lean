import MarkdownTree.Proofs.Calls
import MarkdownTree.Revision.Pass

/-!
Passes change the forest only as they may, wherever they stop, if their visitors do. What a pass has
to know of the changes that may be made is gathered in `Allows`. The first case of it: a pass may
carry a well-formed forest on.
-/

namespace MarkdownTree.Revision

open Forest Asking

variable {σ ε α : Type} {visit : Visitor σ ε} {fine : σ → Prop} {pre : Forest → Prop}

def Action.values : Action → List Value
  | .keep | .delete => []
  | .replace v _ => [v]
  | .splice values _ => values

/-- An action puts nodes that exist in the place of a node. -/
def Action.KnownIn (f : Forest) (action : Action) : Prop :=
  ∀ v ∈ action.values, f.Known v

/-! ### Nodes of places -/

theorem map_node_setNext (next : Nat) (stack : List Frame) :
    (setNext next stack).map (·.node) = stack.map (·.node) := by
  cases stack <;> rfl

theorem map_node_shiftOutward (left : List (NodeId × Nat)) (stack : List Frame) :
    (shiftOutward left stack).map (·.node) = stack.map (·.node) := by
  induction stack generalizing left with
  | nil => rfl
  | cons frame stack ih => exact congrArg (frame.node :: ·) (ih _)

theorem map_node_shift (left : List (NodeId × Nat)) (stack : List Frame) :
    (shift left stack).map (·.node) = stack.map (·.node) := by
  rw [shift, List.map_reverse, map_node_shiftOutward, List.map_reverse, List.reverse_reverse]

theorem map_node_descendInto (f : Forest) (n : NodeId) (stack : List Frame) :
    (descendInto f n stack).map (·.node) = stack.map (·.node) ∨
      (descendInto f n stack).map (·.node) = n :: stack.map (·.node) := by
  unfold descendInto
  split
  · exact Or.inl rfl
  · exact Or.inr rfl

/-- The node that takes the place of the root is the root, or the action names it. -/
theorem rootAction_node {f : Forest} {root new : NodeId} {action : Action} {descend : Bool}
    (h : rootAction f root action = .ok (.node new, descend)) :
    new = root ∨ .node new ∈ action.values := by
  cases action with
  | keep =>
      cases h
      exact Or.inl rfl
  | replace v descend =>
      cases h
      exact Or.inr List.mem_cons_self
  | splice values final =>
      rcases values with _ | ⟨v, _ | ⟨w, values⟩⟩
      · cases h
      · cases h
        exact Or.inr List.mem_cons_self
      · cases h
  | delete => cases h

/-- All places are at nodes of some kind. -/
def StackAt (here : NodeId → Prop) (stack : List Frame) : Prop :=
  ∀ frame ∈ stack, here frame.node

section
variable {here : NodeId → Prop} {stack : List Frame}

theorem stackAt_iff : StackAt here stack ↔ ∀ n ∈ stack.map (·.node), here n :=
  List.forall_mem_map.symm

theorem StackAt.setNext (h : StackAt here stack) (next : Nat) :
    StackAt here (setNext next stack) := by
  rw [stackAt_iff, map_node_setNext]
  exact stackAt_iff.1 h

theorem StackAt.shift (h : StackAt here stack) (left : List (NodeId × Nat)) :
    StackAt here (shift left stack) := by
  rw [stackAt_iff, map_node_shift]
  exact stackAt_iff.1 h

theorem StackAt.descendInto {n : NodeId} (h : StackAt here stack) (hn : here n) (f : Forest) :
    StackAt here (descendInto f n stack) := by
  rw [stackAt_iff] at h ⊢
  rcases map_node_descendInto f n stack with heq | heq <;> rw [heq]
  · exact h
  · exact List.forall_mem_cons.2 ⟨hn, h⟩

theorem StackAt.foldr {news : List NodeId} (h : StackAt here stack) (hnews : ∀ n ∈ news, here n)
    (f : Forest) : StackAt here (news.foldr (Revision.descendInto f) stack) := by
  induction news with
  | nil => exact h
  | cons n news ih =>
      exact (ih fun m hm => hnews m (List.mem_cons_of_mem n hm)).descendInto
        (hnews n List.mem_cons_self) f

end

/-! ### Passes that change the forest as they may -/

/-- The nodes that an action puts in the place of a node are of some kind. -/
def Action.Names (named : NodeId → Prop) (action : Action) : Prop :=
  ∀ v ∈ action.values, ∀ n, v = .node n → named n

/-- A pass may make its own changes, as long as it is at nodes where it may be and the nodes that it
puts somewhere are ones that it may name. -/
structure Allows (ok : Forest → Prop) (may : Forest → Forest → Prop)
    (here named : Forest → NodeId → Prop) : Prop where
  allowance : Allowance ok may
  here_of_may {f g : Forest} {n : NodeId} (hfg : may f g) (hn : here f n) : here g n
  named_of_may {f g : Forest} {n : NodeId} (hfg : may f g) (hn : named f n) : named g n
  here_of_named {f : Forest} {n : NodeId} (hn : named f n) : here f n
  here_of_mem {f : Forest} {p c : NodeId} (hf : ok f) (hp : here f p) (hc : c ∈ f.children p) :
    here f c
  replaceChild {f : Forest} {p c : NodeId} {values : List Value} (hf : ok f) (hp : here f p)
    (hvalues : ∀ v ∈ values, ∀ n, v = .node n → named f n) :
    may f (outcome (replaceChild p (.node c) values) f).2
  unlink {f : Forest} {n : NodeId} (hf : ok f) (hn : here f n) : may f (outcome (unlink n) f).2

/-- What is asked of a visitor: as long as it is fine, it changes the forest as it may when it is
called about a node where it may be, and names nodes that it may name. -/
def Heeds (ok : Forest → Prop) (may : Forest → Forest → Prop) (here named : Forest → NodeId → Prop)
    (fine : σ → Prop) (visit : Visitor σ ε) : Prop :=
  ∀ n f s r g t, visit n f s = (r, g, t) → fine t → fine s ∧ (ok f → here f n → may f g ∧
    ∀ a action, r = .ok a → a.toAction n = .ok action → action.Names (named g))

theorem result_edit (e : Edit α) (f : Forest) (s : σ) :
    result (edit e : Pass σ ε α) f s =
      match outcome e f with
      | (.ok a, g) => (.ok a, g, s)
      | (.error fault, g) => (.error (.fault fault), g, s) := by
  simp only [result, edit, outcome, ExceptT.run, StateT.run]
  rcases e f with ⟨_ | _, _⟩ <;> rfl

section
variable {ok : Forest → Prop} {may : Forest → Forest → Prop} {here named : Forest → NodeId → Prop}

/-- An edit changes the forest as it may, whether it is made or refused. -/
theorem obeys_edit {e : Edit α} {post : α → Forest → Prop}
    (h : ∀ f, ok f → pre f → may f (outcome e f).2 ∧
      ∀ a, (outcome e f).1 = .ok a → post a (outcome e f).2) :
    Obeys ok may fine pre (edit e : Pass σ ε α) post := by
  intro f s r g t hres ht
  rw [result_edit] at hres
  rcases hout : outcome e f with ⟨fault | a, g'⟩
  · rw [hout] at hres
    cases hres
    refine ⟨ht, fun hf hpre => ?_⟩
    have hchange := (h f hf hpre).1
    rw [hout] at hchange
    exact ⟨hchange, fun _ hr => by cases hr⟩
  · rw [hout] at hres
    cases hres
    refine ⟨ht, fun hf hpre => ?_⟩
    obtain ⟨hchange, hpost⟩ := h f hf hpre
    rw [hout] at hchange hpost
    refine ⟨hchange, fun b hb => ?_⟩
    cases hb
    exact hpost a rfl

theorem obeys_attempt (hmay : Allowance ok may) (r : Except TreeFault α) :
    Obeys ok may fine pre (attempt r : Pass σ ε α) fun a f => r = .ok a ∧ pre f := by
  cases r with
  | error e => exact .throw hmay
  | ok a => exact .pure hmay fun _ _ h => ⟨rfl, h⟩

variable (h : Allows ok may here named)

include h

theorem StackAt.later {f g : Forest} {stack : List Frame} (hfg : may f g)
    (hstack : StackAt (here f) stack) : StackAt (here g) stack :=
  fun frame hframe => h.here_of_may hfg (hstack frame hframe)

theorem obeys_substitute {p : NodeId} (c : NodeId) {values : List Value} {stack : List Frame} :
    Obeys ok may fine
      (fun f => here f p ∧ (∀ v ∈ values, ∀ n, v = .node n → named f n) ∧ StackAt (here f) stack)
      (substitute p c values stack : Pass σ ε (List Frame × Nat))
      fun r f => StackAt (here f) r.1 := by
  refine .bind h.allowance (.forest h.allowance) fun f =>
    .bind h.allowance (obeys_attempt h.allowance _) fun left =>
      .bind h.allowance (obeys_edit fun g hg hpre => ?_) fun index =>
        .pure h.allowance fun _ _ hstack => StackAt.shift hstack left
  obtain ⟨-, rfl, -, hp, hvalues, hstack⟩ := hpre
  have hgh := h.replaceChild (c := c) hg hp hvalues
  exact ⟨hgh, fun _ _ => hstack.later h hgh⟩

theorem obeys_carryOut (p : Progress) (place : Frame) (c : NodeId) (action : Action) :
    Obeys ok may fine
      (fun f => (here f place.node ∧ here f c ∧ StackAt (here f) p.stack) ∧ action.Names (named f))
      (carryOut p place c action : Pass σ ε Progress) fun q f => StackAt (here f) q.stack := by
  cases action with
  | keep =>
      refine .bind h.allowance (.forest h.allowance) fun f => .pure h.allowance fun g _ hpre => ?_
      obtain ⟨rfl, -, ⟨-, hc, hstack⟩, -⟩ := hpre
      exact (hstack.setNext _).descendInto hc _
  | replace v descend =>
      have hlater (f g : Forest) (hfg : may f g) (hv : ∀ n, v = .node n → named f n) (n : NodeId)
          (hn : v = .node n) : named g n := h.named_of_may hfg (hv n hn)
      refine .bind h.allowance (((obeys_substitute h c).frame hlater).of_pre fun f _ hpre => ?_)
        fun r => .bind h.allowance (.forest h.allowance) fun f =>
          .pure h.allowance fun g _ hpre => ?_
      · obtain ⟨⟨hp, -, hstack⟩, hvalues⟩ := hpre
        exact ⟨⟨hp, hvalues, hstack⟩, hvalues v List.mem_cons_self⟩
      · obtain ⟨rfl, -, hstack, hv⟩ := hpre
        cases descend with
        | false => exact hstack.setNext _
        | true =>
            refine (hstack.setNext _).foldr (fun k hk => ?_) _
            cases v with
            | node m =>
                obtain rfl : k = m := by simpa [nodesAmong] using hk
                exact h.here_of_named (hv k rfl)
            | _ => simp [nodesAmong] at hk
  | splice values final =>
      refine .bind h.allowance ((obeys_substitute h c).of_pre fun f _ hpre => ?_) fun r =>
        .pure h.allowance fun g _ hstack => hstack.setNext _
      exact ⟨hpre.1.1, hpre.2, hpre.1.2.2⟩
  | delete =>
      refine .bind h.allowance (obeys_edit fun f hf hpre => ?_) fun index =>
        .pure h.allowance fun g _ (hstack : StackAt (here g) p.stack) => hstack.setNext _
      obtain ⟨⟨hp, -, hstack⟩, hvalues⟩ := hpre
      have hfg := h.replaceChild (c := c) hf hp hvalues
      exact ⟨hfg, fun _ _ => hstack.later h hfg⟩

variable (hvisit : Heeds ok may here named fine visit)

include hvisit

theorem obeys_consult (n : NodeId) (offered : List NodeId) :
    Obeys ok may fine (here · n) (consult visit n offered)
      fun answer f => answer.1.Names (named f) := by
  unfold consult
  split
  · exact .pure h.allowance fun _ _ _ v hv => absurd hv List.not_mem_nil
  · have hask : Obeys ok may fine (here · n) (visit.ask Stop.visitor n) fun a f =>
        ∀ action, a.toAction n = .ok action → action.Names (named f) := by
      refine .ask fun f s r g t hcall ht => ?_
      obtain ⟨hs, hchange⟩ := hvisit n f s r g t hcall ht
      refine ⟨hs, fun hf hn => ?_⟩
      obtain ⟨hfg, hnames⟩ := hchange hf hn
      exact ⟨hfg, fun a ha action haction => hnames a action ha haction⟩
    exact .bind h.allowance hask fun a =>
      .bind h.allowance (obeys_attempt h.allowance (a.toAction n)) fun action =>
        .pure h.allowance fun f _ hpre => hpre.2 action hpre.1

theorem obeys_handleChild (p : Progress) (place : Frame) (c : NodeId) :
    Obeys ok may fine (fun f => here f place.node ∧ here f c ∧ StackAt (here f) p.stack)
      (handleChild visit p place c) fun q f => StackAt (here f) q.stack := by
  unfold handleChild
  split
  · exact .pure h.allowance fun _ _ hpre => hpre.2.2.setNext _
  · have hlater (f g : Forest) (hfg : may f g)
        (hpre : here f place.node ∧ here f c ∧ StackAt (here f) p.stack) :
        here g place.node ∧ here g c ∧ StackAt (here g) p.stack :=
      ⟨h.here_of_may hfg hpre.1, h.here_of_may hfg hpre.2.1, hpre.2.2.later h hfg⟩
    refine .bind h.allowance (((obeys_consult h hvisit c p.offered).frame hlater).of_pre
      fun _ _ hpre => ⟨hpre.2.1, hpre⟩) fun answer => ?_
    exact (obeys_carryOut h { p with offered := answer.2 } place c answer.1).of_pre
      fun _ _ hpre => ⟨hpre.2, hpre.1⟩

/-- One step of a pass. -/
theorem obeys_step (p : Progress) :
    Obeys ok may fine (fun f => StackAt (here f) p.stack) (step visit p)
      fun q f => StackAt (here f) q.stack := by
  unfold step
  rcases hp : p.stack with _ | ⟨place, rest⟩
  · exact .pure h.allowance fun _ _ hstack => hp ▸ hstack
  · refine .bind h.allowance (.forest h.allowance) fun f => ?_
    rcases hc : (f.children place.node)[place.next]? with _ | c
    · refine .pure h.allowance fun g _ hpre frame hframe => ?_
      obtain ⟨rfl, -, hstack⟩ := hpre
      exact hstack frame (List.mem_cons_of_mem place hframe)
    · refine (obeys_handleChild h hvisit p place c).of_pre fun g _ hpre => ?_
      obtain ⟨rfl, hf, hstack⟩ := hpre
      have hplace := hstack place List.mem_cons_self
      exact ⟨hplace, h.here_of_mem hf hplace (List.mem_of_getElem? hc), hp ▸ hstack⟩

theorem obeys_finish (steps : Nat) (p : Progress) :
    Obeys ok may fine (fun f => StackAt (here f) p.stack) (finish visit steps p)
      fun _ _ => True := by
  induction steps generalizing p with
  | zero =>
      unfold finish
      split
      · exact .pure h.allowance fun _ _ _ => trivial
      · exact .throw h.allowance
  | succ steps ih =>
      unfold finish
      split
      · exact .pure h.allowance fun _ _ _ => trivial
      · exact .bind h.allowance (obeys_step h hvisit p) fun q => ih q

omit hvisit in
theorem obeys_takePlace (root new : NodeId) (offered : List NodeId) :
    Obeys ok may fine (here · new) (takePlace root new offered : Pass σ ε (List NodeId))
      fun _ f => here f new := by
  unfold takePlace
  split
  · exact .pure h.allowance fun _ _ hn => hn
  · refine .bind h.allowance (obeys_edit fun f hf hn => ?_) fun _ =>
      .pure h.allowance fun _ _ hn => hn
    have hfg := h.unlink hf hn
    exact ⟨hfg, fun _ _ => h.here_of_may hfg hn⟩

theorem obeys_reviseAt (steps : Nat) (root new : NodeId) (descend : Bool) (offered : List NodeId) :
    Obeys ok may fine (here · new) (reviseAt visit steps root new descend offered)
      fun r f => here f r := by
  refine .bind h.allowance (obeys_takePlace h root new offered) fun offered => ?_
  cases descend with
  | true =>
      have hfinish := (obeys_finish h hvisit steps ⟨[⟨new, 0⟩], offered, []⟩).frame
        fun f g hfg (hn : here f new) => h.here_of_may hfg hn
      refine .bind h.allowance (hfinish.of_pre fun f _ hn => ⟨fun frame hframe => ?_, hn⟩) fun _ =>
        .pure h.allowance fun _ _ hpre => hpre.2
      rw [List.mem_singleton.1 hframe]
      exact hn
  | false => exact .pure h.allowance fun _ _ hn => hn

/-- A pass changes the forest as it may, wherever it stops. -/
theorem obeys_revise (steps : Nat) (root : NodeId) :
    Obeys ok may fine (here · root) (revise visit steps root) fun r f => here f r := by
  have hconsult := (obeys_consult h hvisit root []).keep fun f g hfg => h.here_of_may hfg
  refine .bind h.allowance hconsult fun answer =>
    .bind h.allowance (.forest h.allowance) fun f => ?_
  refine .bind h.allowance (obeys_attempt h.allowance _) fun chosen => ?_
  obtain ⟨v, descend⟩ := chosen
  cases v with
  | node new =>
      refine (obeys_reviseAt h hvisit steps root new descend answer.2).of_pre fun g _ hpre => ?_
      obtain ⟨hroot, rfl, -, haction, hn⟩ := hpre
      rcases rootAction_node hroot with rfl | hnew
      · exact hn
      · exact h.here_of_named (haction (.node new) hnew new rfl)
  | _ => exact .throw h.allowance

end

theorem may_revise {ok : Forest → Prop} {may : Forest → Forest → Prop}
    {here named : Forest → NodeId → Prop} (h : Allows ok may here named)
    (hvisit : Heeds ok may here named (fun _ => True) visit) {f : Forest} {s : σ} {steps : Nat}
    {root : NodeId} (hf : ok f) (hroot : here f root) :
    may f (result (revise visit steps root) f s).2.1 :=
  ((obeys_revise h hvisit steps root f s _ _ _ rfl trivial).2 hf hroot).1

/-! ### Carrying the forest on -/

/-- A pass may be anywhere, and name nodes that exist. -/
theorem allows_carriesOn :
    Allows Forest.WellFormed Forest.CarriesOn (fun _ _ => True) fun f n => n < f.size where
  allowance := allowance_carriesOn
  here_of_may _ _ := trivial
  named_of_may hfg hn := Nat.lt_of_lt_of_le hn hfg.size_le
  here_of_named _ := trivial
  here_of_mem _ _ _ := trivial
  replaceChild hf _ hvalues := (relinked_replaceChild hf _ _ hvalues).carriesOn
  unlink {f n} hf _ := by
    rw [outcome_unlink hf]
    exact (relinked_detach hf n).carriesOn

/-! ### Watching a pass -/

section
variable (visit : Visitor σ ε)

theorem mirrors_edit {β : Type} (e : Edit α) :
    Mirrors (edit e : Pass (σ × List (Call ε β)) ε α) (edit e) := by
  refine .of_same fun f s calls => ?_
  rw [result_edit, result_edit]
  rcases outcome e f with ⟨_ | _, _⟩ <;> rfl

theorem mirrors_attempt {β : Type} (r : Except TreeFault α) :
    Mirrors (attempt r : Pass (σ × List (Call ε β)) ε α) (attempt r) := by
  cases r with
  | error e => exact .throw _
  | ok a => exact .pure a

theorem mirrors_consult (n : NodeId) (offered : List NodeId) :
    Mirrors (consult visit.traced n offered) (consult visit n offered) := by
  unfold consult
  split
  · exact .pure _
  · exact .bind (.ask visit _ n) fun a => .bind (mirrors_attempt _) fun action => .pure _

theorem mirrors_substitute {β : Type} (p c : NodeId) (values : List Value) (stack : List Frame) :
    Mirrors (substitute p c values stack : Pass (σ × List (Call ε β)) ε (List Frame × Nat))
      (substitute p c values stack) :=
  .bind .forest fun _ => .bind (mirrors_attempt _) fun _ =>
    .bind (mirrors_edit _) fun _ => .pure _

theorem mirrors_carryOut {β : Type} (p : Progress) (place : Frame) (c : NodeId) (action : Action) :
    Mirrors (carryOut p place c action : Pass (σ × List (Call ε β)) ε Progress)
      (carryOut p place c action) := by
  cases action with
  | keep => exact .bind .forest fun f => .pure _
  | replace v descend =>
      exact .bind (mirrors_substitute place.node c [v] p.stack) fun r => .bind .forest fun f =>
        .pure _
  | splice values final =>
      exact .bind (mirrors_substitute place.node c values p.stack) fun r => .pure _
  | delete => exact .bind (mirrors_edit _) fun index => .pure _

theorem mirrors_handleChild (p : Progress) (place : Frame) (c : NodeId) :
    Mirrors (handleChild visit.traced p place c) (handleChild visit p place c) := by
  unfold handleChild
  split
  · exact .pure _
  · exact .bind (mirrors_consult visit c p.offered) fun answer =>
      mirrors_carryOut { p with offered := answer.2 } place c answer.1

theorem mirrors_step (p : Progress) : Mirrors (step visit.traced p) (step visit p) := by
  unfold step
  cases p.stack with
  | nil => exact .pure _
  | cons place rest =>
      refine .bind .forest fun f => ?_
      cases (f.children place.node)[place.next]? with
      | none => exact .pure _
      | some c => exact mirrors_handleChild visit p place c

theorem mirrors_finish (steps : Nat) (p : Progress) :
    Mirrors (finish visit.traced steps p) (finish visit steps p) := by
  induction steps generalizing p with
  | zero =>
      unfold finish
      split
      · exact .pure _
      · exact .throw _
  | succ steps ih =>
      unfold finish
      split
      · exact .pure _
      · exact .bind (mirrors_step visit p) fun p' => ih p'

theorem mirrors_takePlace {β : Type} (root new : NodeId) (offered : List NodeId) :
    Mirrors (takePlace root new offered : Pass (σ × List (Call ε β)) ε (List NodeId))
      (takePlace root new offered) := by
  unfold takePlace
  split
  · exact .pure _
  · exact .bind (mirrors_edit _) fun _ => .pure _

theorem mirrors_reviseAt (steps : Nat) (root new : NodeId) (descend : Bool)
    (offered : List NodeId) :
    Mirrors (reviseAt visit.traced steps root new descend offered)
      (reviseAt visit steps root new descend offered) := by
  refine .bind (mirrors_takePlace root new offered) fun offered => ?_
  cases descend with
  | true => exact .bind (mirrors_finish visit steps _) fun _ => .pure _
  | false => exact .pure _

theorem mirrors_revise (steps : Nat) (root : NodeId) :
    Mirrors (revise visit.traced steps root) (revise visit steps root) := by
  refine .bind (mirrors_consult visit root []) fun answer => .bind .forest fun f => ?_
  refine .bind (mirrors_attempt _) fun chosen => ?_
  obtain ⟨v, descend⟩ := chosen
  cases v with
  | node new => exact mirrors_reviseAt visit steps root new descend answer.2
  | _ => exact .throw _

def passCalls (steps : Nat) (root : NodeId) (f : Forest) (s : σ) : List (Call ε Answer) :=
  calls (revise visit.traced steps root) f s

end

end MarkdownTree.Revision
