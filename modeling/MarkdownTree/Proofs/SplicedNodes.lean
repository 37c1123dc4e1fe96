import MarkdownTree.Proofs.FinalNodes

/-!
The order in which the nodes of a splice are offered. Below the root of a pass they are the next
children to come at the place where the splice was made, and each of them waits there until the ones
before it are done with. The invariant says of a node that waits that only nodes of the splice
before it, and nodes that came in for one of them, stand between it and the place, and that
everything open within the place lies below such a node. The root of a pass is different: a node
that a splice puts there counts as offered, so the visitor is never asked about it.
-/

namespace MarkdownTree.Revision

open Forest Asking

variable {σ ε : Type} {visit : Visitor σ ε} {f g : Forest} {c m n root top : NodeId}
  {nodes came earlier later : List NodeId} {call : Call ε Answer}
  {calls before after after' : List (Call ε Answer)} {progress progress' : Progress}
  {place home : Frame} {rest inner outer opened : List Frame}

/-! ### Turns -/

/-- The answer to a call names a node as one of those to put in place. -/
def Names (call : Call ε Answer) (n : NodeId) : Prop :=
  ∃ action, Chose call action ∧ n ∈ nodesAmong action.values

/-- A node is one of those that come first, or an answer since then has named it. -/
def ComesFirst (earlier : List NodeId) (calls : List (Call ε Answer)) (n : NodeId) : Prop :=
  n ∈ earlier ∨ ∃ call ∈ calls, Names call n

/-- A call belongs to the nodes of a splice that come first: it is about one of them or a node below
one. It is about a node that comes later only if an answer since the splice has named that. -/
def InTurn (earlier later : List NodeId) (since : List (Call ε Answer)) (call : Call ε Answer) :
    Prop :=
  (∃ m, ComesFirst earlier since m ∧ call.before.AtOrAbove m call.node) ∧
    (call.node ∈ later → ∃ k ∈ since, Names k call.node)

/-- All calls belong to the nodes of a splice that come before `n`, and none is about `n` or has an
answer that names it. -/
def Undisturbed (earlier later : List NodeId) (n : NodeId) (calls : List (Call ε Answer)) : Prop :=
  ∀ before call after, calls = before ++ call :: after →
    InTurn earlier later before call ∧ call.node ≠ n ∧ ¬ Names call n

/-- A node of a splice gets its turn: after the nodes before it, it is offered, unless the answer
about one of those, or about a node below one, names it before. -/
def GetsTurn (earlier later : List NodeId) (n : NodeId) (calls : List (Call ε Answer)) : Prop :=
  ∃ between next rest, calls = between ++ next :: rest ∧ Undisturbed earlier later n between ∧
    (next.node = n ∨ InTurn earlier later between next ∧ Names next n)

/-- An answer is a splice that names `n` between other nodes, and `n` is neither final nor was it
offered or put in the place of another before. -/
structure SplicesIn (before : List (Call ε Answer)) (call : Call ε Answer) (earlier : List NodeId)
    (n : NodeId) (later : List NodeId) : Prop where
  chose : ∃ values final, Chose call (.splice values final) ∧
    nodesAmong values = earlier ++ n :: later
  not_offered : n ∉ (before ++ [call]).map (·.node)
  not_put : ∀ k ∈ before, ∀ descend, ¬ Chose k (.replace (.node n) descend)
  not_final : ∀ k ∈ before ++ [call], ¬ Seals k n

theorem ComesFirst.mono (h : ComesFirst earlier calls n) {calls' : List (Call ε Answer)}
    (hsub : calls ⊆ calls') : ComesFirst earlier calls' n :=
  h.imp id fun ⟨call, hc, hn⟩ => ⟨call, hsub hc, hn⟩

theorem GetsTurn.append (h : GetsTurn earlier later n calls) (more : List (Call ε Answer)) :
    GetsTurn earlier later n (calls ++ more) := by
  obtain ⟨between, next, rest, rfl, hbetween, hnext⟩ := h
  exact ⟨between, next, rest ++ more, by simp, hbetween, hnext⟩

theorem undisturbed_nil : Undisturbed earlier later n ([] : List (Call ε Answer)) := by
  intro before call after h
  simp at h

/-- A further call that belongs to the nodes before, or is the turn of the node. -/
theorem Undisturbed.further (h : Undisturbed earlier later n calls) (call : Call ε Answer)
    (hcall : call.node ≠ n → InTurn earlier later calls call) :
    GetsTurn earlier later n (calls ++ [call]) ∨
      ¬ Names call n ∧ Undisturbed earlier later n (calls ++ [call]) := by
  by_cases hn : call.node = n
  · exact Or.inl ⟨calls, call, [], rfl, h, Or.inl hn⟩
  by_cases hnames : Names call n
  · exact Or.inl ⟨calls, call, [], rfl, h, Or.inr ⟨hcall hn, hnames⟩⟩
  refine Or.inr ⟨hnames, fun before other after hsplit => ?_⟩
  rcases split_concat hsplit with ⟨rfl, rfl, rfl⟩ | ⟨more, rfl, rfl⟩
  · exact ⟨hcall hn, hn, hnames⟩
  · exact h before other more rfl

theorem Names.mem (hnames : ¬ Names call n) {action : Action} (hchose : Chose call action)
    (hvalues : action.values = nodes.map .node) : n ∉ nodes := by
  intro hn
  refine hnames ⟨action, hchose, ?_⟩
  rw [hvalues, nodesAmong_map]
  exact hn

/-! ### What is still to come -/

/-- The places after a child was dealt with: those of `nodes` that came in stand before what is
still to come, which else changes nowhere; and places are opened at the child or at nodes that came
in. -/
structure Onward (f g : Forest) (c : NodeId) (nodes came : List NodeId) (place : Frame)
    (rest opened : List Frame) (next : Nat) (moved : Frame → Frame) : Prop where
  here : pending g ⟨place.node, next⟩ =
    came ++ without (pending f { place with next := place.next + 1 }) nodes
  there : ∀ frame ∈ rest, pending g (moved frame) = without (pending f frame) nodes
  node_moved : ∀ frame, (moved frame).node = frame.node
  came : came ⊆ nodes
  opened : ∀ frame ∈ opened, frame.node = c ∨ frame.node ∈ nodes

theorem without_append_cons (ahead behind : List NodeId) (hn : n ∉ nodes) :
    without (ahead ++ n :: behind) nodes = without ahead nodes ++ n :: without behind nodes := by
  unfold without
  rw [List.filter_append, List.filter_cons_of_pos (by simpa using hn)]

/-- Behind a node that came in alone, what followed the child is still to come. -/
theorem pending_replaced_behind (hf : f.WellFormed) {p k : NodeId} {b a : List NodeId}
    (hlist : f.children p = b ++ c :: a) :
    pending (f.replaced p c b a [k]) ⟨p, (without b [k]).length + 1⟩ = [] ++ without a [k] := by
  have hpending : pending (f.replaced p c b a [k]) ⟨p, (without b [k]).length⟩ =
      [k] ++ without a [k] := pending_replaced hf hlist
  unfold pending at hpending ⊢
  rw [← List.drop_drop, hpending]
  rfl

/-- Places may be opened at a child while the others stay. -/
theorem onward_same (f : Forest) (c : NodeId) (place : Frame) (rest opened : List Frame)
    (hopened : ∀ frame ∈ opened, frame.node = c) :
    Onward f f c [] [] place rest opened (place.next + 1) id where
  here := (without_nil _).symm
  there _ _ := (without_nil _).symm
  node_moved _ := rfl
  came := List.Subset.refl _
  opened frame hframe := Or.inl (hopened frame hframe)

theorem descendInto_eq (f : Forest) (n : NodeId) (stack : List Frame) :
    ∃ opened, descendInto f n stack = opened ++ stack ∧ ∀ frame ∈ opened, frame.node = n := by
  unfold descendInto
  split
  · exact ⟨[], rfl, by simp⟩
  · exact ⟨[⟨n, 0⟩], rfl, by simp⟩

/-- Nodes that fit come in, and the innermost place goes on before or behind them. -/
theorem Fitting.onward {b a : List NodeId} {left : List (NodeId × Nat)}
    (h : Fitting f place.node c b a nodes left) (hf : f.WellFormed)
    (hc : (f.children place.node)[place.next]? = some c)
    (hnodup : ((place :: rest).map (·.node)).Nodup) {next : Nat}
    (hnext : pending (f.replaced place.node c b a nodes) ⟨place.node, next⟩ =
      came ++ without a nodes) (hcame : came ⊆ nodes)
    (hopened : ∀ frame ∈ opened, frame.node ∈ nodes) :
    Onward f (f.replaced place.node c b a nodes) c nodes came place rest opened next
      (Frame.movedBack left) := by
  have hlength := length_before hf hc h.list
  have hafter : pending f { place with next := place.next + 1 } = a := by
    unfold pending
    rw [h.list, ← hlength]
    simp
  refine ⟨by rw [hafter, hnext], fun frame hframe => ?_, fun _ => rfl, hcame,
    fun frame hframe => Or.inr (hopened frame hframe)⟩
  have hother : frame.node ≠ place.node := by
    intro heq
    rw [List.map_cons, List.nodup_cons, ← heq] at hnodup
    exact hnodup.1 (List.mem_map_of_mem hframe)
  exact pending_movedBack hf h.list h.fit.nodup h.departures hother

/-- Whatever is done with a child, the pass goes on with the nodes that came in and then with what
was to come before. -/
theorem Carried.onward {action : Action}
    (h : Carried progress place rest c f action progress' g) (hf : f.WellFormed)
    (hc : (f.children place.node)[place.next]? = some c)
    (hnodup : ((place :: rest).map (·.node)).Nodup) :
    ∃ nodes came opened next moved, action.values = nodes.map .node ∧
      Onward f g c nodes came place rest opened next moved ∧
      progress'.stack = opened ++ ⟨place.node, next⟩ :: rest.map moved := by
  cases h with
  | keep =>
      obtain ⟨opened, heq, hopened⟩ :=
        descendInto_eq f c ({ place with next := place.next + 1 } :: rest)
      refine ⟨[], [], opened, _, id, rfl, onward_same f c place rest opened hopened, ?_⟩
      rw [List.map_id]
      exact heq
  | @replace b a k descend left stack hfitting hplaces =>
      obtain ⟨opened, heq, hopened⟩ : ∃ opened,
          (if descend then descendInto (f.replaced place.node c b a [k]) k stack else stack) =
            opened ++ stack ∧ ∀ frame ∈ opened, frame.node = k := by
        cases descend with
        | true =>
            rw [if_pos rfl]
            exact descendInto_eq _ k stack
        | false => exact ⟨[], rfl, by simp⟩
      have hnext := pending_replaced_behind (k := k) hf hfitting.list
      refine ⟨[k], [], opened, _, _, rfl,
        hfitting.onward hf hc hnodup hnext (by simp) (by simpa using hopened), ?_⟩
      rw [heq, hplaces]
      rfl
  | @splice b a nodes final left hfitting =>
      exact ⟨nodes, nodes, [], _, _, rfl, hfitting.onward hf hc hnodup
        (pending_replaced hf hfitting.list) (List.Subset.refl _) (by simp), rfl⟩
  | @delete b a hfitting =>
      exact ⟨[], [], [], _, _, rfl, hfitting.onward hf hc hnodup
        (pending_replaced hf hfitting.list) (List.Subset.refl _) (by simp), rfl⟩

/-- What counts as offered after an action did so before, or the action names it. -/
theorem Carried.offered_or {action : Action}
    (h : Carried progress place rest c f action progress' g) (hn : n ∈ progress'.offered) :
    n ∈ progress.offered ∨ n ∈ nodesAmong action.values := by
  cases h with
  | replace =>
      rcases List.mem_cons.1 hn with rfl | hn
      · exact Or.inr (List.mem_singleton_self n)
      · exact Or.inl hn
  | _ => exact Or.inl hn

/-! ### Waiting for the turn -/

/-- The node `n` waits at the place `home`: before it are nodes that come first, and within the
place only such a node is open. -/
structure Waiting (earlier later : List NodeId) (n : NodeId) (calls : List (Call ε Answer))
    (progress : Progress) (f : Forest) (inner : List Frame) (home : Frame) (outer : List Frame)
    (ahead behind : List NodeId) : Prop where
  stack : progress.stack = inner ++ home :: outer
  pending : pending f home = ahead ++ n :: behind
  ahead : ∀ m ∈ ahead, ComesFirst earlier calls m
  inner : ∀ frame ∈ inner.getLast?, ComesFirst earlier calls frame.node
  later : ∀ m ∈ later, m ∈ behind ∨ ∃ call ∈ calls, Names call m
  not_final : n ∉ progress.final
  not_offered : n ∉ progress.offered

/-- The node `n` of a splice still waits for its turn. -/
def Waits (earlier later : List NodeId) (n : NodeId) (calls : List (Call ε Answer))
    (progress : Progress) (f : Forest) : Prop :=
  Undisturbed earlier later n calls ∧ ∃ inner home outer ahead behind,
    Waiting earlier later n calls progress f inner home outer ahead behind

/-- The outermost of the inner places moves at most its index. -/
theorem exists_last_of_moved {next : Nat} {moved : Frame → Frame} {frame : Frame}
    (hnode : ∀ frame, (moved frame).node = frame.node)
    (hframe : frame ∈ (⟨place.node, next⟩ :: inner.map moved).getLast?) :
    ∃ last ∈ (place :: inner).getLast?, last.node = frame.node := by
  have hnodes : (⟨place.node, next⟩ :: inner.map moved).map (·.node) =
      (place :: inner).map (·.node) := by
    simp [hnode]
  have hlast : frame.node ∈ ((place :: inner).map (·.node)).getLast? := by
    rw [← hnodes, List.getLast?_map]
    exact Option.mem_map_of_mem _ hframe
  rw [List.getLast?_map] at hlast
  exact Option.map_eq_some_iff.1 hlast

namespace Waiting

variable {ahead behind : List NodeId}
  (h : Waiting earlier later n calls progress f inner home outer ahead behind)

include h

/-- The child at the innermost place is about to be met: it is `n`, or it is at or below a node that
comes first, and not one that comes later. -/
theorem inTurn (hstanding : Standing top progress f) (hstack : progress.stack = place :: rest)
    (hc : (f.children place.node)[place.next]? = some c) (hne : c ≠ n) (a : Except ε Answer)
    (g : Forest) : InTurn earlier later calls ⟨c, f, a, g⟩ := by
  have hf := hstanding.wellFormed
  have hmem := List.mem_of_getElem? hc
  have hsplit := hstack.symm.trans h.stack
  cases inner with
  | nil =>
      obtain ⟨rfl, rfl⟩ := List.cons.inj hsplit
      have hpending := (pending_eq_cons hc).symm.trans h.pending
      have hnodup : (ahead ++ n :: behind).Nodup := by
        rw [← h.pending]
        exact (hf.nodup_children place.node).sublist (List.drop_sublist _ _)
      cases ahead with
      | nil => exact absurd (List.cons.inj hpending).1 hne
      | cons m ahead =>
          obtain rfl := (List.cons.inj hpending).1
          refine ⟨⟨c, h.ahead c List.mem_cons_self, .refl f c⟩, fun hlater => ?_⟩
          refine (h.later c hlater).resolve_left fun hbehind => ?_
          rw [List.cons_append, List.nodup_cons] at hnodup
          exact hnodup.1 (List.mem_append_right _ (List.mem_cons_of_mem _ hbehind))
  | cons frame inner =>
      rw [List.cons_append] at hsplit
      obtain ⟨rfl, rfl⟩ := List.cons.inj hsplit
      obtain ⟨last, hlast⟩ : ∃ last, last ∈ (place :: inner).getLast? :=
        ⟨_, List.getLast?_eq_some_getLast (List.cons_ne_nil _ _)⟩
      have hover : f.AtOrAbove last.node place.node :=
        hstanding.over_place hstack (List.mem_map_of_mem (by
          rw [hstack]
          exact List.mem_append_left _ (List.mem_of_getLast? hlast)))
      have hbelow : f.AtOrAbove last.node c :=
        (hover.trans_ancestor (.parent (hf.parent?_of_mem hmem))).atOrAbove
      refine ⟨⟨last.node, h.inner last hlast, hbelow⟩, fun hlater => ?_⟩
      refine (h.later c hlater).resolve_left fun hbehind => ?_
      -- A node behind `n` is a child of the place where `n` waits, not of the innermost place.
      have hhome : c ∈ f.children home.node :=
        List.mem_of_mem_drop (h.pending ▸ List.mem_append_right ahead
          (List.mem_cons_of_mem n hbehind))
      have hnodup := hstanding.nodup hstack
      rw [List.map_cons, List.nodup_cons, hf.parent_unique hmem hhome] at hnodup
      exact hnodup.1 (List.mem_map_of_mem (List.mem_append_right _ List.mem_cons_self))

/-- What comes later still stands behind `n`, unless a call has named it. -/
theorem later_without {calls' : List (Call ε Answer)} (hsub : calls ⊆ calls')
    (hnamed : ∀ m ∈ nodes, ∃ call ∈ calls', Names call m) :
    ∀ m ∈ later, m ∈ without behind nodes ∨ ∃ call ∈ calls', Names call m := by
  intro m hm
  rcases h.later m hm with hbehind | ⟨call, hcall, hnames⟩
  · by_cases hmn : m ∈ nodes
    · exact Or.inr (hnamed m hmn)
    · exact Or.inl (mem_without.2 ⟨hbehind, hmn⟩)
  · exact Or.inr ⟨call, hsub hcall, hnames⟩

omit h

section Onward

variable {next : Nat} {moved : Frame → Frame} {calls' : List (Call ε Answer)}
  (hn : n ∉ nodes) (honward : Onward f g c nodes came place rest opened next moved)
  (hstack' : progress'.stack = opened ++ ⟨place.node, next⟩ :: rest.map moved)
  (hsub : calls ⊆ calls') (hnamed : ∀ m ∈ nodes, ∃ call ∈ calls', Names call m)
  (hfinal : n ∉ progress'.final) (hoffered : n ∉ progress'.offered)

include hn honward hstack' hsub hnamed hfinal hoffered

/-- At the innermost place a child before `n` is dealt with: places are opened at it or at nodes
that came in for it, and all of these come first. -/
theorem onward_here (h : Waiting earlier later n calls progress f [] place rest ahead behind)
    (hc : (f.children place.node)[place.next]? = some c) (hne : c ≠ n) :
    ∃ ahead behind, Waiting earlier later n calls' progress' g opened ⟨place.node, next⟩
      (rest.map moved) ahead behind := by
  have hpending := (pending_eq_cons hc).symm.trans h.pending
  cases ahead with
  | nil => exact absurd (List.cons.inj hpending).1 hne
  | cons m ahead =>
      obtain ⟨rfl, hrest⟩ := List.cons.inj hpending
      rw [List.append_eq] at hrest
      refine ⟨came ++ without ahead nodes, without behind nodes, hstack', ?_, fun m hm => ?_,
        fun frame hframe => ?_, h.later_without hsub hnamed, hfinal, hoffered⟩
      · rw [honward.here, hrest, without_append_cons _ _ hn, List.append_assoc]
      · rcases List.mem_append.1 hm with hm | hm
        · exact Or.inr (hnamed m (honward.came hm))
        · exact (h.ahead m (List.mem_cons_of_mem c (mem_without.1 hm).1)).mono hsub
      · rcases honward.opened frame (List.mem_of_getLast? hframe) with heq | hm
        · rw [heq]
          exact (h.ahead c List.mem_cons_self).mono hsub
        · exact Or.inr (hnamed _ hm)

/-- At an outer place only the nodes that came in elsewhere are gone, and the place within it is the
same as before. -/
theorem onward_within
    (h : Waiting earlier later n calls progress f (place :: inner) home outer ahead behind)
    (hrest : rest = inner ++ home :: outer) :
    ∃ ahead behind, Waiting earlier later n calls' progress' g
      (opened ++ ⟨place.node, next⟩ :: inner.map moved) (moved home) (outer.map moved) ahead
      behind := by
  subst hrest
  refine ⟨without ahead nodes, without behind nodes, ?_, ?_, fun m hm => ?_, fun frame hframe => ?_,
    h.later_without hsub hnamed, hfinal, hoffered⟩
  · rw [hstack', List.map_append, List.map_cons, List.append_assoc, List.cons_append]
  · rw [honward.there home (List.mem_append_right _ List.mem_cons_self), h.pending,
      without_append_cons _ _ hn]
  · exact (h.ahead m (mem_without.1 hm).1).mono hsub
  · rw [List.getLast?_append_of_ne_nil _ (List.cons_ne_nil _ _)] at hframe
    obtain ⟨last, hlast, heq⟩ := exists_last_of_moved honward.node_moved hframe
    rw [← heq]
    exact (h.inner last hlast).mono hsub

/-- Once a child other than `n` was dealt with and `n` was not named, `n` still waits. -/
theorem onward (h : Waiting earlier later n calls progress f inner home outer ahead behind)
    (hstack : progress.stack = place :: rest)
    (hc : (f.children place.node)[place.next]? = some c) (hne : c ≠ n) :
    ∃ inner home outer ahead behind,
      Waiting earlier later n calls' progress' g inner home outer ahead behind := by
  have hsplit := hstack.symm.trans h.stack
  cases inner with
  | nil =>
      obtain ⟨rfl, rfl⟩ := List.cons.inj hsplit
      exact ⟨_, _, _, h.onward_here hn honward hstack' hsub hnamed hfinal hoffered hc hne⟩
  | cons frame inner =>
      rw [List.cons_append] at hsplit
      obtain ⟨rfl, hrest⟩ := List.cons.inj hsplit
      exact ⟨_, _, _, h.onward_within hn honward hstack' hsub hnamed hfinal hoffered hrest⟩

end Onward

include h

/-- A call leaves alone what is still to come. -/
theorem ask {a : Except ε Answer} (hstanding : Standing top progress f)
    (hstack : progress.stack = place :: rest)
    (hc : (f.children place.node)[place.next]? = some c) (hne : c ≠ n)
    (hquiet : Quiet (⟨c, f, a, g⟩ : Call ε Answer)) :
    Waiting earlier later n calls { progress with offered := c :: progress.offered } g inner home
      outer ahead behind := by
  have hplace := lt_size_of_mem_children (List.mem_of_getElem? hc)
  have hhome : home.node < f.size := by
    refine hstanding.wellFormed.atOrAbove_lt_size (hstanding.over_place hstack ?_) hplace
    rw [h.stack]
    exact List.mem_map_of_mem (List.mem_append_right _ List.mem_cons_self)
  refine ⟨h.stack, ?_, h.ahead, h.inner, h.later, h.not_final, fun hmem => ?_⟩
  · unfold Revision.pending
    rw [hquiet.children_eq _ hhome]
    exact h.pending
  · rcases List.mem_cons.1 hmem with heq | hmem
    · exact hne heq.symm
    · exact h.not_offered hmem

/-- Closing the innermost place does not touch a node that waits. -/
theorem close (hstack : progress.stack = place :: rest)
    (hend : (f.children place.node)[place.next]? = none) :
    ∃ inner, Waiting earlier later n calls { progress with stack := rest } f inner home outer ahead
      behind := by
  have hsplit := hstack.symm.trans h.stack
  cases inner with
  | nil =>
      obtain ⟨rfl, rfl⟩ := List.cons.inj hsplit
      have hempty : Revision.pending f place = [] :=
        List.drop_eq_nil_of_le (List.getElem?_eq_none_iff.1 hend)
      rw [h.pending] at hempty
      simp at hempty
  | cons frame inner =>
      rw [List.cons_append] at hsplit
      obtain ⟨rfl, rfl⟩ := List.cons.inj hsplit
      exact ⟨inner, rfl, h.pending, h.ahead,
        fun last hlast => h.inner last (List.mem_getLast?_cons hlast), h.later, h.not_final,
        h.not_offered⟩

end Waiting

namespace Waits

/-- Carrying out the answer about a child leaves a node waiting, or the call has given it its
turn. -/
theorem act {since : List (Call ε Answer)} {a : Answer} {f' : Forest} {action : Action}
    (h : Waits earlier later n since progress f) (hstanding : Standing top progress f)
    (hstack : progress.stack = place :: rest)
    (hc : (f.children place.node)[place.next]? = some c)
    (hquiet : Quiet (⟨c, f, .ok a, f'⟩ : Call ε Answer)) (haction : a.toAction c = .ok action)
    (hcarried : Carried { progress with offered := c :: progress.offered } place rest c f' action
      progress' g) :
    GetsTurn earlier later n (since ++ [⟨c, f, .ok a, f'⟩]) ∨
      Waits earlier later n (since ++ [⟨c, f, .ok a, f'⟩]) progress' g := by
  obtain ⟨hundisturbed, inner, home, outer, ahead, behind, hwaiting⟩ := h
  rcases hundisturbed.further ⟨c, f, .ok a, f'⟩ fun hne =>
    hwaiting.inTurn hstanding hstack hc hne (.ok a) f' with hturn | ⟨hnames, hundisturbed'⟩
  · exact Or.inl hturn
  have hne : c ≠ n := (hundisturbed' since _ [] rfl).2.1
  have hchose : Chose (⟨c, f, .ok a, f'⟩ : Call ε Answer) action := chose_ok_iff.2 haction
  have hasked := hstanding.ask hstack (lt_size_of_mem_children (List.mem_of_getElem? hc)) hquiet
  have hc' := hquiet.getElem?_children hc
  obtain ⟨nodes, came, opened, next, moved, hvalues, honward, hstack'⟩ :=
    hcarried.onward hasked.wellFormed hc' (hasked.nodup hstack)
  have hwaiting' := hwaiting.ask hstanding hstack hc hne hquiet
  have hnamed (m : NodeId) (hm : m ∈ nodes) :
      ∃ k ∈ since ++ [(⟨c, f, .ok a, f'⟩ : Call ε Answer)], Names k m := by
    refine ⟨_, List.mem_append_right _ List.mem_cons_self, action, hchose, ?_⟩
    rwa [hvalues, nodesAmong_map]
  -- The answer does not name the node, so it neither makes it final nor offers it.
  have hfinal : n ∉ progress'.final := by
    rw [(hcarried.recorded hstack).final]
    intro hmem
    rcases List.mem_append.1 hmem with hmem | hmem
    · exact hnames ⟨action, hchose, Action.finals_subset hmem⟩
    · exact hwaiting'.not_final hmem
  have hoffered : n ∉ progress'.offered := fun hmem =>
    (hcarried.offered_or hmem).elim hwaiting'.not_offered fun hput => hnames ⟨action, hchose, hput⟩
  have hn := Names.mem hnames hchose hvalues
  exact Or.inr ⟨hundisturbed', hwaiting'.onward hn honward hstack' (List.subset_append_left _ _)
    hnamed hfinal hoffered hstack hc' hne⟩

/-- A step leaves a node waiting, or gives it its turn. -/
theorem step {since made : List (Call ε Answer)} (h : Waits earlier later n since progress f)
    (hstanding : Standing top progress f) (hmoves : Moves progress f calls progress' g calls')
    (hmade : calls' = calls ++ made) :
    GetsTurn earlier later n (since ++ made) ∨
      Waits earlier later n (since ++ made) progress' g := by
  have ⟨hundisturbed, inner, home, outer, ahead, behind, hwaiting⟩ := h
  have hquiet {progress'' : Progress} (hsame : calls = calls ++ made)
      (hwaiting' : ∃ inner home outer ahead behind,
        Waiting earlier later n since progress'' f inner home outer ahead behind) :
      Waits earlier later n (since ++ made) progress'' f := by
    rw [List.self_eq_append_right.1 hsame, List.append_nil]
    exact ⟨hundisturbed, hwaiting'⟩
  cases hmoves with
  | close hstack hend =>
      obtain ⟨inner', hwaiting'⟩ := hwaiting.close hstack hend
      exact Or.inr (hquiet hmade ⟨inner', home, outer, ahead, behind, hwaiting'⟩)
  | @passOver place rest c hstack hc hfinal =>
      have hne : c ≠ n := fun heq => hwaiting.not_final (heq ▸ hfinal)
      have honward := onward_same f c place rest [] (by simp)
      exact Or.inr (hquiet hmade (hwaiting.onward List.not_mem_nil honward (by simp)
        (List.Subset.refl _) (by simp) hwaiting.not_final hwaiting.not_offered hstack hc hne))
  | @meet place rest c hstack hc hfinal hoffered =>
      have hne : c ≠ n := fun heq => hwaiting.not_offered (heq ▸ hoffered)
      obtain ⟨opened, heq, hopened⟩ :=
        descendInto_eq f c ({ place with next := place.next + 1 } :: rest)
      have honward := onward_same f c place rest opened hopened
      exact Or.inr (hquiet hmade (hwaiting.onward List.not_mem_nil honward (by simp [heq])
        (List.Subset.refl _) (by simp) hwaiting.not_final hwaiting.not_offered hstack hc hne))
  | act hstack hc hfinal hoffered hcall haction hcarried =>
      obtain rfl := List.append_cancel_left hmade
      exact h.act hstanding hstack hc hcall haction hcarried

/-- The nodes of a splice that was carried out wait, the first of them at the place itself. -/
theorem of_splice {values : List Value} {final : Finality} (hf : f.WellFormed)
    (hcarried : Carried progress place rest c f (.splice values final) progress' g)
    (hnodes : nodesAmong values = earlier ++ n :: later) (hfinal : n ∉ progress'.final)
    (hoffered : n ∉ progress.offered) :
    Waits earlier later n ([] : List (Call ε Answer)) progress' g := by
  cases hcarried with
  | @splice b a nodes _ left hfitting =>
      rw [nodesAmong_map] at hnodes
      subst hnodes
      refine ⟨undisturbed_nil, [], ⟨place.node, (without b (earlier ++ n :: later)).length⟩,
        rest.map (Frame.movedBack left), earlier, later ++ without a (earlier ++ n :: later), rfl,
        ?_, fun m hm => Or.inl hm, by simp, fun m hm => Or.inl (List.mem_append_left _ hm), hfinal,
        hoffered⟩
      rw [pending_replaced hf hfitting.list, List.append_assoc, List.cons_append]

end Waits

/-! ### The invariant -/

/-- Every node of a splice below the root gets its turn, unless the pass ends in an error while the
node waits. -/
def Served (root : NodeId) (calls : List (Call ε Answer)) (failed : Prop) : Prop :=
  ∀ before call after earlier n later, calls = before ++ call :: after → call.node ≠ root →
    SplicesIn before call earlier n later →
    GetsTurn earlier later n after ∨ failed ∧ Undisturbed earlier later n after

theorem seals_of_declaredFinal (h : DeclaredFinal calls n) : ∃ call ∈ calls, Seals call n := by
  obtain ⟨call, hcall, values, final, hchose, hnodes, hfinal⟩ := h
  exact ⟨call, hcall, _, hchose, List.mem_filter.2 ⟨hnodes, by simpa using hfinal⟩⟩

/-- What holds of the splices below the root at each step of a pass whose result has the root
`top`. -/
structure Turns (root top : NodeId) (progress : Progress) (f : Forest)
    (calls : List (Call ε Answer)) : Prop where
  covering : Covering root top progress f calls
  turns : ∀ before call after earlier n later, calls = before ++ call :: after →
    call.node ≠ root → SplicesIn before call earlier n later →
    GetsTurn earlier later n after ∨ Waits earlier later n after progress f

namespace Turns

variable (h : Turns root top progress f calls)

include h

theorem standing : Standing top progress f :=
  h.covering.standing

/-- A node of a splice that the call answers with is not final, and it does not count as offered:
the calls so far say so of all nodes but the root of the pass, which does not fit anywhere below
itself. -/
theorem waits_of_splicesIn {a : Answer} {f' : Forest} {action : Action}
    (hstack : progress.stack = place :: rest)
    (hquiet : Quiet (⟨c, f, .ok a, f'⟩ : Call ε Answer)) (haction : a.toAction c = .ok action)
    (hcarried : Carried { progress with offered := c :: progress.offered } place rest c f' action
      progress' g)
    (hsplices : SplicesIn calls ⟨c, f, .ok a, f'⟩ earlier n later) :
    Waits earlier later n ([] : List (Call ε Answer)) progress' g := by
  obtain ⟨⟨values, final, hchose, hnodes⟩, hnotoffered, hnotput, hnotfinal⟩ := hsplices
  obtain rfl := hchose.unique (chose_ok_iff.2 haction)
  refine Waits.of_splice (hquiet.wellFormed h.covering.wellFormed) hcarried hnodes ?_ ?_
  · rw [(hcarried.recorded hstack).final]
    intro hmem
    rcases List.mem_append.1 hmem with hmem | hmem
    · exact hnotfinal _ (List.mem_append_right _ List.mem_cons_self) ⟨_, hchose, hmem⟩
    · obtain ⟨k, hk, hseals⟩ := seals_of_declaredFinal (h.covering.final n hmem)
      exact hnotfinal k (List.mem_append_left _ hk) hseals
  · intro hmem
    rcases List.mem_cons.1 hmem with rfl | hmem
    · exact hnotoffered (List.mem_map_of_mem (List.mem_append_right _ List.mem_cons_self))
    rcases h.covering.offered n hmem with hcalled | ⟨k, hk, descend, hput⟩ | ⟨rfl, -⟩
    · rw [List.map_append] at hnotoffered
      exact hnotoffered (List.mem_append_left _ hcalled)
    · exact hnotput k hk descend hput
    · refine hcarried.changed.not_over ?_ (hquiet.atOrAbove (h.standing.top_over hstack))
      rw [Action.values, hnodes]
      exact List.mem_append_right _ List.mem_cons_self

theorem step (hcovering : Covering root top progress' g calls')
    (hmoves : Moves progress f calls progress' g calls') : Turns root top progress' g calls' := by
  refine ⟨hcovering, fun before call after earlier n later hsplit hbelow hsplices => ?_⟩
  have hold (more made : List (Call ε Answer)) (hcalls : calls = before ++ call :: more)
      (hmade : calls' = calls ++ made) :
      GetsTurn earlier later n (more ++ made) ∨
        Waits earlier later n (more ++ made) progress' g := by
    rcases h.turns before call more earlier n later hcalls hbelow hsplices with hturn | hwaits
    · exact Or.inl (hturn.append made)
    · exact hwaits.step h.standing hmoves hmade
  have hsame (hcalls : calls' = calls) :
      GetsTurn earlier later n after ∨ Waits earlier later n after progress' g := by
    have hno := hold after [] (hcalls ▸ hsplit) (by simp [hcalls])
    rwa [List.append_nil] at hno
  cases hmoves with
  | close => exact hsame rfl
  | passOver => exact hsame rfl
  | meet => exact hsame rfl
  | act hstack _ _ _ hquiet haction hcarried =>
      rcases split_concat hsplit with ⟨rfl, rfl, rfl⟩ | ⟨more, rfl, hcalls⟩
      · exact Or.inr (h.waits_of_splicesIn hstack hquiet haction hcarried hsplices)
      · exact hold more _ hcalls rfl

end Turns

/-- In a run that keeps the invariant, every node of a splice below the root gets its turn, unless
an error ends the pass while the node waits. -/
theorem Turns.finish {steps : Nat} {s t : σ × List (Call ε Answer)} {r : Except (Stop ε) Unit}
    (h : Turns root top progress f s.2) (hquiet : AllGood Quiet t)
    (hres : result (finish visit.traced steps progress) f s = (r, g, t)) :
    Served root t.2 (∃ stop, r = .error stop) := by
  have hends : Ends visit (Turns root top) r g t :=
    ends_finish (fun h hstack hquiet hstep => h.step (h.covering.step hstack hquiet hstep)
      (h.standing.moves hstack hquiet hstep)) h hquiet hres
  intro before call after earlier n later hsplit hbelow hsplices
  cases hends with
  | closed hstack h =>
      refine (h.turns before call after earlier n later hsplit hbelow hsplices).imp id ?_
      rintro ⟨-, inner, home, outer, ahead, behind, hwaiting⟩
      have hempty := hstack.symm.trans hwaiting.stack
      simp at hempty
  | exhausted h =>
      exact (h.turns before call after earlier n later hsplit hbelow hsplices).imp id
        fun hwaits => ⟨⟨_, rfl⟩, hwaits.1⟩
  | @stopped progress _ _ f' _ s' _ _ _ h hstep =>
      have hold {more : List (Call ε Answer)} (hcalls : s'.2 = before ++ call :: more) :=
        h.turns before call more earlier n later hcalls hbelow hsplices
      rcases calls_step hstep with heq | ⟨place, rest, c, a, f'', hstack, hc, -, -, heq⟩
      · exact (hold (heq ▸ hsplit)).imp id fun hwaits => ⟨⟨_, rfl⟩, hwaits.1⟩
      rw [heq] at hsplit
      rcases split_concat hsplit with ⟨rfl, rfl, rfl⟩ | ⟨more, rfl, hcalls⟩
      · exact Or.inr ⟨⟨_, rfl⟩, undisturbed_nil⟩
      rcases hold hcalls with hturn | ⟨hundisturbed, inner, home, outer, ahead, behind, hwaiting⟩
      · exact Or.inl (hturn.append _)
      · refine (hundisturbed.further ⟨c, f', a, f''⟩ fun hne => ?_).imp id
          fun hlast => ⟨⟨_, rfl⟩, hlast.2⟩
        exact hwaiting.inTurn h.standing hstack hc hne a f''

/-! ### Whole passes -/

theorem served_of_one {failed : Prop} (hnode : call.node = root) : Served root [call] failed := by
  intro before other after earlier n later hsplit hbelow
  have hother : other ∈ [call] := hsplit ▸ List.mem_append_right _ List.mem_cons_self
  rw [List.mem_singleton.1 hother] at hbelow
  exact absurd hnode hbelow

theorem served_revise {steps : Nat} {s : σ} {t : σ × List (Call ε Answer)}
    {r : Except (Stop ε) NodeId} (hf : f.WellFormed) (hquiet : AllGood Quiet t)
    (hres : result (revise visit.traced steps root) f (s, []) = (r, g, t)) :
    Served root t.2 (∃ stop, r = .error stop) := by
  obtain ⟨call, hcall, hnode, hbefore, hbegins⟩ :=
    begins_revise hf (fun call hc => (hquiet call hc).wellFormed) hres
  have hafter := (hquiet call hcall).wellFormed (hbefore ▸ hf)
  cases hbegins with
  | stop _ => exact served_of_one hnode
  | done _ _ => exact served_of_one hnode
  | @goOn action new _ r _ _ hchose haction hfinish =>
      have hstart : Turns root new (begun root new) (rootPlaced call.after root new) [call] := by
        refine ⟨.begin hafter hnode new,
          fun before other after earlier n later hsplit hbelow _ => ?_⟩
        have hother : other ∈ [call] := hsplit ▸ List.mem_append_right _ List.mem_cons_self
        rw [List.mem_singleton.1 hother] at hbelow
        exact absurd hnode hbelow
      intro before other after earlier n later hsplit hbelow hsplices
      refine (hstart.finish hquiet hfinish before other after earlier n later hsplit hbelow
        hsplices).imp id fun ⟨⟨stop, hstop⟩, hundisturbed⟩ => ⟨⟨stop, ?_⟩, hundisturbed⟩
      rw [hstop]
      rfl

/-! ### The root -/

/-- A node counts as offered although no call was about it. -/
structure Unasked (top n : NodeId) (progress : Progress) (f : Forest)
    (calls : List (Call ε Answer)) : Prop where
  standing : Standing top progress f
  offered : n ∈ progress.offered
  not_called : n ∉ calls.map (·.node)

namespace Unasked

variable (h : Unasked top n progress f calls)

include h

theorem further (hcall : call.node ∉ progress.offered) : n ∉ (calls ++ [call]).map (·.node) := by
  rw [List.map_append, List.mem_append]
  rintro (hmem | hmem)
  · exact h.not_called hmem
  · obtain rfl : n = call.node := List.mem_singleton.1 hmem
    exact hcall h.offered

theorem step (hmoves : Moves progress f calls progress' g calls') :
    Unasked top n progress' g calls' := by
  refine ⟨h.standing.step hmoves, ?_, ?_⟩
  · cases hmoves with
    | act hstack _ _ _ _ _ hcarried =>
        exact (hcarried.recorded hstack).offered (List.mem_cons_of_mem _ h.offered)
    | _ => exact h.offered
  · cases hmoves with
    | act _ _ _ hoffered => exact h.further hoffered
    | _ => exact h.not_called

end Unasked

/-- Such a node is never asked about. -/
theorem Unasked.finish {steps : Nat} {s t : σ × List (Call ε Answer)} {r : Except (Stop ε) Unit}
    (h : Unasked top n progress f s.2) (hquiet : AllGood Quiet t)
    (hres : result (finish visit.traced steps progress) f s = (r, g, t)) :
    n ∉ t.2.map (·.node) := by
  have hends : Ends visit (Unasked top n) r g t :=
    ends_finish (fun h hstack hquiet hstep => h.step (h.standing.moves hstack hquiet hstep)) h
      hquiet hres
  cases hends with
  | closed _ h => exact h.not_called
  | exhausted h => exact h.not_called
  | stopped _ h hstep =>
      rcases calls_step hstep with heq | ⟨_, _, c, a, f', -, -, -, hoffered, heq⟩
      · rw [heq]
        exact h.not_called
      · rw [heq]
        exact h.further hoffered

/-- Of a splice in the place of the root, the visitor is asked about no node but the root itself. -/
theorem not_called_revise {steps : Nat} {s : σ} {t : σ × List (Call ε Answer)}
    {r : Except (Stop ε) NodeId} (hf : f.WellFormed) (hquiet : AllGood Quiet t)
    (hres : result (revise visit.traced steps root) f (s, []) = (r, g, t)) (hcall : call ∈ t.2)
    (hnode : call.node = root) {values : List Value} {final : Finality}
    (hchose : Chose call (.splice values final)) (hn : n ∈ nodesAmong values) (hne : n ≠ root) :
    n ∉ t.2.map (·.node) := by
  have hnodup := nodup_revise hres
  obtain ⟨first, hfirst, hroot, hbefore, hbegins⟩ :=
    begins_revise hf (fun call hc => (hquiet call hc).wellFormed) hres
  obtain rfl : call = first :=
    List.inj_on_of_nodup_map hnodup hcall hfirst (hnode.trans hroot.symm)
  have hone : n ∉ [call].map (·.node) := by simpa [hnode] using hne
  have hafter := (hquiet call hcall).wellFormed (hbefore ▸ hf)
  cases hbegins with
  | stop _ => exact hone
  | done _ _ => exact hone
  | @goOn action new _ _ _ _ hchose' haction hfinish =>
      obtain rfl := hchose.unique hchose'
      obtain rfl : n = new := by
        rcases values with _ | ⟨v, _ | ⟨w, values⟩⟩
        · cases haction
        · simp only [rootAction, Except.ok.injEq, Prod.mk.injEq] at haction
          rw [haction.1] at hn
          exact List.mem_singleton.1 hn
        · cases haction
      have hstart : Unasked n n (begun root n) (rootPlaced call.after root n) [call] := by
        refine ⟨⟨wellFormed_rootPlaced hafter root n, rfl⟩, ?_, hone⟩
        rw [begun, if_neg hne]
        exact List.mem_cons_self
      exact hstart.finish hquiet hfinish

/-! ### Splices of a quotation -/

/-- Puts the quotation and the second paragraph in the place of the first one. -/
def gathering : Visitor Unit Empty := fun n f s =>
  (.ok (.value (if n = 2 then .list [.node 1, .node 3] else .node n)), f, s)

/-- Puts the quotation, as a list of one node, in the place of the document. -/
def quotingRoot : Visitor Unit Empty := fun n f s =>
  (.ok (.value (if n = 4 then .list [.node 1] else .node n)), f, s)

theorem passCalls_gathering :
    passCalls gathering 12 4 quoteApart () = [
      ⟨4, quoteApart, .ok (.value (.node 4)), quoteApart⟩,
      ⟨2, quoteApart, .ok (.value (.list [.node 1, .node 3])), quoteApart⟩,
      ⟨1, quoteSpliced, .ok (.value (.node 1)), quoteSpliced⟩,
      ⟨0, quoteSpliced, .ok (.value (.node 0)), quoteSpliced⟩,
      ⟨3, quoteSpliced, .ok (.value (.node 3)), quoteSpliced⟩] := rfl

theorem passCalls_quotingRoot :
    passCalls quotingRoot 12 4 quoteApart () = [
      ⟨4, quoteApart, .ok (.value (.list [.node 1])), quoteApart⟩,
      ⟨0, quoteApart, .ok (.value (.node 0)), quoteApart⟩] := rfl

theorem quiet_gathering : ∀ call ∈ passCalls gathering 12 4 quoteApart (), Quiet call := by
  have hsplice : Quiet (⟨2, quoteApart, .ok (.value (.list [.node 1, .node 3])), quoteApart⟩ :
      Call Empty Answer) := quiet_listed 2 [1, 3] (by decide)
  rw [passCalls_gathering]
  simp [quiet_kept, hsplice]

theorem quiet_quotingRoot : ∀ call ∈ passCalls quotingRoot 12 4 quoteApart (), Quiet call := by
  have hsplice : Quiet (⟨4, quoteApart, .ok (.value (.list [.node 1])), quoteApart⟩ :
      Call Empty Answer) := quiet_listed 4 [1] (by decide)
  rw [passCalls_quotingRoot]
  simp [quiet_kept, hsplice]

/-- A plain value makes no node final. -/
theorem not_seals_value {v : Value} (h : call.answer = .ok (.value v)) : ¬ Seals call n := by
  rintro ⟨action, ⟨a, ha, haction⟩, hn⟩
  rw [h] at ha
  cases ha
  cases v with
  | null => cases haction; exact absurd hn List.not_mem_nil
  | node m =>
      simp only [Answer.toAction, Except.ok.injEq] at haction
      subst haction
      split at hn <;> exact absurd hn List.not_mem_nil
  | list values =>
      cases haction
      simp [Action.finals, Finality.nodes] at hn
  | _ => cases haction

/-- A node that is kept names nothing. -/
theorem not_names_kept (k : NodeId) (f g : Forest) :
    ¬ Names (⟨k, f, .ok (.value (.node k)), g⟩ : Call ε Answer) n := by
  rintro ⟨action, ⟨a, ha, haction⟩, hn⟩
  cases ha
  simp only [Answer.toAction, if_true, Except.ok.injEq] at haction
  subst haction
  exact absurd hn List.not_mem_nil

theorem splicesIn_gathering :
    SplicesIn [⟨4, quoteApart, .ok (.value (.node 4)), quoteApart⟩]
      (⟨2, quoteApart, .ok (.value (.list [.node 1, .node 3])), quoteApart⟩ : Call Empty Answer)
      [1] 3 [] where
  chose := ⟨_, _, ⟨_, rfl, rfl⟩, rfl⟩
  not_offered := by decide
  not_put k hk descend hput := by
    rw [List.mem_singleton.1 hk] at hput
    exact not_names_kept 4 quoteApart quoteApart ⟨_, hput, List.mem_singleton_self 3⟩
  not_final k hk := by
    rcases List.mem_pair.1 hk with rfl | rfl
    · exact not_seals_value rfl
    · exact not_seals_value rfl

/-- Each node of a splice below the root that is not final, and was neither offered nor put in the
place of another before, gets its turn: a quiet visitor is asked about it, in the order of the
splice, unless the answer about an earlier node, or about a node below one, names it before; only an
error ends the pass sooner. About a node that is spliced in the place of the root itself the visitor
is never asked. -/
theorem spliced_offered_in_turn (visit : Visitor σ ε) (steps : Nat) (root : NodeId) (f : Forest)
    (s : σ) (hf : f.WellFormed) (hquiet : ∀ call ∈ passCalls visit steps root f s, Quiet call) :
    ∀ before call after earlier n later,
      passCalls visit steps root f s = before ++ call :: after →
      SplicesIn before call earlier n later →
      (call.node ≠ root → GetsTurn earlier later n after ∨
        (∃ stop g t, result (revise visit steps root) f s = (.error stop, g, t)) ∧
          Undisturbed earlier later n after) ∧
      (call.node = root → n ∉ (passCalls visit steps root f s).map (·.node)) := by
  obtain ⟨calls, hres⟩ := mirrors_revise visit steps root f s []
  have hcalls : passCalls visit steps root f s = calls := by
    rw [passCalls, Asking.calls, hres]
    rfl
  rw [hcalls] at hquiet ⊢
  intro before call after earlier n later hsplit hsplices
  refine ⟨fun hbelow => ?_, fun hnode => ?_⟩
  · have hserved := served_revise (t := (_, calls)) hf hquiet hres
    refine (hserved before call after earlier n later hsplit hbelow hsplices).imp id ?_
    rintro ⟨⟨stop, hstop⟩, hundisturbed⟩
    exact ⟨⟨stop, _, _, Prod.ext hstop rfl⟩, hundisturbed⟩
  · obtain ⟨values, final, hchose, hnodes⟩ := hsplices.chose
    have hcall : call ∈ calls := hsplit ▸ List.mem_append_right _ List.mem_cons_self
    refine not_called_revise (t := (_, calls)) hf hquiet hres hcall hnode hchose ?_ ?_
    · rw [hnodes]
      exact List.mem_append_right _ List.mem_cons_self
    · rintro rfl
      refine hsplices.not_offered ?_
      rw [← hnode]
      exact List.mem_map_of_mem (List.mem_append_right _ List.mem_cons_self)

end MarkdownTree.Revision
