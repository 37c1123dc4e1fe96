import MarkdownTree.Proofs.Places

/-!
What a pass offers to its visitor. No node is offered twice. If the visitor leaves the links alone,
every node of the result was offered, apart from those that the visitor's own answers put aside. The
invariant says of each node below the root that it was offered or put aside, or that it is at or
below a child that is still to come at one of the open places.
-/

namespace MarkdownTree.Revision

open Forest Asking

variable {σ ε : Type} {visit : Visitor σ ε} {f g : Forest} {c k m n p q root top : NodeId}
  {nodes before after : List NodeId} {calls : List (Call ε Answer)} {call : Call ε Answer}
  {progress : Progress} {place : Frame} {rest stack : List Frame} {left : List (NodeId × Nat)}

/-! ### What the answers put aside -/

/-- The visitor decided for an action. -/
def Chose (call : Call ε Answer) (action : Action) : Prop :=
  ∃ a, call.answer = .ok a ∧ a.toAction call.node = .ok action

theorem chose_ok_iff {a : Answer} {action : Action} :
    Chose (⟨n, f, .ok a, g⟩ : Call ε Answer) action ↔ a.toAction n = .ok action := by
  constructor
  · rintro ⟨a', ha, haction⟩
    cases ha
    exact haction
  · exact fun haction => ⟨a, rfl, haction⟩

/-- A call decides for one action at most. -/
theorem Chose.unique {action action' : Action} (h : Chose call action) (h' : Chose call action') :
    action = action' := by
  obtain ⟨a, ha, haction⟩ := h
  obtain ⟨a', ha', haction'⟩ := h'
  cases ha.symm.trans ha'
  exact Except.ok.inj (haction.symm.trans haction')

/-- A node was put in the place of another, or in the place of the root. -/
def PutInPlace (calls : List (Call ε Answer)) (root top n : NodeId) : Prop :=
  (∃ call ∈ calls, ∃ descend, Chose call (.replace (.node n) descend)) ∨ n = top ∧ n ≠ root

/-- A splice named a node as one of its nodes and as final. -/
def DeclaredFinal (calls : List (Call ε Answer)) (n : NodeId) : Prop :=
  ∃ call ∈ calls, ∃ values final, Chose call (.splice values final) ∧
    n ∈ nodesAmong values ∧ n ∈ final.nodes values

/-- A node was put in the place of another and not to be descended into. -/
def ClosedOff (calls : List (Call ε Answer)) (n : NodeId) : Prop :=
  ∃ call ∈ calls, Chose call (.replace (.node n) false)

/-- A node need not be offered: it was put in place, or it is at or below a node that was declared
final, or below one that was closed off. -/
def Excused (calls : List (Call ε Answer)) (f : Forest) (root top n : NodeId) : Prop :=
  PutInPlace calls root top n ∨ (∃ k, DeclaredFinal calls k ∧ f.AtOrAbove k n) ∨
    ∃ k, ClosedOff calls k ∧ f.Ancestor k n

/-- A node was offered, or need not be. -/
def Settled (calls : List (Call ε Answer)) (f : Forest) (root top n : NodeId) : Prop :=
  n ∈ calls.map (·.node) ∨ Excused calls f root top n

/-- A call that leaves the links alone: it may add nodes, change data, and name nodes that exist. -/
structure Quiet (call : Call ε Answer) : Prop where
  wellFormed : call.before.WellFormed → call.after.WellFormed
  size_le : call.before.size ≤ call.after.size
  parent?_eq : ∀ n < call.before.size, call.after.parent? n = call.before.parent? n
  children_eq : ∀ n < call.before.size, call.after.children n = call.before.children n
  known : ∀ action, Chose call action → action.KnownIn call.after

theorem Settled.mono (h : Settled calls f root top n) (more : List (Call ε Answer))
    (hup : ∀ k, f.Ancestor k n → g.Ancestor k n) : Settled (calls ++ more) g root top n := by
  have hmore : calls ⊆ calls ++ more := List.subset_append_left calls more
  rcases h with h | (⟨call, hc, h⟩ | h) | ⟨k, ⟨call, hc, h⟩, hk⟩ | ⟨k, ⟨call, hc, h⟩, hk⟩
  · refine Or.inl ?_
    rw [List.map_append]
    exact List.mem_append_left _ h
  · exact Or.inr (Or.inl (Or.inl ⟨call, hmore hc, h⟩))
  · exact Or.inr (Or.inl (Or.inr h))
  · exact Or.inr (Or.inr (Or.inl ⟨k, ⟨call, hmore hc, h⟩, hk.imp id (hup k)⟩))
  · exact Or.inr (Or.inr (Or.inr ⟨k, ⟨call, hmore hc, h⟩, hup k hk⟩))

/-! ### Stacks of places -/

/-- Nodes lie below each other, the last of them at `top`. -/
def Chain (f : Forest) (top : NodeId) : List NodeId → Prop
  | [] => True
  | [n] => n = top
  | n :: above :: rest => f.parent? n = some above ∧ Chain f top (above :: rest)

theorem Chain.tail (h : Chain f top (n :: nodes)) : Chain f top nodes := by
  cases nodes with
  | nil => trivial
  | cons above rest => exact h.2

theorem Chain.top_atOrAbove (h : Chain f top (n :: nodes)) : f.AtOrAbove top n := by
  induction nodes generalizing n with
  | nil => exact Or.inl h.symm
  | cons above rest ih => exact (ih h.2).trans_ancestor (.parent h.1) |>.atOrAbove

theorem Chain.top_over (h : Chain f top nodes) (hn : n ∈ nodes) : f.AtOrAbove top n := by
  induction nodes with
  | nil => exact absurd hn List.not_mem_nil
  | cons k nodes ih =>
      rcases List.mem_cons.1 hn with rfl | hn
      · exact h.top_atOrAbove
      · exact ih h.tail hn

theorem Chain.ancestor (h : Chain f top (n :: nodes)) : ∀ k ∈ nodes, f.Ancestor k n := by
  induction nodes generalizing n with
  | nil => exact fun _ hk => absurd hk List.not_mem_nil
  | cons above rest ih =>
      intro k hk
      have hparent : f.Ancestor above n := .parent h.1
      rcases List.mem_cons.1 hk with rfl | hk
      · exact hparent
      · exact (ih h.2 k hk).trans hparent

theorem Chain.nodup (hf : f.WellFormed) (h : Chain f top nodes) : nodes.Nodup := by
  induction nodes with
  | nil => exact List.nodup_nil
  | cons n nodes ih =>
      exact List.nodup_cons.2 ⟨fun hn => hf.not_ancestor_self n (h.ancestor n hn), ih h.tail⟩

theorem Chain.congr (h : Chain f top nodes)
    (hparent : ∀ n ∈ nodes, g.parent? n = f.parent? n) : Chain g top nodes := by
  induction nodes with
  | nil => trivial
  | cons n nodes ih =>
      have hrest := ih h.tail fun k hk => hparent k (List.mem_cons_of_mem n hk)
      cases nodes with
      | nil => exact h
      | cons above rest => exact ⟨by rw [hparent n List.mem_cons_self]; exact h.1, hrest⟩

/-- The open places of a pass lie below each other in a well-formed forest. -/
structure Standing (top : NodeId) (progress : Progress) (f : Forest) : Prop where
  wellFormed : f.WellFormed
  chain : Chain f top (progress.stack.map (·.node))

namespace Standing

variable (h : Standing top progress f) (hstack : progress.stack = place :: rest)

include h hstack

theorem chain_cons : Chain f top (place.node :: rest.map (·.node)) := by
  have hchain := h.chain
  rwa [hstack] at hchain

theorem nodup : ((place :: rest).map (·.node)).Nodup :=
  (h.chain_cons hstack).nodup h.wellFormed

theorem top_over : f.AtOrAbove top place.node :=
  (h.chain_cons hstack).top_atOrAbove

theorem over_place (hn : n ∈ progress.stack.map (·.node)) : f.AtOrAbove n place.node := by
  rw [hstack] at hn
  rcases List.mem_cons.1 hn with rfl | hn
  · exact .refl f _
  · exact ((h.chain_cons hstack).ancestor n hn).atOrAbove

/-- A change that leaves the parents of all nodes over the innermost place alone leaves the places
where they are. -/
theorem chain_of_parent?_eq (hparent : ∀ n, f.AtOrAbove n place.node → g.parent? n = f.parent? n) :
    Chain g top (progress.stack.map (·.node)) :=
  h.chain.congr fun n hn => hparent n (h.over_place hstack hn)

end Standing

/-- What was still to come at one of the places is still to come after a substitution, if it is
neither the child nor a node that came in, and if the place of the child goes on no later than with
what followed that. -/
theorem Fitting.exists_pending (h : Fitting f place.node c before after nodes left)
    (hf : f.WellFormed) (hnext : before.length = place.next) {j : Nat}
    (hj : j ≤ (without before nodes ++ nodes).length)
    (hnodup : ((place :: rest).map (·.node)).Nodup) {frame : Frame} (hframe : frame ∈ place :: rest)
    (hk : k ∈ pending f frame) (hkc : k ≠ c) (hkno : k ∉ nodes) :
    ∃ frame' ∈ placesAfter left place.node j rest,
      k ∈ pending (f.replaced place.node c before after nodes) frame' := by
  rcases List.mem_cons.1 hframe with rfl | hframe
  · refine ⟨_, List.mem_cons_self, ?_⟩
    have hafter : k ∈ after := by
      unfold pending at hk
      rw [h.list, List.drop_left' hnext] at hk
      exact (List.mem_cons.1 hk).resolve_left hkc
    unfold pending
    rw [children_replaced hf h.list, if_pos rfl, List.drop_append_of_le_length hj]
    exact List.mem_append_right _ (mem_without.2 ⟨hafter, hkno⟩)
  · have hother : frame.node ≠ place.node := by
      intro heq
      rw [List.map_cons, List.nodup_cons, ← heq] at hnodup
      exact hnodup.1 (List.mem_map_of_mem hframe)
    refine ⟨_, List.mem_cons_of_mem _ (List.mem_map_of_mem hframe), ?_⟩
    rw [pending_movedBack hf h.list h.fit.nodup h.departures hother]
    exact mem_without.2 ⟨hk, hkno⟩

/-! ### What is covered -/

/-- A node is at or below a child that is still to come. -/
def ToCome (f : Forest) (stack : List Frame) (n : NodeId) : Prop :=
  ∃ place ∈ stack, ∃ k ∈ pending f place, f.AtOrAbove k n

/-- The invariant of a pass whose result has the root `top`. -/
structure Covering (root top : NodeId) (progress : Progress) (f : Forest)
    (calls : List (Call ε Answer)) : Prop where
  wellFormed : f.WellFormed
  chain : Chain f top (progress.stack.map (·.node))
  offered : ∀ n ∈ progress.offered, n ∈ calls.map (·.node) ∨ PutInPlace calls root top n
  final : ∀ n ∈ progress.final, DeclaredFinal calls n
  covered : ∀ n, f.AtOrAbove top n →
    Settled calls f root top n ∨ ToCome f progress.stack n

theorem pending_eq_cons (h : (f.children place.node)[place.next]? = some c) :
    pending f place = c :: pending f { place with next := place.next + 1 } := by
  obtain ⟨hlt, hc⟩ := List.getElem?_eq_some_iff.1 h
  unfold pending
  rw [List.drop_eq_getElem_cons hlt, hc]

theorem ToCome.mono (h : ToCome f stack n) {stack' : List Frame} (hsub : stack ⊆ stack') :
    ToCome f stack' n := by
  obtain ⟨frame, hframe, hk⟩ := h
  exact ⟨frame, hsub hframe, hk⟩

/-! ### Opening a place -/

theorem subset_descendInto (f : Forest) (n : NodeId) (stack : List Frame) :
    stack ⊆ descendInto f n stack := by
  unfold descendInto
  split
  · exact List.Subset.refl _
  · exact List.subset_cons_self _ _

/-- Whatever is below a node is still to come at a place that is opened there. -/
theorem toCome_descendInto (hf : f.WellFormed) (h : f.Ancestor k n) (stack : List Frame) :
    ToCome f (descendInto f k stack) n := by
  obtain ⟨c, hc, hcn⟩ := hf.exists_mem_of_ancestor h
  unfold descendInto
  split
  · rename_i hleaf
    rw [List.isEmpty_iff.1 hleaf] at hc
    exact absurd hc List.not_mem_nil
  · exact ⟨⟨k, 0⟩, List.mem_cons_self, c, hc, hcn⟩

theorem Chain.descendInto (h : Chain f top (p :: nodes)) (hn : f.parent? n = some p)
    (hstack : stack.map (·.node) = p :: nodes) :
    Chain f top ((descendInto f n stack).map (·.node)) := by
  unfold Revision.descendInto
  split
  · rw [hstack]
    exact h
  · rw [List.map_cons, hstack]
    exact ⟨hn, h⟩

namespace Covering

variable (h : Covering root top progress f calls) (hstack : progress.stack = place :: rest)

include h

theorem standing : Standing top progress f :=
  ⟨h.wellFormed, h.chain⟩

include hstack

/-- A place is closed when no child is left. -/
theorem close (hnone : (f.children place.node)[place.next]? = none) :
    Covering root top { progress with stack := rest } f calls := by
  have hempty : pending f place = [] := List.drop_eq_nil_of_le (List.getElem?_eq_none_iff.1 hnone)
  refine ⟨h.wellFormed, (h.standing.chain_cons hstack).tail, h.offered, h.final, fun n hn => ?_⟩
  rcases h.covered n hn with hsettled | ⟨frame, hframe, k, hk, hkn⟩
  · exact Or.inl hsettled
  · rw [hstack] at hframe
    rcases List.mem_cons.1 hframe with rfl | hframe
    · rw [hempty] at hk
      exact absurd hk List.not_mem_nil
    · exact Or.inr ⟨frame, hframe, k, hk, hkn⟩

/-- A place goes on to the next child when what lies at or below the present one is seen to. -/
theorem advance (hc : (f.children place.node)[place.next]? = some c)
    (hchain : Chain f top (stack.map (·.node)))
    (hsub : ({ place with next := place.next + 1 } :: rest) ⊆ stack)
    (hbelow : ∀ n, f.AtOrAbove c n → Settled calls f root top n ∨ ToCome f stack n) :
    Covering root top { progress with stack } f calls := by
  refine ⟨h.wellFormed, hchain, h.offered, h.final, fun n hn => ?_⟩
  rcases h.covered n hn with hsettled | ⟨frame, hframe, k, hk, hkn⟩
  · exact Or.inl hsettled
  · rw [hstack] at hframe
    rcases List.mem_cons.1 hframe with rfl | hframe
    · rw [pending_eq_cons hc] at hk
      rcases List.mem_cons.1 hk with rfl | hk
      · exact hbelow n hkn
      · exact Or.inr ⟨_, hsub List.mem_cons_self, k, hk, hkn⟩
    · exact Or.inr ⟨frame, hsub (List.mem_cons_of_mem _ hframe), k, hk, hkn⟩

/-- A child that is settled itself is passed, and a place is opened below it. -/
theorem keep (hc : (f.children place.node)[place.next]? = some c)
    (hsettled : Settled calls f root top c) :
    Covering root top
      { progress with stack := descendInto f c ({ place with next := place.next + 1 } :: rest) }
      f calls := by
  have hparent := h.wellFormed.parent?_of_mem (List.mem_of_getElem? hc)
  refine h.advance hstack hc ?_ (subset_descendInto f c _) fun n hn => ?_
  · exact (h.standing.chain_cons hstack).descendInto hparent rfl
  · rcases hn with rfl | hn
    · exact Or.inl hsettled
    · exact Or.inr (toCome_descendInto h.wellFormed hn _)

end Covering

/-! ### Calls of the visitor -/

namespace Quiet

variable {answer : Except ε Answer} (hq : Quiet ⟨c, f, answer, g⟩)

include hq

theorem ancestor (h : f.Ancestor k n) : g.Ancestor k n := by
  induction h with
  | parent hp => exact .parent (by rw [hq.parent?_eq _ (lt_size_of_parent? hp)]; exact hp)
  | above hp _ ih => exact .above (by rw [hq.parent?_eq _ (lt_size_of_parent? hp)]; exact hp) ih

theorem atOrAbove (h : f.AtOrAbove k n) : g.AtOrAbove k n :=
  h.imp id hq.ancestor

/-- Nothing over a node from before the call has moved. -/
theorem parent?_of_over (hf : f.WellFormed) (hp : p < f.size) (hn : f.AtOrAbove n p) :
    g.parent? n = f.parent? n :=
  hq.parent?_eq n (hf.atOrAbove_lt_size hn hp)

/-- A child from before the call has kept its index. -/
theorem getElem?_children {i : Nat} (hk : (f.children p)[i]? = some k) :
    (g.children p)[i]? = some k := by
  rw [hq.children_eq p (lt_size_of_mem_children (List.mem_of_getElem? hk))]
  exact hk

/-- Below a node from before the call are only nodes from before the call. -/
theorem lt_size_of_parent?_lt (hf : f.WellFormed) (hg : g.WellFormed) (hp : g.parent? n = some p)
    (hlt : p < f.size) : f.parent? n = some p := by
  have hmem : n ∈ f.children p := by
    rw [← hq.children_eq p hlt]
    exact hg.mem_of_parent? hp
  exact hf.parent?_of_mem hmem

theorem atOrAbove_before (hf : f.WellFormed) (hg : g.WellFormed) (hk : k < f.size)
    (h : g.AtOrAbove k n) : f.AtOrAbove k n := by
  rcases h with rfl | h
  · exact .refl f _
  · refine Ancestor.atOrAbove ?_
    induction h with
    | parent hp => exact .parent (hq.lt_size_of_parent?_lt hf hg hp hk)
    | above hp _ ih =>
        exact (ih.atOrAbove.trans_ancestor (.parent (hq.lt_size_of_parent?_lt hf hg hp ih.lt_size)))

end Quiet

/-- A call about a child leaves the places where they are. -/
theorem Standing.ask {answer : Except ε Answer} (h : Standing top progress f)
    (hstack : progress.stack = place :: rest) (hplace : place.node < f.size)
    (hq : Quiet ⟨c, f, answer, g⟩) :
    Standing top { progress with offered := c :: progress.offered } g :=
  ⟨hq.wellFormed h.wellFormed,
    h.chain_of_parent?_eq hstack fun _ hn => hq.parent?_of_over h.wellFormed hplace hn⟩

namespace Covering

variable (h : Covering root top progress f calls) (hstack : progress.stack = place :: rest)

include h

theorem offered_call (call : Call ε Answer) : ∀ n ∈ call.node :: progress.offered,
    n ∈ (calls ++ [call]).map (·.node) ∨ PutInPlace (calls ++ [call]) root top n := by
  intro n hn
  rw [List.map_append]
  rcases List.mem_cons.1 hn with rfl | hn
  · exact Or.inl (List.mem_append_right _ List.mem_cons_self)
  · rcases h.offered n hn with hcall | ⟨other, hc, hput⟩ | htop
    · exact Or.inl (List.mem_append_left _ hcall)
    · exact Or.inr (Or.inl ⟨other, List.mem_append_left _ hc, hput⟩)
    · exact Or.inr (Or.inr htop)

theorem final_call (call : Call ε Answer) :
    ∀ n ∈ progress.final, DeclaredFinal (calls ++ [call]) n := by
  intro n hn
  obtain ⟨other, hc, hfinal⟩ := h.final n hn
  exact ⟨other, List.mem_append_left _ hc, hfinal⟩

include hstack

/-- A call of the visitor settles the node that it is about. -/
theorem ask {answer : Except ε Answer} (hplace : place.node < f.size)
    (hq : Quiet ⟨c, f, answer, g⟩) :
    Covering root top { progress with offered := c :: progress.offered } g
      (calls ++ [⟨c, f, answer, g⟩]) := by
  obtain ⟨hg, hchain⟩ := h.standing.ask hstack hplace hq
  have htop := h.wellFormed.atOrAbove_lt_size (h.standing.top_over hstack) hplace
  refine ⟨hg, hchain, h.offered_call ⟨c, f, answer, g⟩, h.final_call _, fun n hn => ?_⟩
  rcases h.covered n (hq.atOrAbove_before h.wellFormed hg htop hn) with
    hsettled | ⟨frame, hframe, k, hk, hkn⟩
  · exact Or.inl (hsettled.mono _ fun k hk => hq.ancestor hk)
  · refine Or.inr ⟨frame, hframe, k, ?_, hq.atOrAbove hkn⟩
    have hover := h.standing.over_place hstack (List.mem_map_of_mem hframe)
    unfold pending
    rw [hq.children_eq _ (h.wellFormed.atOrAbove_lt_size hover hplace)]
    exact hk

/-- After a substitution the places still lie below each other: nothing over them has moved. -/
theorem chain_substitute (hfitting : Fitting f place.node c before after nodes left) (j : Nat) :
    Chain (f.replaced place.node c before after nodes) top
      ((placesAfter left place.node j rest).map (·.node)) := by
  have hnodes : (placesAfter left place.node j rest).map (·.node) =
      progress.stack.map (·.node) := by
    rw [hstack, placesAfter, List.map_cons, List.map_cons, List.map_map]
    rfl
  rw [hnodes]
  exact h.standing.chain_of_parent?_eq hstack fun n hn =>
    parent?_replaced_of_over h.wellFormed hfitting.list hfitting.fit hfitting.lt_size hn

/-- After a substitution, a node below the root is at or below a node that came in, or covered as
before, if the place goes on no later than with what followed the child. -/
theorem covered_substitute (hfitting : Fitting f place.node c before after nodes left)
    (hnext : before.length = place.next) {j : Nat}
    (hj : j ≤ (without before nodes ++ nodes).length)
    (hn : (f.replaced place.node c before after nodes).AtOrAbove top n) :
    (∃ k ∈ nodes, (f.replaced place.node c before after nodes).AtOrAbove k n) ∨
      Settled calls (f.replaced place.node c before after nodes) root top n ∨
      ToCome (f.replaced place.node c before after nodes)
        (placesAfter left place.node j rest) n := by
  have hf := h.wellFormed
  rcases kept_of_replaced hf hfitting.list hfitting.fit hfitting.lt_size
    (h.standing.top_over hstack) hn with hcame | hkept
  · exact Or.inl hcame
  by_cases hcame : ∃ k ∈ nodes, (f.replaced place.node c before after nodes).AtOrAbove k n
  · exact Or.inl hcame
  refine Or.inr ?_
  rcases h.covered n hkept.atOrAbove with hsettled | ⟨frame, hframe, k, hk, hkn⟩
  · have hmono := hsettled.mono [] hkept.ancestor
    rw [List.append_nil] at hmono
    exact Or.inl hmono
  · have hkn' : (f.replaced place.node c before after nodes).AtOrAbove k n :=
      hkn.imp id (hkept.ancestor k)
    have hkc : k ≠ c := fun hkc => hkept.apart (hkc ▸ hkn)
    have hkno : k ∉ nodes := fun hknodes => hcame ⟨k, hknodes, hkn'⟩
    rw [hstack] at hframe
    obtain ⟨frame', hframe', hk'⟩ := hfitting.exists_pending hf hnext hj
      (h.standing.nodup hstack) hframe hk hkc hkno
    exact Or.inr ⟨frame', hframe', k, hk', hkn'⟩

end Covering

/-! ### Actions -/

/-- The index of a child is the number of the children before it. -/
theorem length_before (hf : f.WellFormed) {i : Nat} (hc : (f.children p)[i]? = some c)
    (hlist : f.children p = before ++ c :: after) : before.length = i := by
  obtain ⟨hi, hget⟩ := List.getElem?_eq_some_iff.1 hc
  have hlt : before.length < (f.children p).length := by
    rw [hlist, List.length_append, List.length_cons]
    omega
  have heq : (f.children p)[before.length] = (f.children p)[i] := by
    rw [hget]
    simp [hlist]
  exact (hf.nodup_children p).getElem_inj_iff.1 heq

namespace Covering

variable (h : Covering root top progress f calls) (hstack : progress.stack = place :: rest)
  (hc : (f.children place.node)[place.next]? = some c)

include h hstack hc

/-- After a deletion, the place is before what followed the child. -/
theorem delete (hfitting : Fitting f place.node c before after [] []) :
    Covering root top
      { progress with stack := placesAfter [] place.node (without before []).length rest }
      (f.replaced place.node c before after []) calls := by
  have hlength := length_before h.wellFormed hc hfitting.list
  refine ⟨h.wellFormed.replaced hfitting.list hfitting.fit hfitting.lt_size,
    h.chain_substitute hstack hfitting _, h.offered, h.final, fun n hn => ?_⟩
  rcases h.covered_substitute hstack hfitting hlength (j := (without before []).length) (by simp) hn
    with ⟨k, hk, -⟩ | hcovered
  · exact absurd hk List.not_mem_nil
  · exact hcovered

variable (hcall : call ∈ calls)

include hcall

/-- After a splice, the nodes that came in are the next to come. -/
theorem splice {final : Finality} (hfitting : Fitting f place.node c before after nodes left)
    (hchose : Chose call (.splice (nodes.map .node) final)) :
    Covering root top
      { progress with
        final := nodes.filter (final.nodes (nodes.map .node)).contains ++ progress.final
        stack := placesAfter left place.node (without before nodes).length rest }
      (f.replaced place.node c before after nodes) calls := by
  have hlength := length_before h.wellFormed hc hfitting.list
  refine ⟨h.wellFormed.replaced hfitting.list hfitting.fit hfitting.lt_size,
    h.chain_substitute hstack hfitting _, h.offered, fun n hn => ?_, fun n hn => ?_⟩
  · rcases List.mem_append.1 hn with hn | hn
    · obtain ⟨hnodes, hfinal⟩ := List.mem_filter.1 hn
      refine ⟨call, hcall, _, final, hchose, ?_, by simpa using hfinal⟩
      rwa [nodesAmong_map]
    · exact h.final n hn
  · rcases h.covered_substitute hstack hfitting hlength (j := (without before nodes).length)
      (by simp) hn with ⟨k, hk, hkn⟩ | hcovered
    · refine Or.inr ⟨⟨place.node, (without before nodes).length⟩, List.mem_cons_self, k, ?_, hkn⟩
      rw [pending_replaced h.wellFormed hfitting.list]
      exact List.mem_append_left _ hk
    · exact hcovered

/-- After a replacement, the node that came in is passed, and a place may be opened below it. -/
theorem replace {descend : Bool} (hfitting : Fitting f place.node c before after [n] left)
    (hchose : Chose call (.replace (.node n) descend))
    (hplaces : stack = placesAfter left place.node ((without before [n]).length + 1) rest) :
    Covering root top
      { progress with
        offered := n :: progress.offered
        stack := if descend then descendInto (f.replaced place.node c before after [n]) n stack
          else stack }
      (f.replaced place.node c before after [n]) calls := by
  have hput : PutInPlace calls root top n := Or.inl ⟨call, hcall, descend, hchose⟩
  have hg := h.wellFormed.replaced hfitting.list hfitting.fit hfitting.lt_size
  have hparent : (f.replaced place.node c before after [n]).parent? n = some place.node := by
    rw [parent?_replaced hfitting.lt_size, if_pos (List.mem_singleton.2 rfl)]
  have hlength := length_before h.wellFormed hc hfitting.list
  have hchain := h.chain_substitute hstack hfitting ((without before [n]).length + 1)
  have hcovered (m : NodeId) :=
    h.covered_substitute (n := m) hstack hfitting hlength (j := (without before [n]).length + 1)
      (by simp)
  generalize f.replaced place.node c before after [n] = g at *
  rw [← hplaces] at hchain hcovered
  have hoffered : ∀ m ∈ n :: progress.offered,
      m ∈ calls.map (·.node) ∨ PutInPlace calls root top m := by
    intro m hm
    rcases List.mem_cons.1 hm with rfl | hm
    · exact Or.inr hput
    · exact h.offered m hm
  -- Below the node that came in a place is opened, or it is passed with all that is below it.
  cases descend with
  | true =>
      have hopened : Chain g top ((descendInto g n stack).map (·.node)) := by
        rw [hplaces] at hchain ⊢
        exact hchain.descendInto hparent rfl
      refine ⟨hg, hopened, hoffered, h.final, fun m hm => ?_⟩
      rcases hcovered m hm with ⟨k, hk, hkm⟩ | hsettled | hcome
      · cases List.mem_singleton.1 hk
        rcases hkm with rfl | hkm
        · exact Or.inl (Or.inr (Or.inl hput))
        · exact Or.inr (toCome_descendInto hg hkm _)
      · exact Or.inl hsettled
      · exact Or.inr (hcome.mono (subset_descendInto _ n _))
  | false =>
      refine ⟨hg, hchain, hoffered, h.final, fun m hm => ?_⟩
      rcases hcovered m hm with ⟨k, hk, hkm⟩ | hcovered
      · cases List.mem_singleton.1 hk
        refine Or.inl (Or.inr ?_)
        rcases hkm with rfl | hkm
        · exact Or.inl hput
        · exact Or.inr (Or.inr ⟨n, ⟨call, hcall, hchose⟩, hkm⟩)
      · exact hcovered

/-- Carrying out an action about a child that the call settled keeps the invariant. -/
theorem carried {action : Action} {progress' : Progress} (hsettled : Settled calls f root top c)
    (hchose : Chose call action) (hcarried : Carried progress place rest c f action progress' g) :
    Covering root top progress' g calls := by
  cases hcarried with
  | keep => exact h.keep hstack hc hsettled
  | replace hfitting hplaces => exact h.replace hstack hc hcall hfitting hchose hplaces
  | splice hfitting => exact h.splice hstack hc hcall hfitting hchose
  | delete hfitting => exact h.delete hstack hc hfitting

end Covering

end MarkdownTree.Revision
