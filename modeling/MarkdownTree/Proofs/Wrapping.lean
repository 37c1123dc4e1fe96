import MarkdownTree.Proofs.Building
import MarkdownTree.Proofs.PassSteps

/-!
Passes whose visitor wraps nodes. A visitor may make new nodes over nodes that exist and answer with
them. The nodes that it wraps leave their places before the pass learns of it. At the innermost
place this does no harm, for the index is looked up again when the answer is carried out. At an
outer place a child that is still to come is missed if a node was taken from before the place. Main
statement: a pass whose visitor does not do this offers every node that remains, or its answers put
the node aside.
-/

namespace MarkdownTree.Revision

open Forest Asking

variable {σ ε : Type} {visit : Visitor σ ε} {f g : Forest} {c k m n p root top : NodeId}
  {before after nodes : List NodeId} {calls : List (Call ε Answer)} {call : Call ε Answer}
  {progress progress' : Progress} {place place' : Frame} {rest stack : List Frame}
  {left : List (NodeId × Nat)} {action : Action} {answer : Except ε Answer}

/-! ### What is asked of a visitor -/

/-- A call that does nothing but make the nodes of its answer, over nodes that exist, other than the
visited one and its ancestors. -/
structure Wraps (call : Call ε Answer) : Prop where
  builds : Builds call.node call.before call.after
  known : ∀ action, Chose call action → action.KnownIn call.after
  answered : ∀ action, Chose call action → ∀ w < call.after.size, call.before.size ≤ w →
    ∃ n, .node n ∈ action.values ∧ call.after.AtOrAbove n w

/-- A call takes a node of the tree below `top` out of the children of a node over the visited one,
from before the child that leads to the visited node, while others are still to come behind it. -/
def Overtakes (top : NodeId) (call : Call ε Answer) : Prop :=
  ∃ p way before after, call.before.AtOrAbove top p ∧
    call.before.children p = before ++ way :: after ∧ call.before.Ancestor way call.node ∧
    after ≠ [] ∧ ∃ k ∈ before, call.after.parent? k ≠ some p

/-! ### Places that stand behind each other -/

/-- A place stands right behind a child. -/
def Behind (f : Forest) (place : Frame) (n : NodeId) : Prop :=
  ∃ before after, f.children place.node = before ++ n :: after ∧ pending f place = after

/-- Every place but the innermost stands right behind the child at which the next place is open. -/
def Aligned (f : Forest) : List Frame → Prop
  | inner :: outer :: rest => Behind f outer inner.node ∧ Aligned f (outer :: rest)
  | _ => True

namespace Aligned

theorem tail (h : Aligned f (place :: rest)) : Aligned f rest := by
  cases rest with
  | nil => trivial
  | cons outer rest => exact h.2

/-- Of the innermost place, only the node matters. -/
theorem of_node_eq (h : Aligned f (place :: rest)) (hnode : place'.node = place.node) :
    Aligned f (place' :: rest) := by
  cases rest with
  | nil => trivial
  | cons outer rest => exact ⟨hnode ▸ h.1, h.2⟩

theorem exists_behind (h : Aligned f (place :: rest)) {outer : Frame} (houter : outer ∈ rest) :
    ∃ inner ∈ (place :: rest).map (·.node), Behind f outer inner := by
  induction rest generalizing place with
  | nil => exact absurd houter List.not_mem_nil
  | cons next rest ih =>
      rcases List.mem_cons.1 houter with rfl | houter
      · exact ⟨place.node, List.mem_cons_self, h.1⟩
      · obtain ⟨inner, hinner, hbehind⟩ := ih h.2 houter
        exact ⟨inner, List.mem_cons_of_mem _ hinner, hbehind⟩

/-- Places that stay behind the same children are aligned after a change. -/
theorem map {move : Frame → Frame} (hmove : ∀ frame, (move frame).node = frame.node)
    (h : Aligned f (place :: rest))
    (hkeep : ∀ inner ∈ (place :: rest).map (·.node), ∀ outer ∈ rest, Behind f outer inner →
      Behind g (move outer) inner)
    (hnode : place'.node = place.node) : Aligned g (place' :: rest.map move) := by
  induction rest generalizing place place' with
  | nil => trivial
  | cons outer rest ih =>
      refine ⟨?_, ih h.2 (fun inner hinner next hnext => ?_) (hmove outer)⟩
      · rw [hnode]
        exact hkeep place.node List.mem_cons_self outer List.mem_cons_self h.1
      · exact hkeep inner (List.mem_cons_of_mem _ hinner) next (List.mem_cons_of_mem _ hnext)

/-- A place may be opened at the child that the innermost place has just passed. -/
theorem descendInto (h : Aligned f (place :: rest)) (hbehind : Behind f place n) :
    Aligned f (descendInto f n (place :: rest)) := by
  unfold Revision.descendInto
  split
  · exact h
  · exact ⟨hbehind, h⟩

end Aligned

theorem drop_length_succ (before after : List NodeId) (c : NodeId) :
    (before ++ c :: after).drop (before.length + 1) = after := by
  rw [List.append_cons, List.drop_left' (by simp)]

theorem behind_next (hlist : f.children p = before ++ c :: after) :
    Behind f ⟨p, before.length + 1⟩ c := by
  refine ⟨before, after, hlist, ?_⟩
  unfold pending
  rw [hlist, drop_length_succ]

/-! ### Actions -/

/-- Nodes that come in at the innermost place leave the outer places aligned. -/
theorem Aligned.substitute (h : Aligned f (place :: rest)) (hf : f.WellFormed)
    (hchain : Chain f top (place.node :: rest.map (·.node)))
    (hfitting : Fitting f place.node c before after nodes left) (next : Nat) :
    Aligned (f.replaced place.node c before after nodes)
      (placesAfter left place.node next rest) := by
  have hnodup := hchain.nodup hf
  refine h.map (fun _ => rfl) (fun inner hinner outer houter hbehind => ?_) rfl
  obtain ⟨before', after', hlist, hpending⟩ := hbehind
  have hne : outer.node ≠ place.node := fun heq =>
    (List.nodup_cons.1 hnodup).1 (heq ▸ List.mem_map_of_mem houter)
  have hover : f.AtOrAbove inner place.node := by
    rcases List.mem_cons.1 hinner with rfl | hinner
    · exact .refl f _
    · exact (hchain.ancestor inner hinner).atOrAbove
  have hstays : inner ∉ nodes := fun hmem => (hfitting.fit.fits inner hmem).not_over hover
  refine ⟨without before' nodes, without after' nodes, ?_, ?_⟩
  · rw [Frame.movedBack, children_replaced hf hfitting.list, if_neg hne, hlist]
    simp [without, List.filter_append, hstays]
  · rw [pending_movedBack hf hfitting.list hfitting.fit.nodup hfitting.departures hne, hpending]

theorem Carried.aligned (h : Carried progress place rest c f action progress' g)
    (hf : f.WellFormed) (hchain : Chain f top (place.node :: rest.map (·.node)))
    (hc : (f.children place.node)[place.next]? = some c) (haligned : Aligned f (place :: rest)) :
    Aligned g progress'.stack := by
  cases h with
  | keep =>
      obtain ⟨before, after, hlist, hlength⟩ := exists_before_after hc
      have hnext : Aligned f ({ place with next := place.next + 1 } :: rest) :=
        haligned.of_node_eq rfl
      refine hnext.descendInto ?_
      rw [← hlength]
      exact behind_next hlist
  | @replace before after n descend left stack hfitting hplaces =>
      have hplaced := haligned.substitute hf hchain hfitting ((without before [n]).length + 1)
      rw [← hplaces] at hplaced
      cases descend with
      | true =>
          have hlist : (f.replaced place.node c before after [n]).children place.node =
              without before [n] ++ n :: without after [n] := by
            rw [children_replaced hf hfitting.list, if_pos rfl]
            simp
          have hbehind := behind_next hlist
          generalize f.replaced place.node c before after [n] = g at *
          simp only [if_true]
          rw [hplaces, placesAfter] at hplaced ⊢
          exact hplaced.descendInto hbehind
      | false =>
          simp only [Bool.false_eq_true, if_false]
          exact hplaced
  | splice hfitting => exact haligned.substitute hf hchain hfitting _
  | delete hfitting => exact haligned.substitute hf hchain hfitting _

/-! ### Calls -/

/-- A place whose child leads to the visited node stands right behind it after nodes were made, and
before the same children as far as they stay, if nothing was taken from before it while others are
still to come. -/
theorem Behind.built (h : Behind f place n) (hb : Built c f g) (hf : f.WellFormed)
    (hway : f.AtOrAbove n c)
    (hkept : ∀ before after, f.children place.node = before ++ n :: after → after ≠ [] →
      ∀ k ∈ before, g.parent? k = some place.node) :
    Behind g place n ∧
      ∀ k ∈ pending f place, g.parent? k = some place.node → k ∈ pending g place := by
  obtain ⟨before, after, hlist, hpending⟩ := h
  have hmem : n ∈ f.children place.node := by simp [hlist]
  have hn := hb.parent?_of_mem hf hmem hway
  obtain ⟨before', after', hlist', hafter, hpending'⟩ : ∃ before' after',
      g.children place.node = before' ++ n :: after' ∧
        after' = after.filter (fun k => g.parent? k = some place.node) ∧
        pending g place = after' := by
    have hchildren := hb.children_split hlist hn
    refine ⟨_, _, hchildren, rfl, ?_⟩
    unfold pending at hpending ⊢
    rw [hchildren]
    rw [hlist] at hpending
    rcases eq_or_ne after [] with rfl | hne
    -- Nothing is to come: the place is behind all children, and they have not become more.
    · have hnext := List.drop_eq_nil_iff.1 hpending
      refine List.drop_eq_nil_of_le (Nat.le_trans ?_ hnext)
      simp only [List.filter_nil, List.length_append, List.length_cons, List.length_nil]
      exact Nat.add_le_add_right (List.length_filter_le _ _) _
    · have hlength := congrArg List.length hpending
      have hpos := List.length_pos_iff.2 hne
      rw [List.length_drop, List.length_append, List.length_cons] at hlength
      have hnext : place.next = before.length + 1 := by omega
      have hbefore : before.filter (fun k => g.parent? k = some place.node) = before :=
        List.filter_eq_self.2 fun k hk => decide_eq_true (hkept before after hlist hne k hk)
      rw [hbefore, hnext, drop_length_succ]
  refine ⟨⟨before', after', hlist', hpending'⟩, fun k hk hparent => ?_⟩
  rw [hpending', hafter]
  rw [hpending] at hk
  exact List.mem_filter.2 ⟨hk, decide_eq_true hparent⟩

/-- The visited node is found again among the children of its parent, before the same ones as far as
they stay. -/
theorem exists_index_of_built (hb : Built c f g) (hf : f.WellFormed)
    (hc : (f.children place.node)[place.next]? = some c) :
    ∃ i, (g.children place.node)[i]? = some c ∧
      ∀ k ∈ pending f place, g.parent? k = some place.node → k ∈ pending g ⟨place.node, i⟩ := by
  obtain ⟨before, after, hlist, hlength⟩ := exists_before_after hc
  have hlist' := hb.children_split hlist
    (hb.parent?_of_mem hf (List.mem_of_getElem? hc) (.refl f c))
  refine ⟨_, by rw [hlist', List.getElem?_append_right (Nat.le_refl _)]; simp,
    fun k hk hparent => ?_⟩
  unfold pending at hk ⊢
  rw [hlist, List.drop_left' hlength] at hk
  rw [hlist', List.drop_left]
  rcases List.mem_cons.1 hk with rfl | hk
  · exact List.mem_cons_self
  · exact List.mem_cons_of_mem c (List.mem_filter.2 ⟨hk, decide_eq_true hparent⟩)

/-- Every outer place still stands behind the same child, from before which nothing was taken. -/
theorem Standing.behind_of_built (h : Standing top progress f)
    (hstack : progress.stack = place :: rest) (hmem : c ∈ f.children place.node)
    (hb : Built c f g) (hnot : ¬ Overtakes top (⟨c, f, answer, g⟩ : Call ε Answer))
    {inner : NodeId} {outer : Frame} (hinner : inner ∈ (place :: rest).map (·.node))
    (houter : outer ∈ rest) (hbehind : Behind f outer inner) :
    Behind g outer inner ∧
      ∀ k ∈ pending f outer, g.parent? k = some outer.node → k ∈ pending g outer := by
  have hway : f.Ancestor inner c :=
    (h.over_place hstack (hstack ▸ hinner)).trans_ancestor (h.wellFormed.ancestor_of_mem hmem)
  refine hbehind.built hb h.wellFormed hway.atOrAbove fun before after hlist hne k hk => ?_
  by_contra hno
  refine hnot ⟨outer.node, inner, before, after, ?_, hlist, hway, hne, k, hk, hno⟩
  exact (h.chain_cons hstack).top_over (List.mem_cons_of_mem _ (List.mem_map_of_mem houter))

/-- A call that makes nodes settles the node that it is about, and the innermost place is moved to
where that node stands now. -/
theorem Covering.wrap (h : Covering root top progress f calls)
    (hstack : progress.stack = place :: rest) (haligned : Aligned f (place :: rest))
    (hc : (f.children place.node)[place.next]? = some c) (hb : Built c f g)
    (hnot : ¬ Overtakes top (⟨c, f, answer, g⟩ : Call ε Answer)) :
    ∃ i, (g.children place.node)[i]? = some c ∧ Aligned g (⟨place.node, i⟩ :: rest) ∧
      Covering root top ⟨⟨place.node, i⟩ :: rest, c :: progress.offered, progress.final⟩ g
        (calls ++ [⟨c, f, answer, g⟩]) := by
  have hf := h.wellFormed
  have hmem := List.mem_of_getElem? hc
  have hplace : f.Ancestor place.node c := hf.ancestor_of_mem hmem
  obtain ⟨i, hi, hhere⟩ := exists_index_of_built hb hf hc
  have hthere {inner : NodeId} {outer : Frame} (hinner : inner ∈ (place :: rest).map (·.node))
      (houter : outer ∈ rest) (hbehind : Behind f outer inner) :=
    h.standing.behind_of_built hstack hmem hb hnot hinner houter hbehind
  have hchain : Chain g top ((place :: rest).map (·.node)) := by
    rw [← hstack]
    exact h.standing.chain_of_parent?_eq hstack fun n hn =>
      hb.above n (hn.trans_ancestor hplace).atOrAbove
  refine ⟨i, hi, ?_, hb.wellFormed, hchain, h.offered_call ⟨c, f, answer, g⟩, h.final_call _,
    fun n hn => ?_⟩
  · have hmap : Aligned g (⟨place.node, i⟩ :: rest.map id) :=
      haligned.map (fun _ => rfl)
        (fun inner hinner outer houter hold => (hthere hinner houter hold).1) rfl
    rwa [List.map_id] at hmap
  · have htop : f.AtOrAbove top c := ((h.standing.top_over hstack).trans_ancestor hplace).atOrAbove
    obtain ⟨-, htopn, hover⟩ := hb.below hf (hf.lt_size_of_mem hmem) htop hn
    have hup (k : NodeId) (hk : f.Ancestor k n) : g.Ancestor k n :=
      (ancestor_iff_of_parent?_eq hover (.refl f n)).2 hk
    -- What was to come still is: the child over it has kept its parent, and so its place.
    rcases h.covered n htopn with hsettled | ⟨frame, hframe, k, hk, hkn⟩
    · exact Or.inl (hsettled.mono _ hup)
    · have hparent : g.parent? k = some frame.node := by
        rw [hover k hkn]
        exact hf.parent?_of_mem (List.mem_of_mem_drop hk)
      have hkn' : g.AtOrAbove k n := hkn.imp id (hup k)
      rw [hstack] at hframe
      rcases List.mem_cons.1 hframe with rfl | hframe
      · exact Or.inr ⟨_, List.mem_cons_self, k, hhere k hk hparent, hkn'⟩
      · obtain ⟨inner, hinner, hold⟩ := haligned.exists_behind hframe
        exact Or.inr ⟨frame, List.mem_cons_of_mem _ hframe, k,
          (hthere hinner hframe hold).2 k hk hparent, hkn'⟩

/-! ### Runs -/

/-- The invariant of a pass whose visitor wraps nodes. -/
structure Weaving (root top : NodeId) (progress : Progress) (f : Forest)
    (calls : List (Call ε Answer)) : Prop where
  covering : Covering root top progress f calls
  aligned : Aligned f progress.stack

/-- Only keeping a child depends on the index of the innermost place. -/
theorem Carried.at_index (h : Carried progress place rest c f action progress' g) {i : Nat}
    (hi : action = .keep → i = place.next) :
    Carried ⟨⟨place.node, i⟩ :: rest, progress.offered, progress.final⟩ ⟨place.node, i⟩ rest c f
      action progress' g := by
  cases h with
  | keep =>
      cases hi rfl
      exact .keep
  | replace hfitting hplaces => exact .replace hfitting hplaces
  | splice hfitting => exact .splice hfitting
  | delete hfitting => exact .delete hfitting

/-- A call about a node that is kept has made no nodes. -/
theorem Wraps.eq_of_keep (h : Wraps call) (hf : call.before.WellFormed)
    (hchose : Chose call .keep) : call.after = call.before := by
  refine h.builds.eq_of_size_le hf (Nat.le_of_not_lt fun hlt => ?_)
  obtain ⟨n, hn, -⟩ := h.answered .keep hchose call.before.size hlt (Nat.le_refl _)
  exact absurd hn List.not_mem_nil

theorem Weaving.step {s t : σ × List (Call ε Answer)} (h : Weaving root top progress f s.2)
    (hstack : progress.stack = place :: rest)
    (hgood : AllGood (fun call => Wraps call ∧ ¬ Overtakes top call) t)
    (hres : result (step visit.traced progress) f s = (.ok progress', g, t)) :
    Weaving root top progress' g t.2 := by
  obtain ⟨h, haligned⟩ := h
  rw [hstack] at haligned
  have hf := h.wellFormed
  have hchain := h.standing.chain_cons hstack
  cases stepped_of_result hstack hres with
  | close hend => exact ⟨h.close hstack hend, haligned.tail⟩
  | passOver hc hfinal =>
      refine ⟨h.advance hstack hc hchain (List.Subset.refl _) fun n hn => ?_,
        haligned.of_node_eq rfl⟩
      exact Or.inl (Or.inr (Or.inr (Or.inl ⟨_, h.final _ hfinal, hn⟩)))
  | @meet c hc _ hoffered =>
      have hcarried : Carried progress place rest c f .keep _ f := .keep
      exact ⟨h.keep hstack hc ((h.offered c hoffered).imp id Or.inl),
        hcarried.aligned hf hchain hc haligned⟩
  | @act c a action g₁ _ _ _ hc _ _ _ haction hcarry =>
      have hmem : (⟨c, f, .ok a, g₁⟩ : Call ε Answer) ∈ s.2 ++ [⟨c, f, .ok a, g₁⟩] :=
        List.mem_append_right _ List.mem_cons_self
      have hchose : Chose (⟨c, f, .ok a, g₁⟩ : Call ε Answer) action := chose_ok_iff.2 haction
      obtain ⟨hwraps, hnot⟩ := hgood _ hmem
      obtain ⟨i, hi, haligned', hcovering⟩ :=
        h.wrap hstack haligned hc (hwraps.builds.built hf) hnot
      have hnodup := hcovering.standing.nodup rfl
      have hcarried : Carried { progress with offered := c :: progress.offered } place rest c g₁
          action progress' g :=
        carried_of_ok hcovering.wellFormed hstack hnodup (List.mem_of_getElem? hi)
          (hwraps.known action hchose) hcarry
      -- The child stands elsewhere if it was wrapped, but then the answer was not to keep it.
      have hkeep : action = .keep → i = place.next := by
        rintro rfl
        have hsame : g₁ = f := hwraps.eq_of_keep hf hchose
        rw [hsame] at hi
        obtain ⟨before, after, hlist, hlength⟩ := exists_before_after hc
        exact (length_before hf hi hlist).symm.trans hlength
      have hmoved := hcarried.at_index hkeep
      refine ⟨hcovering.carried rfl hi hmem (Or.inl ?_) hchose hmoved,
        hmoved.aligned hcovering.wellFormed (hcovering.standing.chain_cons rfl) hi haligned'⟩
      rw [List.map_append]
      exact List.mem_append_right _ List.mem_cons_self

/-! ### Whole passes -/

theorem settled_revise_of_wraps {steps : Nat} {s : σ} {t : σ × List (Call ε Answer)}
    (hf : f.WellFormed) (hgood : AllGood (fun call => Wraps call ∧ ¬ Overtakes top call) t)
    (hres : result (revise visit.traced steps root) f (s, []) = (.ok top, g, t)) :
    g.WellFormed ∧ ∀ n, g.AtOrAbove top n → Settled t.2 g root top n := by
  have hwell (call : Call ε Answer) (hc : call ∈ t.2) (hbefore : call.before.WellFormed) :
      call.after.WellFormed := ((hgood call hc).1.builds.built hbefore).wellFormed
  exact settled_revise_of_invariant Weaving.step Weaving.covering (fun h => ⟨h, trivial⟩) hwell hf
    hgood hres

/-! ### A paragraph that is wrapped -/

/-- Wraps a node into a new quotation when it is asked about another one, and puts the quotation
before that one. -/
def wrapping (taken visited : NodeId) : Visitor Unit Empty := fun n f s =>
  if n = visited then
    match outcome (newNode (.ofFields .blockQuote []) [.node taken] []) f with
    | (.ok w, g) => (.ok (.value (.list [.node w, .node n])), g, s)
    | (.error _, g) => (.ok (.value (.node n)), g, s)
  else
    (.ok (.value (.node n)), f, s)

theorem chose_same (h : Chose (⟨n, f, .ok (.value (.node n)), g⟩ : Call ε Answer) action) :
    action = .keep := by
  obtain ⟨a, ha, haction⟩ := h
  cases ha
  simp only [Answer.toAction, if_true, Except.ok.injEq] at haction
  exact haction.symm

theorem chose_list {values : List Value}
    (h : Chose (⟨n, f, .ok (.value (.list values)), g⟩ : Call ε Answer) action) :
    action = .splice values .noNode := by
  obtain ⟨a, ha, haction⟩ := h
  cases ha
  exact (Except.ok.inj haction).symm

theorem wraps_of_same (n : NodeId) (f : Forest) :
    Wraps (⟨n, f, .ok (.value (.node n)), f⟩ : Call ε Answer) where
  builds := .refl
  known action hchose v hv := by
    rw [chose_same hchose] at hv
    exact absurd hv List.not_mem_nil
  answered _ _ w hlt hle := absurd hlt (Nat.not_lt.2 hle)

/-- A call that makes a quotation of one node that is not over the visited one, and answers with the
quotation before the visited node. -/
theorem wraps_of_newNode (taken n : NodeId) (hf : f.WellFormed) (htaken : taken < f.size)
    (hn : n < f.size) (hover : f.isAncestorOf taken n = false) (hsize : g.size = f.size + 1)
    (hmade : outcome (newNode (.ofFields .blockQuote []) [.node taken] []) f = (.ok f.size, g)) :
    Wraps (⟨n, f, .ok (.value (.list [.node f.size, .node n])), g⟩ : Call ε Answer) := by
  refine ⟨?_, fun action hchose v hv c hc => ?_, fun action hchose w hlt hle => ?_⟩
  · refine .make .refl (fun c hc => ?_) (by simp [Value.nodesEntries]) (fun c hc hcn => ?_)
      (show outcome (newNode _ ([taken].map .node) []) f = _ from hmade)
    · rwa [List.mem_singleton.1 hc]
    · rw [List.mem_singleton.1 hc, ← hf.isAncestorOf_iff, hover] at hcn
      cases hcn
  · cases chose_list hchose
    subst hc
    have hless : f.size < g.size := Nat.lt_of_lt_of_eq (Nat.lt_succ_self _) hsize.symm
    simp only [Action.values, List.mem_cons, Value.node.injEq, List.not_mem_nil, or_false] at hv
    rcases hv with rfl | rfl
    · exact hless
    · exact Nat.lt_trans hn hless
  · cases chose_list hchose
    have hw : w = f.size := Nat.le_antisymm (Nat.le_of_lt_succ (Nat.lt_of_lt_of_eq hlt hsize)) hle
    refine ⟨f.size, List.mem_cons_self, ?_⟩
    rw [hw]
    exact .refl g f.size

/-- The document with three paragraphs after the first was wrapped, and after the quotation came
in. -/
def paragraphWrapped : Forest where
  nodes := #[⟨0, some 4, [], 0⟩, ⟨1, some 3, [], 1⟩, ⟨2, some 3, [], 2⟩, ⟨3, none, [1, 2], 3⟩,
    ⟨4, none, [0], 4⟩]
  elements := threeParagraphs.elements.push (.ofFields .blockQuote [])
  records := threeParagraphs.records.push []

def paragraphQuoted : Forest :=
  { paragraphWrapped with nodes := #[⟨0, some 4, [], 0⟩, ⟨1, some 3, [], 1⟩, ⟨2, some 3, [], 2⟩,
      ⟨3, none, [4, 1, 2], 3⟩, ⟨4, some 3, [0], 4⟩] }

theorem passCalls_wrapping :
    passCalls (wrapping 0 1) 12 3 threeParagraphs () = [
      ⟨3, threeParagraphs, .ok (.value (.node 3)), threeParagraphs⟩,
      ⟨0, threeParagraphs, .ok (.value (.node 0)), threeParagraphs⟩,
      ⟨1, threeParagraphs, .ok (.value (.list [.node 4, .node 1])), paragraphWrapped⟩,
      ⟨4, paragraphQuoted, .ok (.value (.node 4)), paragraphQuoted⟩,
      ⟨2, paragraphQuoted, .ok (.value (.node 2)), paragraphQuoted⟩] := rfl

theorem wraps_first : Wraps (⟨1, threeParagraphs, .ok (.value (.list [.node 4, .node 1])),
    paragraphWrapped⟩ : Call Empty Answer) :=
  wraps_of_newNode 0 1 wellFormed_threeParagraphs (by decide) (by decide) (by decide) rfl rfl

theorem wraps_wrapping :
    ∀ call ∈ passCalls (wrapping 0 1) 12 3 threeParagraphs (), Wraps call := by
  rw [passCalls_wrapping]
  simp [wraps_of_same, wraps_first]

theorem wellFormed_paragraphQuoted : paragraphQuoted.WellFormed := by
  have hwrapped : paragraphWrapped.WellFormed :=
    (wraps_first.builds.built wellFormed_threeParagraphs).wellFormed
  have hknown : paragraphWrapped.Known (.node 4) := by
    intro c hc
    cases hc
    decide
  have hthree : 3 < paragraphWrapped.size := by decide
  exact (relinked_prependChild hwrapped hthree hknown).wellFormed

/-- A visited node whose parent has no parent is below no other way down. -/
theorem not_overtakes_of_root (hf : call.before.WellFormed)
    (hroot : ∀ p, call.before.parent? call.node = some p → call.before.parent? p = none) :
    ¬ Overtakes top call := by
  rintro ⟨p, way, before, after, -, hlist, hway, -, -⟩
  obtain ⟨q, hq, hover⟩ := ancestor_iff_parent.1 hway
  have hmem : way ∈ call.before.children p := by simp [hlist]
  have hnone := hroot q hq
  rcases hover with rfl | hover
  · rw [hf.parent?_of_mem hmem] at hnone
    cases hnone
  · obtain ⟨r, hr, -⟩ := ancestor_iff_parent.1 hover
    rw [hr] at hnone
    cases hnone

theorem not_overtakes_wrapping :
    ∀ call ∈ passCalls (wrapping 0 1) 12 3 threeParagraphs (), ¬ Overtakes 3 call := by
  have hflat {n : NodeId} {f : Forest} {a : Except Empty Answer} {g : Forest} (hf : f.WellFormed)
      (hparent : f.parent? n = none ∨ f.parent? n = some 3) (hroot : f.parent? 3 = none) :
      ¬ Overtakes 3 (⟨n, f, a, g⟩ : Call Empty Answer) := by
    refine not_overtakes_of_root hf fun p hp => ?_
    rcases hparent with hnone | hthree
    · rw [hnone] at hp
      cases hp
    · rw [hthree] at hp
      cases hp
      exact hroot
  have hthree := wellFormed_threeParagraphs
  have hquoted := wellFormed_paragraphQuoted
  rw [passCalls_wrapping]
  simp only [List.mem_cons, List.not_mem_nil, or_false, forall_eq_or_imp, forall_eq]
  exact ⟨hflat hthree (.inl rfl) rfl, hflat hthree (.inr rfl) rfl, hflat hthree (.inr rfl) rfl,
    hflat hquoted (.inr rfl) rfl, hflat hquoted (.inr rfl) rfl⟩

/-! ### A paragraph that is taken from before an outer place -/

/-- A document with a paragraph, a quotation of a paragraph, and another paragraph. -/
def quoteBetween : Forest where
  nodes := #[⟨0, some 4, [], 0⟩, ⟨1, some 2, [], 1⟩, ⟨2, some 4, [1], 2⟩, ⟨3, some 4, [], 3⟩,
    ⟨4, none, [0, 2, 3], 4⟩]
  elements := #[.ofFields .paragraph [], .ofFields .paragraph [], .ofFields .blockQuote [],
    .ofFields .paragraph [], .ofFields .document []]
  records := #[[], [], [], [], []]

theorem wellFormed_quoteBetween : quoteBetween.WellFormed := by
  have hfirst := wellFormed_newNode wellFormed_empty (.ofFields .paragraph []) [] (by simp)
  have hsecond := wellFormed_newNode hfirst (.ofFields .paragraph []) [] (by simp)
  have hquote := wellFormed_newNode hsecond (.ofFields .blockQuote []) [1] (by decide)
  have hthird := wellFormed_newNode hquote (.ofFields .paragraph []) [] (by simp)
  exact wellFormed_newNode hthird (.ofFields .document []) [0, 2, 3] (by decide)

/-- The document after the first paragraph was wrapped, and after the new quotation came in. -/
def firstWrapped : Forest where
  nodes := #[⟨0, some 5, [], 0⟩, ⟨1, some 2, [], 1⟩, ⟨2, some 4, [1], 2⟩, ⟨3, some 4, [], 3⟩,
    ⟨4, none, [2, 3], 4⟩, ⟨5, none, [0], 5⟩]
  elements := quoteBetween.elements.push (.ofFields .blockQuote [])
  records := quoteBetween.records.push []

def firstQuoted : Forest :=
  { firstWrapped with nodes := #[⟨0, some 5, [], 0⟩, ⟨1, some 2, [], 1⟩, ⟨2, some 4, [5, 1], 2⟩,
      ⟨3, some 4, [], 3⟩, ⟨4, none, [2, 3], 4⟩, ⟨5, some 2, [0], 5⟩] }

theorem passCalls_wrapping_before :
    passCalls (wrapping 0 1) 12 4 quoteBetween () = [
      ⟨4, quoteBetween, .ok (.value (.node 4)), quoteBetween⟩,
      ⟨0, quoteBetween, .ok (.value (.node 0)), quoteBetween⟩,
      ⟨2, quoteBetween, .ok (.value (.node 2)), quoteBetween⟩,
      ⟨1, quoteBetween, .ok (.value (.list [.node 5, .node 1])), firstWrapped⟩,
      ⟨5, firstQuoted, .ok (.value (.node 5)), firstQuoted⟩] := rfl

theorem wraps_wrapping_before :
    ∀ call ∈ passCalls (wrapping 0 1) 12 4 quoteBetween (), Wraps call := by
  have hmade : Wraps (⟨1, quoteBetween, .ok (.value (.list [.node 5, .node 1])), firstWrapped⟩ :
      Call Empty Answer) :=
    wraps_of_newNode 0 1 wellFormed_quoteBetween (by decide) (by decide) (by decide) rfl rfl
  rw [passCalls_wrapping_before]
  simp [wraps_of_same, hmade]

/-- A pass offers no node twice. If its visitor does nothing to the tree but make the nodes of its
answers over nodes other than the visited one and its ancestors, and takes none for them from before
an outer place where others are still to come, then every node of the tree that remains was offered,
or the answers of the visitor put it aside. -/
theorem offered_though_wrapped (visit : Visitor σ ε) (steps : Nat) (root : NodeId) (f : Forest)
    (s : σ) (hf : f.WellFormed) (hwraps : ∀ call ∈ passCalls visit steps root f s, Wraps call) :
    ((passCalls visit steps root f s).map (·.node)).Nodup ∧
      ∀ top g t, result (revise visit steps root) f s = (.ok top, g, t) →
        (∀ call ∈ passCalls visit steps root f s, ¬ Overtakes top call) →
        ∀ n ∈ g.preorder top, Settled (passCalls visit steps root f s) g root top n := by
  obtain ⟨calls, hres⟩ := mirrors_revise visit steps root f s []
  have hcalls : passCalls visit steps root f s = calls := by
    rw [passCalls, Asking.calls, hres]
    rfl
  rw [hcalls] at hwraps ⊢
  refine ⟨nodup_revise hres, fun top g t hrun hnot n hn => ?_⟩
  rw [hrun] at hres
  obtain ⟨hg, hsettled⟩ := settled_revise_of_wraps (t := (t, calls)) hf
    (fun call hc => ⟨hwraps call hc, hnot call hc⟩) hres
  exact hsettled n (hg.mem_preorder_iff.1 hn)

/-- The third paragraph is offered although the first was taken from before the innermost place. -/
theorem offered_though_wrapped_wrapping :
    ((passCalls (wrapping 0 1) 12 3 threeParagraphs ()).map (·.node)).Nodup ∧
      ∀ n ∈ paragraphQuoted.preorder 3,
        Settled (passCalls (wrapping 0 1) 12 3 threeParagraphs ()) paragraphQuoted 3 3 n := by
  obtain ⟨hnodup, hsettled⟩ := offered_though_wrapped (wrapping 0 1) 12 3 threeParagraphs ()
    wellFormed_threeParagraphs wraps_wrapping
  exact ⟨hnodup, hsettled 3 paragraphQuoted () rfl not_overtakes_wrapping⟩

/-- The last paragraph of the document is missed when the first is taken from before the quotation
in which the pass is at work. -/
theorem not_offered_wrapping :
    quoteBetween.WellFormed ∧
      (∀ call ∈ passCalls (wrapping 0 1) 12 4 quoteBetween (), Wraps call) ∧
      ¬ ∀ top g t, result (revise (wrapping 0 1) 12 4) quoteBetween () = (.ok top, g, t) →
        ∀ n ∈ g.preorder top,
          Settled (passCalls (wrapping 0 1) 12 4 quoteBetween ()) g 4 top n := by
  refine ⟨wellFormed_quoteBetween, wraps_wrapping_before, fun hall => ?_⟩
  have hsettled := hall 4 firstQuoted () rfl 3 (by decide)
  -- None of the answers replaces a node or makes one final.
  have hplain : ∀ call ∈ passCalls (wrapping 0 1) 12 4 quoteBetween (), ∀ action,
      Chose call action → action = .keep ∨ ∃ values, action = .splice values .noNode := by
    intro call hc action hchose
    rw [passCalls_wrapping_before] at hc
    simp only [List.mem_cons, List.not_mem_nil, or_false] at hc
    rcases hc with rfl | rfl | rfl | rfl | rfl
    · exact Or.inl (chose_same hchose)
    · exact Or.inl (chose_same hchose)
    · exact Or.inl (chose_same hchose)
    · exact Or.inr ⟨_, chose_list hchose⟩
    · exact Or.inl (chose_same hchose)
  rcases hsettled with hoffered | (⟨call, hc, descend, hchose⟩ | ⟨heq, -⟩) |
    ⟨k, ⟨call, hc, values, final, hchose, -, hfinal⟩, -⟩ | ⟨k, ⟨call, hc, hchose⟩, -⟩
  · rw [passCalls_wrapping_before] at hoffered
    revert hoffered
    decide
  · rcases hplain call hc _ hchose with h | ⟨_, h⟩ <;> cases h
  · cases heq
  · rcases hplain call hc _ hchose with h | ⟨_, h⟩
    · cases h
    · cases h
      exact absurd hfinal List.not_mem_nil
  · rcases hplain call hc _ hchose with h | ⟨_, h⟩ <;> cases h

end MarkdownTree.Revision
