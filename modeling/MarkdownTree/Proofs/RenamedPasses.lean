import MarkdownTree.Proofs.PassSteps
import MarkdownTree.Proofs.Renamings

/-!
Passes over renamed parts of forests. Two passes go in step: where one of them is at a node, the
other is at the node with the new number, and both do the same. New nodes are made at the same time,
so the numbers that come next have to correspond from the start. What a pass comes to is therefore a
matter of the tree alone, as long as this is true of its visitor.
-/

namespace MarkdownTree

namespace Forest

variable {T : NodeId → Prop} {r : NodeId → NodeId} {f g : Forest} {c m n p : NodeId}
  {nodes before after : List NodeId}

/-! ### Replacements in a renamed part -/

namespace Renamed

variable (hr : Function.Injective r) (h : Renamed T r f g)

include hr h

theorem checkAttach_eq (hp : f.Has T p) (hc : f.Has T c) :
    g.checkAttach (r p) (.node (r c)) = (f.checkAttach p (.node c)).map r := by
  have hover : g.isAncestorOf (r c) (r p) = f.isAncestorOf c p := by
    rw [Bool.eq_iff_iff, h.image.isAncestorOf_iff, h.source.isAncestorOf_iff, h.atOrAbove_iff hr hp]
  rw [checkAttach, checkAttach, h.kind_eq hp, h.kind_eq hc, hover]
  cases checkKinds (f.kind p) (f.kind c) with
  | error e => rfl
  | ok _ =>
      by_cases hcycle : f.isAncestorOf c p = true <;>
        simp [hcycle, bind, Except.bind, Except.map]

theorem checkReplacement_eq (hp : f.Has T p) (hnodes : ∀ c ∈ nodes, f.Has T c)
    (seen : List NodeId) :
    g.checkReplacement (r p) (seen.map r) ((nodes.map r).map .node) =
      (f.checkReplacement p seen (nodes.map .node)).map (List.map r) := by
  induction nodes generalizing seen with
  | nil => rfl
  | cons c nodes ih =>
      have hc := hnodes c List.mem_cons_self
      have hseen : (seen.map r).contains (r c) = seen.contains c := by
        simp [hr.eq_iff]
      have hrest := ih (fun k hk => hnodes k (List.mem_cons_of_mem c hk)) (c :: seen)
      rw [List.map_cons] at hrest
      simp only [List.map_cons, checkReplacement, h.checkAttach_eq hr hp hc]
      cases hcheck : f.checkAttach p (.node c) with
      | error e => rfl
      | ok k =>
          obtain rfl : k = c := by
            obtain ⟨heq, -⟩ := (checkAttach_eq_ok_iff h.source).1 hcheck
            exact (Value.node.inj heq).symm
          simp only [Except.map, bind, Except.bind, hseen, h.kind_eq hp, h.kind_eq hc, hrest]
          split
          · rfl
          · cases f.checkReplacement p (k :: seen) (nodes.map .node) <;> rfl

omit hr in
theorem lt_size_of_mem_map (hnodes : ∀ c ∈ nodes, f.Has T c) : ∀ k ∈ nodes.map r, k < g.size := by
  intro k hk
  obtain ⟨m, hm, rfl⟩ := List.mem_map.1 hk
  exact h.lt_size m (hnodes m hm)

omit hr in
theorem children_split (hp : f.Has T p) (hlist : f.children p = before ++ c :: after) :
    g.children (r p) = before.map r ++ r c :: after.map r := by
  rw [h.children_eq p hp, hlist, List.map_append, List.map_cons]

omit hr in
/-- If only links change, it is enough that these correspond and do not lead out of the part. -/
theorem of_sameData {f' g' : Forest} (hf' : f'.WellFormed) (hg' : g'.WellFormed)
    (hdata : f.SameData f') (hdata' : g.SameData g')
    (hchildren : ∀ n, f.Has T n → g'.children (r n) = (f'.children n).map r)
    (hparent : ∀ n, f.Has T n → g'.parent? (r n) = (f'.parent? n).map r)
    (hchild : ∀ n c, f.Has T n → c ∈ f'.children n → T c)
    (hup : ∀ n p, f.Has T n → f'.parent? n = some p → T p) : Renamed T r f' g' := by
  have hold {n : NodeId} (hn : f'.Has T n) : f.Has T n := ⟨hn.1, hdata.size_eq ▸ hn.2⟩
  refine ⟨hf', hg', fun n hn => ?_, fun n hn => hchildren n (hold hn),
    fun n hn => hparent n (hold hn), fun n hn => ?_, fun n hn => ?_, fun n hn => ?_,
    fun n c hn => hchild n c (hold hn), fun n p hn => hup n p (hold hn)⟩
  · rw [hdata'.size_eq]
    exact h.lt_size n (hold hn)
  · rw [hdata.element_eq, hdata'.element_eq, h.element_eq n (hold hn)]
  · rw [hdata.metadata_eq, hdata'.metadata_eq, h.metadata_eq n (hold hn)]
  · obtain ⟨hnone, hkeyed, hmetadata⟩ := h.plain n (hold hn)
    refine ⟨?_, ?_, ?_⟩
    · rwa [hdata.element_eq]
    · rwa [hdata.element_eq]
    · rwa [hdata.metadata_eq]

/-- Nodes of the part take the place of a child in both forests. -/
theorem replaced (hp : f.Has T p) (hnodes : ∀ c ∈ nodes, f.Has T c)
    (hlist : f.children p = before ++ c :: after) (hfit : f.AllFit p nodes)
    (hfit' : g.AllFit (r p) (nodes.map r)) :
    Renamed T r (f.replaced p c before after nodes)
      (g.replaced (r p) (r c) (before.map r) (after.map r) (nodes.map r)) := by
  have hlist' := h.children_split hp hlist
  have hlt : ∀ k ∈ nodes, k < f.size := fun k hk => (hnodes k hk).2
  have hlt' := h.lt_size_of_mem_map hnodes
  have hmem : ∀ k ∈ before ++ c :: after, f.Has T k := fun k hk =>
    h.has_of_mem hp (hlist ▸ hk)
  refine h.of_sameData (h.source.replaced hlist hfit hlt) (h.image.replaced hlist' hfit' hlt')
    (sameData_replaced f p c before after nodes) (sameData_replaced g _ _ _ _ _)
    (fun n hn => ?_) (fun n hn => ?_) (fun n k hn hk => ?_) fun n q hn hq => ?_
  · rw [children_replaced h.source hlist, children_replaced h.image hlist', h.children_eq n hn]
    simp only [hr.eq_iff, without_map hr]
    split
    · simp only [List.map_append]
    · rfl
  · rw [parent?_replaced hlt, parent?_replaced hlt', h.parent?_eq n hn]
    simp only [hr.eq_iff, List.mem_map, exists_eq_right]
    split
    · rfl
    · split <;> rfl
  · rw [children_replaced h.source hlist] at hk
    split at hk
    · simp only [List.mem_append, mem_without] at hk
      rcases hk with (hk | hk) | hk
      · exact (hmem k (List.mem_append_left _ hk.1)).1
      · exact (hnodes k hk).1
      · exact (hmem k (List.mem_append_right _ (List.mem_cons_of_mem c hk.1))).1
    · exact h.child n k hn (mem_without.1 hk).1
  · rw [parent?_replaced hlt] at hq
    split at hq
    · cases hq
      exact hp.1
    · split at hq
      · cases hq
      · exact h.parent n q hn hq

/-- A node of the part is detached in both forests. -/
theorem detach (c : NodeId) : Renamed T r (f.detach c) (g.detach (r c)) := by
  refine h.of_sameData (h.source.detach c) (h.image.detach (r c)) (sameData_detach f c)
    (sameData_detach g (r c)) (fun n hn => ?_) (fun n hn => ?_) (fun n k hn hk => ?_)
    fun n q hn hq => h.parent n q hn (parent?_of_detach hq)
  · rw [children_detach h.source, children_detach h.image, h.children_eq n hn, List.filter_map]
    congr 1
    refine List.filter_congr fun m _ => ?_
    simp [bne, hr.eq_iff]
  · rw [parent?_detach, parent?_detach, h.parent?_eq n hn]
    simp only [hr.eq_iff]
    split <;> rfl
  · rw [children_detach h.source] at hk
    exact h.child n k hn (List.mem_of_mem_filter hk)

end Renamed

/-! ### Parts to which nodes are added -/

/-- A renamed part to which new nodes belong as soon as they are made: the numbers that come next
correspond. -/
structure Twin (T : NodeId → Prop) (r : NodeId → NodeId) (f g : Forest) : Prop where
  renamed : Renamed T r f g
  mem (i : Nat) : T (f.size + i)
  next_eq (i : Nat) : r (f.size + i) = g.size + i

theorem Twin.of_size {f' g' : Forest} (h : Twin T r f g) (h' : Renamed T r f' g')
    (hf : f'.size = f.size) (hg : g'.size = g.size) : Twin T r f' g' :=
  ⟨h', fun i => hf ▸ h.mem i, fun i => by rw [hf, hg, h.next_eq i]⟩

/-- A replacement has the same outcome in both forests. -/
theorem Twin.replaceChild (hr : Function.Injective r) (h : Twin T r f g) (hp : f.Has T p)
    (c : NodeId) (hnodes : ∀ c ∈ nodes, f.Has T c) :
    (outcome (replaceChild (r p) (.node (r c)) ((nodes.map r).map .node)) g).1 =
        (outcome (replaceChild p (.node c) (nodes.map .node)) f).1 ∧
      Twin T r (outcome (replaceChild p (.node c) (nodes.map .node)) f).2
        (outcome (replaceChild (r p) (.node (r c)) ((nodes.map r).map .node)) g).2 ∧
      (outcome (replaceChild p (.node c) (nodes.map .node)) f).2.size = f.size := by
  by_cases hc : c ∈ f.children p
  case neg =>
    have hc' : r c ∉ g.children (r p) := by
      rwa [h.renamed.children_eq p hp, List.mem_map_of_injective hr]
    rw [outcome_replaceChild_stranger (v := .node c) fun k hk => Value.node.inj hk ▸ hc,
      outcome_replaceChild_stranger (v := .node (r c)) fun k hk => Value.node.inj hk ▸ hc']
    exact ⟨rfl, h, rfl⟩
  have hc' : r c ∈ g.children (r p) := by
    rwa [h.renamed.children_eq p hp, List.mem_map_of_injective hr]
  have hchecks := h.renamed.checkReplacement_eq hr hp hnodes []
  -- The checks come to the same, so both replacements are refused or neither is.
  cases hcheck : f.checkReplacement p [] (nodes.map .node) with
  | error e =>
      have hcheck' : g.checkReplacement (r p) [] ((nodes.map r).map .node) = .error e := by
        rw [hcheck] at hchecks
        exact hchecks
      rw [outcome_replaceChild_refused hc hcheck, outcome_replaceChild_refused hc' hcheck']
      exact ⟨rfl, h, rfl⟩
  | ok nodes' =>
      obtain ⟨before, after, hlist⟩ := List.append_of_mem hc
      have hlist' := h.renamed.children_split hp hlist
      obtain ⟨heq, hfit, -⟩ := (checkReplacement_eq_ok_iff h.renamed.source).1 hcheck
      obtain rfl : nodes = nodes' := (List.map_injective_iff.2 fun _ _ => Value.node.inj) heq
      rw [hcheck] at hchecks
      obtain ⟨-, hfit', -⟩ := (checkReplacement_eq_ok_iff h.renamed.image).1 hchecks
      have hlt : ∀ k ∈ nodes, k < f.size := fun k hk => (hnodes k hk).2
      have hdata := sameData_replaced f p c before after nodes
      have hdata' := sameData_replaced g (r p) (r c) (before.map r) (after.map r) (nodes.map r)
      rw [outcome_replaceChild h.renamed.source hlist hfit hlt,
        outcome_replaceChild h.renamed.image hlist' hfit' (h.renamed.lt_size_of_mem_map hnodes),
        without_map hr, List.length_map]
      exact ⟨rfl, h.of_size (h.renamed.replaced hr hp hnodes hlist hfit hfit') hdata.size_eq
        hdata'.size_eq, hdata.size_eq⟩

end Forest

namespace Revision

open Forest Asking

variable {σ ε φ α β : Type} {T : NodeId → Prop} {r : NodeId → NodeId} {ρ : σ → σ} {f g h : Forest}
  {c m n p root : NodeId} {nodes : List NodeId} {stack : List Frame}

/-! ### Other numbers in a pass -/

def Frame.rename (r : NodeId → NodeId) (frame : Frame) : Frame :=
  { frame with node := r frame.node }

def Progress.rename (r : NodeId → NodeId) (progress : Progress) : Progress :=
  ⟨progress.stack.map (Frame.rename r), progress.offered.map r, progress.final.map r⟩

def Finality.rename (r : NodeId → NodeId) : Finality → Finality
  | .noNode => .noNode
  | .allNodes => .allNodes
  | .these nodes => .these (nodes.map (Value.mapNodes r))

def Action.rename (r : NodeId → NodeId) : Action → Action
  | .keep => .keep
  | .replace v descend => .replace (v.mapNodes r) descend
  | .splice values final => .splice (values.map (Value.mapNodes r)) (final.rename r)
  | .delete => .delete

/-- All values that an action puts in the place of a node are nodes of a part. -/
def Action.In (T : NodeId → Prop) (f : Forest) (action : Action) : Prop :=
  ∃ nodes : List NodeId, action.values = nodes.map .node ∧ ∀ n ∈ nodes, f.Has T n

theorem map_mapNodes (r : NodeId → NodeId) (nodes : List NodeId) :
    (nodes.map Value.node).map (Value.mapNodes r) = (nodes.map r).map .node := by
  rw [List.map_map, List.map_map]
  rfl

theorem nodesAmong_rename (values : List Value) :
    nodesAmong (values.map (Value.mapNodes r)) = (nodesAmong values).map r := by
  rw [nodesAmong, nodesAmong, List.filterMap_map, List.map_filterMap]
  refine List.filterMap_congr fun v _ => ?_
  cases v <;> rfl

theorem Finality.nodes_rename (values : List Value) (final : Finality) :
    (final.rename r).nodes (values.map (Value.mapNodes r)) = (final.nodes values).map r := by
  cases final with
  | noNode => rfl
  | allNodes => exact nodesAmong_rename values
  | these nodes => exact nodesAmong_rename nodes

theorem setNext_rename (next : Nat) (stack : List Frame) :
    setNext next (stack.map (Frame.rename r)) = (setNext next stack).map (Frame.rename r) := by
  cases stack <;> rfl

theorem departures_rename (hr : Function.Injective r) (h : Renamed T r f g)
    (hnodes : ∀ n ∈ nodes, f.Has T n) :
    departures g (r c) ((nodes.map r).map .node) =
      (departures f c (nodes.map .node)).map (List.map (Prod.map r id)) := by
  induction nodes with
  | nil => rfl
  | cons n nodes ih =>
      have hn := hnodes n List.mem_cons_self
      have hrest := ih fun m hm => hnodes m (List.mem_cons_of_mem n hm)
      simp only [List.map_cons, departures, hr.eq_iff, hrest, h.parent?_eq n hn]
      by_cases hnc : n = c
      · rw [if_pos hnc, if_pos hnc]
      · rw [if_neg hnc, if_neg hnc]
        cases hp : f.parent? n with
        | none => rfl
        | some p =>
            simp only [Option.map_some, h.children_eq p (h.has_of_parent? hn hp), indexOf_map hr]
            rcases indexOf (f.children p) n with e | i
            · rfl
            · rcases departures f c (nodes.map .node) with e | others <;> rfl

theorem shiftOutward_rename (hr : Function.Injective r) (left : List (NodeId × Nat))
    (stack : List Frame) :
    shiftOutward (left.map (Prod.map r id)) (stack.map (Frame.rename r)) =
      (shiftOutward left stack).map (Frame.rename r) := by
  induction stack generalizing left with
  | nil => rfl
  | cons frame stack ih =>
      rw [List.map_cons, shiftOutward, shiftOutward, List.map_cons, List.countP_map,
        List.filter_map,
        ← ih]
      have hcount : ((fun x : NodeId × Nat => x.1 == (frame.rename r).node &&
          decide (x.2 < (frame.rename r).next)) ∘ Prod.map r id) =
          fun x => x.1 == frame.node && decide (x.2 < frame.next) := by
        funext x
        exact congrArg (· && decide (x.2 < frame.next)) (beq_renamed hr x.1 frame.node)
      have hfilter : ((fun x : NodeId × Nat => x.1 != (frame.rename r).node) ∘ Prod.map r id) =
          fun x => x.1 != frame.node := by
        funext x
        exact congrArg not (beq_renamed hr x.1 frame.node)
      rw [hcount, hfilter]
      rfl

theorem shift_rename (hr : Function.Injective r) (left : List (NodeId × Nat)) (stack : List Frame) :
    shift (left.map (Prod.map r id)) (stack.map (Frame.rename r)) =
      (shift left stack).map (Frame.rename r) := by
  rw [shift, shift, ← List.map_reverse, shiftOutward_rename hr, List.map_reverse]

theorem descendInto_rename (h : Renamed T r f g) (hn : f.Has T n) (stack : List Frame) :
    descendInto g (r n) (stack.map (Frame.rename r)) =
      (descendInto f n stack).map (Frame.rename r) := by
  rw [descendInto, descendInto, h.children_eq n hn, List.isEmpty_map]
  split <;> rfl

/-- A place is opened at corresponding nodes, if at all. -/
theorem descend_rename (h : Renamed T r f g) (hn : f.Has T n) (descend : Bool)
    (stack : List Frame) :
    (if descend then descendInto g (r n) (stack.map (Frame.rename r))
      else stack.map (Frame.rename r)) =
      (if descend then descendInto f n stack else stack).map (Frame.rename r) := by
  cases descend with
  | true => exact descendInto_rename h hn stack
  | false => rfl

theorem mem_map_renamed (hr : Function.Injective r) {list : List NodeId} :
    r n ∈ list.map r ↔ n ∈ list :=
  List.mem_map_of_injective hr

theorem filter_contains_renamed (hr : Function.Injective r) (list kept : List NodeId) :
    (list.map r).filter (kept.map r).contains = (list.filter kept.contains).map r := by
  rw [List.filter_map]
  congr 1
  refine List.filter_congr fun n _ => ?_
  rw [Function.comp_apply, Bool.eq_iff_iff, List.contains_iff_mem, List.contains_iff_mem,
    mem_map_renamed hr]

/-! ### Places -/

/-- The places of a stack are at nodes of a part. -/
def StackIn (T : NodeId → Prop) (f : Forest) (stack : List Frame) : Prop :=
  ∀ n ∈ stack.map (·.node), f.Has T n

theorem StackIn.mono (hstack : StackIn T f stack) (hle : f.size ≤ h.size) : StackIn T h stack :=
  fun n hn => (hstack n hn).mono hle

theorem StackIn.setNext (hstack : StackIn T f stack) (next : Nat) :
    StackIn T f (setNext next stack) := by
  rwa [StackIn, map_node_setNext]

theorem StackIn.descendInto (hstack : StackIn T f stack) (hn : f.Has T n) :
    StackIn T f (descendInto g n stack) := by
  rcases map_node_descendInto g n stack with heq | heq
  · rwa [StackIn, heq]
  · rw [StackIn, heq]
    exact List.forall_mem_cons.2 ⟨hn, hstack⟩

theorem StackIn.descend (hstack : StackIn T f stack) (hn : f.Has T n) (descend : Bool) :
    StackIn T f (if descend then Revision.descendInto g n stack else stack) := by
  cases descend with
  | true => exact hstack.descendInto hn
  | false => exact hstack

/-! ### Parts of passes in step -/

/-- What two parts of passes come to corresponds. The answers correspond by `image`, the states by
`ρ`; the first of the answers is good in the forest that it comes with. -/
structure Tallies (T : NodeId → Prop) (r : NodeId → NodeId) (ρ : σ → σ) (f : Forest)
    (image : α → α) (good : Forest → α → Prop) (first second : Except φ α × Forest × σ) : Prop where
  answer : second.1 = first.1.map image
  twin : Twin T r first.2.1 second.2.1
  state : second.2.2 = ρ first.2.2
  size_le : f.size ≤ first.2.1.size
  good : ∀ a, first.1 = .ok a → good first.2.1 a

namespace Tallies

variable {image : α → α} {good : Forest → α → Prop}

theorem pure (htwin : Twin T r f g) (s : σ) {a b : α} (hab : b = image a) (hgood : good f a) :
    Tallies T r ρ f image good (result (Pure.pure a : Asking σ φ α) f s)
      (result (Pure.pure b : Asking σ φ α) g (ρ s)) :=
  ⟨congrArg Except.ok hab, htwin, rfl, Nat.le_refl _, fun a' ha => by cases ha; exact hgood⟩

theorem throw (htwin : Twin T r f g) (s : σ) (e : φ) :
    Tallies T r ρ f image good (result (MonadExcept.throw e : Asking σ φ α) f s)
      (result (MonadExcept.throw e : Asking σ φ α) g (ρ s)) :=
  ⟨rfl, htwin, rfl, Nat.le_refl _, nofun⟩

theorem forest {next next' : Forest → Asking σ φ α} {s t : σ}
    (h : Tallies T r ρ f image good (result (next f) f s) (result (next' g) g t)) :
    Tallies T r ρ f image good (result (Asking.forest >>= next) f s)
      (result (Asking.forest >>= next') g t) := by
  rwa [result_bind, result_forest, result_bind, result_forest]

theorem bind {image' : β → β} {good' : Forest → β → Prop} {x x' : Asking σ φ α}
    {next next' : α → Asking σ φ β} {s t : σ}
    (hx : Tallies T r ρ f image good (result x f s) (result x' g t))
    (hnext : ∀ a h u h', f.size ≤ h.size → Twin T r h h' → good h a →
      Tallies T r ρ h image' good' (result (next a) h u) (result (next' (image a)) h' (ρ u))) :
    Tallies T r ρ f image' good' (result (x >>= next) f s) (result (x' >>= next') g t) := by
  rw [result_bind, result_bind]
  generalize result x f s = first at hx ⊢
  generalize result x' g t = second at hx ⊢
  obtain ⟨hanswer, htwin, hstate, hle, hgood⟩ := hx
  rcases first with ⟨e | a, h, u⟩ <;> rcases second with ⟨b, h', u'⟩
  · obtain rfl : b = .error e := hanswer
    exact ⟨rfl, htwin, hstate, hle, nofun⟩
  · obtain rfl : b = .ok (image a) := hanswer
    obtain rfl : u' = ρ u := hstate
    obtain ⟨hanswer', htwin', hstate', hle', hgood'⟩ := hnext a h u h' hle htwin (hgood a rfl)
    exact ⟨hanswer', htwin', hstate', Nat.le_trans hle hle', hgood'⟩

theorem attempt {x x' : Except TreeFault α} (hx : x' = x.map image) (htwin : Twin T r f g) (s : σ)
    (hgood : ∀ a, x = .ok a → good f a) :
    Tallies T r ρ f image good (result (Revision.attempt x : Pass σ ε α) f s)
      (result (Revision.attempt x' : Pass σ ε α) g (ρ s)) := by
  subst hx
  cases x with
  | error e => exact .throw htwin s _
  | ok a => exact .pure htwin s rfl (hgood a rfl)

end Tallies

def Answer.rename (r : NodeId → NodeId) : Answer → Answer
  | .action a => .action (a.rename r)
  | .value v => .value (v.mapNodes r)

theorem mapNodesList_eq_map (r : NodeId → NodeId) (items : List Value) :
    Value.mapNodesList r items = items.map (Value.mapNodes r) := by
  induction items with
  | nil => rfl
  | cons v items ih => rw [Value.mapNodesList, List.map_cons, ih]

theorem Answer.toAction_rename (hr : Function.Injective r) (n : NodeId) (answer : Answer) :
    (answer.rename r).toAction (r n) = (answer.toAction n).map (Action.rename r) := by
  cases answer with
  | action action => rfl
  | value v =>
      cases v with
      | node m =>
          change Except.ok (if r m = r n then Action.keep else .replace (.node (r m)) true) = _
          rw [toAction]
          by_cases hmn : m = n
          · rw [if_pos hmn, if_pos (congrArg r hmn)]
            rfl
          · rw [if_neg hmn, if_neg (hr.ne hmn)]
            rfl
      | list items =>
          change Except.ok (Action.splice (Value.mapNodesList r items) .noNode) = _
          rw [mapNodesList_eq_map]
          rfl
      | _ => rfl

/-- At corresponding nodes a visitor does the same, and it names no nodes but those of the part. -/
def InStep (T : NodeId → Prop) (r : NodeId → NodeId) (ρ : σ → σ) (visit : Visitor σ ε) : Prop :=
  ∀ f g n s, Twin T r f g → f.Has T n →
    Tallies T r ρ f (Answer.rename r)
      (fun h answer => ∀ action, answer.toAction n = .ok action → action.In T h)
      (visit n f s) (visit (r n) g (ρ s))

section
variable {visit : Visitor σ ε} {progress : Progress} {place : Frame} {action : Action} {s : σ}
  (hr : Function.Injective r) (htwin : Twin T r f g)

include hr htwin

theorem tallies_consult (hvisit : InStep T r ρ visit) (hn : f.Has T n) (offered : List NodeId) :
    Tallies T r ρ f (Prod.map (Action.rename r) (List.map r)) (fun h out => out.1.In T h)
      (result (consult visit n offered) f s)
      (result (consult visit (r n) (offered.map r)) g (ρ s)) := by
  rw [result_consult, result_consult]
  by_cases hoffered : n ∈ offered
  · rw [if_pos hoffered, if_pos ((mem_map_renamed hr).2 hoffered)]
    exact .pure htwin s rfl ⟨[], rfl, nofun⟩
  rw [if_neg hoffered, if_neg (mt (mem_map_renamed hr).1 hoffered)]
  have hboth := hvisit f g n s htwin hn
  generalize visit n f s = first at hboth ⊢
  generalize visit (r n) g (ρ s) = second at hboth ⊢
  obtain ⟨hanswer, htwin', hstate, hle, hgood⟩ := hboth
  rcases first with ⟨e | a, h, t⟩ <;> rcases second with ⟨b, h', t'⟩
  · obtain rfl : b = .error e := hanswer
    exact ⟨rfl, htwin', hstate, hle, nofun⟩
  · obtain rfl : b = .ok (a.rename r) := hanswer
    simp only [Answer.toAction_rename hr]
    cases haction : a.toAction n with
    | error e => exact ⟨rfl, htwin', hstate, hle, nofun⟩
    | ok action =>
        refine ⟨rfl, htwin', hstate, hle, fun out hout => ?_⟩
        cases hout
        exact hgood a rfl action haction

theorem tallies_replaceChild (hp : f.Has T p) (c : NodeId) (hnodes : ∀ n ∈ nodes, f.Has T n) :
    Tallies T r ρ f id (fun _ _ => True)
      (result (edit (Forest.replaceChild p (.node c) (nodes.map .node)) : Pass σ ε Nat) f s)
      (result (edit (Forest.replaceChild (r p) (.node (r c)) ((nodes.map r).map .node)))
        g (ρ s)) := by
  obtain ⟨hanswer, htwin', hsize⟩ := htwin.replaceChild hr hp c hnodes
  rw [result_edit, result_edit]
  generalize outcome (Forest.replaceChild p (.node c) (nodes.map .node)) f = first at *
  generalize outcome (Forest.replaceChild (r p) (.node (r c)) ((nodes.map r).map .node)) g =
    second at *
  rcases first with ⟨e | i, h⟩ <;> rcases second with ⟨b, h'⟩
  · obtain rfl : b = .error e := hanswer
    exact ⟨rfl, htwin', rfl, Nat.le_of_eq hsize.symm, nofun⟩
  · obtain rfl : b = .ok i := hanswer
    exact ⟨rfl, htwin', rfl, Nat.le_of_eq hsize.symm, fun _ _ => trivial⟩

theorem tallies_substitute (hp : f.Has T p) (c : NodeId) (hstack : StackIn T f stack)
    (hnodes : ∀ n ∈ nodes, f.Has T n) :
    Tallies T r ρ f (Prod.map (List.map (Frame.rename r)) id) (fun h out => StackIn T h out.1)
      (result (substitute p c (nodes.map .node) stack : Pass σ ε (List Frame × Nat)) f s)
      (result (substitute (r p) (r c) ((nodes.map r).map .node) (stack.map (Frame.rename r)))
        g (ρ s)) := by
  have hleft : Tallies T r ρ f (List.map (Prod.map r id)) (fun _ _ => True)
      (result (attempt (departures f c (nodes.map .node)) : Pass σ ε (List (NodeId × Nat))) f s)
      (result (attempt (departures g (r c) ((nodes.map r).map .node))) g (ρ s)) :=
    .attempt (departures_rename hr htwin.renamed hnodes) htwin s fun _ _ => trivial
  refine .forest (hleft.bind fun left h u h' hle htwin' _ => ?_)
  have hnodes' : ∀ n ∈ nodes, h.Has T n := fun n hn => (hnodes n hn).mono hle
  refine (tallies_replaceChild hr htwin' (hp.mono hle) c hnodes').bind
    fun i k v k' hle' htwin'' _ => .pure htwin'' v ?_ ?_
  · exact congrArg (·, i) (shift_rename hr left stack)
  · rw [StackIn, map_node_shift]
    exact (hstack.mono hle).mono hle'

theorem tallies_carryOut (hplace : f.Has T place.node) (hc : f.Has T c)
    (hstack : StackIn T f progress.stack) (haction : action.In T f) :
    Tallies T r ρ f (Progress.rename r) (fun h out => StackIn T h out.stack)
      (result (carryOut progress place c action : Pass σ ε Progress) f s)
      (result (carryOut (progress.rename r) (place.rename r) (r c) (action.rename r)) g (ρ s)) := by
  obtain ⟨nodes, hvalues, hnodes⟩ := haction
  cases action with
  | keep =>
      refine .pure htwin s ?_ ((hstack.setNext _).descendInto hc)
      simp only [Progress.rename, Frame.rename, setNext_rename, descendInto_rename htwin.renamed hc]
  | replace v descend =>
      obtain ⟨n, rfl⟩ : ∃ n, nodes = [n] := by
        rw [← List.length_eq_one_iff, ← List.length_map (f := Value.node), ← hvalues]
        rfl
      obtain rfl : v = .node n := List.singleton_inj.1 hvalues
      refine (tallies_substitute hr htwin hplace c hstack hnodes).bind
        fun out h u h' hle htwin' hout => ?_
      have hn := (hnodes n List.mem_cons_self).mono hle
      have hopened := descend_rename htwin'.renamed hn descend (setNext (out.2 + 1) out.1)
      rw [← setNext_rename] at hopened
      refine .forest (.pure htwin' u ?_ ((hout.setNext _).descend hn descend))
      exact congrArg (fun stack => (⟨stack, r n :: progress.offered.map r,
        progress.final.map r⟩ : Progress)) hopened
  | splice values final =>
      obtain rfl : values = nodes.map .node := hvalues
      have hsub : Tallies T r ρ f (Prod.map (List.map (Frame.rename r)) id)
          (fun h out => StackIn T h out.1)
          (result (substitute place.node c (nodes.map .node) progress.stack :
            Pass σ ε (List Frame × Nat)) f s) _ :=
        tallies_substitute hr htwin hplace c hstack hnodes
      rw [← map_mapNodes] at hsub
      refine hsub.bind fun out h u h' hle htwin' hout => .pure htwin' u ?_ (hout.setNext _)
      simp only [Progress.rename, setNext_rename, nodesAmong_rename, Finality.nodes_rename,
        filter_contains_renamed hr, List.map_append, id]
  | delete =>
      have hnone : ∀ n ∈ ([] : List NodeId), f.Has T n := nofun
      refine (tallies_replaceChild hr htwin hplace c hnone).bind
        fun i h u h' hle htwin' _ => .pure htwin' u ?_ ((hstack.mono hle).setNext i)
      simp only [Progress.rename, setNext_rename, id]

theorem tallies_handleChild (hvisit : InStep T r ρ visit) (hplace : f.Has T place.node)
    (hc : f.Has T c) (hstack : StackIn T f progress.stack) :
    Tallies T r ρ f (Progress.rename r) (fun h out => StackIn T h out.stack)
      (result (handleChild visit progress place c) f s)
      (result (handleChild visit (progress.rename r) (place.rename r) (r c)) g (ρ s)) := by
  have hfinal : (progress.rename r).final.contains (r c) = progress.final.contains c := by
    rw [Bool.eq_iff_iff, List.contains_iff_mem, List.contains_iff_mem]
    exact mem_map_renamed hr
  unfold handleChild
  rw [hfinal]
  split
  · refine .pure htwin s ?_ (hstack.setNext _)
    simp only [Progress.rename, Frame.rename, setNext_rename]
  · refine (tallies_consult hr htwin hvisit hc progress.offered).bind
      fun out h u h' hle htwin' hout => ?_
    have hlater : StackIn T h ({ progress with offered := out.2 } : Progress).stack :=
      hstack.mono hle
    exact tallies_carryOut hr htwin' (hplace.mono hle) (hc.mono hle) hlater hout

/-- Both passes take the same step. -/
theorem tallies_step (hvisit : InStep T r ρ visit) (hstack : StackIn T f progress.stack) :
    Tallies T r ρ f (Progress.rename r) (fun h out => StackIn T h out.stack)
      (result (step visit progress) f s) (result (step visit (progress.rename r)) g (ρ s)) := by
  rcases hplaces : progress.stack with _ | ⟨place, rest⟩
  · have hplaces' : (progress.rename r).stack = [] := by rw [Progress.rename, hplaces]; rfl
    unfold step
    rw [hplaces, hplaces']
    exact .pure htwin s rfl hstack
  · have hplaces' : (progress.rename r).stack = place.rename r :: rest.map (Frame.rename r) := by
      rw [Progress.rename, hplaces]
      rfl
    have hin := hstack
    rw [StackIn, hplaces, List.map_cons, List.forall_mem_cons] at hin
    have hchildren : g.children (place.rename r).node = (f.children place.node).map r :=
      htwin.renamed.children_eq place.node hin.1
    rw [result_step visit s hplaces, result_step visit (ρ s) hplaces', hchildren, List.getElem?_map]
    cases hc : (f.children place.node)[(place.rename r).next]? with
    | none =>
        have hc' : (f.children place.node)[place.next]? = none := hc
        rw [hc']
        exact .pure htwin s rfl hin.2
    | some c =>
        have hc' : (f.children place.node)[place.next]? = some c := hc
        rw [hc']
        exact tallies_handleChild hr htwin hvisit hin.1
          (htwin.renamed.has_of_mem hin.1 (List.mem_of_getElem? hc)) hstack

theorem tallies_finish (hvisit : InStep T r ρ visit) (steps : Nat)
    (hstack : StackIn T f progress.stack) :
    Tallies T r ρ f id (fun _ _ => True) (result (finish visit steps progress) f s)
      (result (finish visit steps (progress.rename r)) g (ρ s)) := by
  have hempty (progress : Progress) :
      (progress.rename r).stack.isEmpty = progress.stack.isEmpty := List.isEmpty_map
  induction steps generalizing f g progress s with
  | zero =>
      unfold finish
      rw [hempty]
      split
      · exact .pure htwin s rfl trivial
      · exact .throw htwin s _
  | succ steps ih =>
      unfold finish
      rw [hempty]
      split
      · exact .pure htwin s rfl trivial
      · exact (tallies_step hr htwin hvisit hstack).bind fun out h u h' _ htwin' hout =>
          ih htwin' hout

theorem tallies_takePlace (root n : NodeId) (offered : List NodeId) :
    Tallies T r ρ f (List.map r) (fun _ _ => True)
      (result (takePlace root n offered : Pass σ ε (List NodeId)) f s)
      (result (takePlace (r root) (r n) (offered.map r)) g (ρ s)) := by
  rw [result_takePlace s htwin.renamed.source, result_takePlace (ρ s) htwin.renamed.image]
  by_cases heq : n = root
  · rw [if_pos heq, if_pos (congrArg r heq)]
    exact .pure htwin s rfl trivial
  · rw [if_neg heq, if_neg (hr.ne heq)]
    have hsize := (sameData_detach f n).size_eq
    refine ⟨rfl, ?_, rfl, Nat.le_of_eq hsize.symm, fun _ _ => trivial⟩
    exact htwin.of_size (htwin.renamed.detach hr n) hsize (sameData_detach g (r n)).size_eq

omit hr htwin in
theorem has_of_rootAction {v : Value} {descend : Bool} (hroot : f.Has T root)
    (haction : action.In T f) (h : rootAction f root action = .ok (v, descend)) :
    ∃ n, v = .node n ∧ f.Has T n := by
  obtain ⟨nodes, hvalues, hnodes⟩ := haction
  have hsingle (hv : [v] = nodes.map .node) : ∃ n, v = .node n ∧ f.Has T n := by
    have hmem : v ∈ nodes.map Value.node := hv ▸ List.mem_singleton_self v
    obtain ⟨n, hn, rfl⟩ := List.mem_map.1 hmem
    exact ⟨n, rfl, hnodes n hn⟩
  cases action with
  | keep =>
      cases h
      exact ⟨root, rfl, hroot⟩
  | replace w _ =>
      cases h
      exact hsingle hvalues
  | delete => cases h
  | splice values final =>
      rcases values with _ | ⟨w, _ | ⟨w', values⟩⟩
      · cases h
      · cases h
        exact hsingle hvalues
      · cases h

/-- The node that takes the place of the root has the number that corresponds. -/
theorem rootAction_rename (hroot : f.Has T root) (action : Action) :
    rootAction g (r root) (action.rename r) =
      (rootAction f root action).map (Prod.map (Value.mapNodes r) id) := by
  have hfault : (Except.error (.rootReplacement (g.kind (r root))) :
    Except TreeFault (Value × Bool)) =
      .error (.rootReplacement (f.kind root)) := by
    rw [htwin.renamed.kind_eq hroot]
  cases action with
  | keep => rfl
  | replace v descend => rfl
  | delete => exact hfault
  | splice values final =>
      rcases values with _ | ⟨v, _ | ⟨w, values⟩⟩
      · exact hfault
      · have hnodes := nodesAmong_rename (r := r) [v]
        have hfinal := Finality.nodes_rename (r := r) [v] final
        rw [List.map_singleton] at hnodes hfinal
        simp only [Action.rename, List.map_singleton, rootAction, hnodes, hfinal, List.any_map,
          Except.map, Prod.map, id]
        congr 4
        funext m
        rw [Function.comp_apply, Bool.eq_iff_iff, List.contains_iff_mem, List.contains_iff_mem,
          mem_map_renamed hr]
      · exact hfault

theorem tallies_reviseAt (hvisit : InStep T r ρ visit) (steps : Nat) (root : NodeId)
    (hn : f.Has T n) (descend : Bool) (offered : List NodeId) :
    Tallies T r ρ f r (fun h n => h.Has T n)
      (result (reviseAt visit steps root n descend offered) f s)
      (result (reviseAt visit steps (r root) (r n) descend (offered.map r)) g (ρ s)) := by
  refine (tallies_takePlace hr htwin root n offered).bind fun out h u h' hle htwin' _ => ?_
  cases descend with
  | false => exact .pure htwin' u rfl (hn.mono hle)
  | true =>
      have hstack : StackIn T h (⟨[⟨n, 0⟩], out, []⟩ : Progress).stack :=
        fun m hm => List.mem_singleton.1 hm ▸ hn.mono hle
      exact (tallies_finish hr htwin' hvisit steps hstack).bind
        fun _ _ v _ hle' htwin'' _ => .pure htwin'' v rfl ((hn.mono hle).mono hle')

/-- Passes whose visitor goes in step at corresponding nodes go in step. -/
theorem tallies_revise (hvisit : InStep T r ρ visit) (steps : Nat) (hroot : f.Has T root) :
    Tallies T r ρ f r (fun h n => h.Has T n) (result (revise visit steps root) f s)
      (result (revise visit steps (r root)) g (ρ s)) := by
  refine (tallies_consult hr htwin hvisit hroot []).bind fun out h u h' hle htwin' hout =>
    .forest ?_
  have hroot' := hroot.mono hle
  have hattempt : Tallies T r ρ h (Prod.map (Value.mapNodes r) id)
      (fun h chosen => ∃ n, chosen.1 = .node n ∧ h.Has T n)
      (result (attempt (rootAction h root out.1) : Pass σ ε (Value × Bool)) h u)
      (result (attempt (rootAction h' (r root) (out.1.rename r))) h' (ρ u)) :=
    .attempt (rootAction_rename hr htwin' hroot' out.1) htwin' u
      fun _ hchosen => has_of_rootAction hroot' hout hchosen
  refine hattempt.bind fun chosen k v k' _ htwin'' hchosen => ?_
  obtain ⟨_, descend⟩ := chosen
  obtain ⟨n, rfl, hn⟩ := hchosen
  exact tallies_reviseAt hr htwin'' hvisit steps root hn descend out.2

end

end Revision

end MarkdownTree
