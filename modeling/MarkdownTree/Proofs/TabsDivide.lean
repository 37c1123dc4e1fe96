import Mathlib.Data.List.Pairwise
import MarkdownTree.Proofs.TabsSteps

/-!
The step at which a run of divided admonitions gives way to its tabs. The content leaves the members
of the run, which stay behind as children to be dropped; nothing else is taken from anywhere, so the
places of the pass do not move.
-/

namespace MarkdownTree.Tabs

open Forest Revision Asking

variable {f g : Forest} {category : Value} {grouped : Bool} {a b : Config Interleaved.State}
  {c d k m n p q : NodeId} {tasks : List Task} {place : Frame} {rest stack : List Frame}
  {members before others nodes made : List NodeId} {labels : List String}
  {panels : List (List NodeId)} {left : List (NodeId × Nat)}

theorem kind_of_divided (h : divided f category n = true) : f.kind n = .admonition :=
  kind_of_isTabs (Bool.and_eq_true_iff.1 h).1

/-! ### Places that do not move -/

theorem shiftOutward_of_absent (h : ∀ departure ∈ left, ∀ frame ∈ stack, departure.1 ≠ frame.node) :
    shiftOutward left stack = stack := by
  induction stack generalizing left with
  | nil => rfl
  | cons frame stack ih =>
      have hhere := movedBack_of_absent fun departure hd => h departure hd frame List.mem_cons_self
      unfold Frame.movedBack at hhere
      rw [shiftOutward, hhere, ih fun departure hd frame' hframe =>
        h departure (List.mem_filter.1 hd).1 frame' (List.mem_cons_of_mem frame hframe)]

/-- Departures from elsewhere move no place. -/
theorem shift_of_absent (h : ∀ departure ∈ left, ∀ frame ∈ stack, departure.1 ≠ frame.node) :
    shift left stack = stack := by
  rw [shift, shiftOutward_of_absent, List.reverse_reverse]
  exact fun departure hd frame hframe => h departure hd frame (List.mem_reverse.1 hframe)

/-- What departs leaves the parent of one of the nodes. -/
theorem parent?_of_departures (h : departures f c (nodes.map .node) = .ok left) :
    ∀ departure ∈ left, ∃ k ∈ nodes, f.parent? k = some departure.1 := by
  induction nodes generalizing left with
  | nil =>
      cases h
      simp
  | cons n nodes ih =>
      intro departure hd
      rw [List.map_cons, departures] at h
      have hlater {left' : List (NodeId × Nat)} (h : departures f c (nodes.map .node) = .ok left')
          (hd : departure ∈ left') : ∃ k ∈ n :: nodes, f.parent? k = some departure.1 := by
        obtain ⟨k, hk, hparent⟩ := ih h departure hd
        exact ⟨k, List.mem_cons_of_mem n hk, hparent⟩
      split at h
      · exact hlater h hd
      · cases hp : f.parent? n with
        | none =>
            rw [hp] at h
            exact hlater h hd
        | some p =>
            simp only [hp] at h
            obtain ⟨i, -, h⟩ := bind_eq_ok_iff.1 h
            obtain ⟨others, hrest, h⟩ := bind_eq_ok_iff.1 h
            cases h
            rcases List.mem_cons.1 hd with rfl | hd
            · exact ⟨n, List.mem_cons_self, hp⟩
            · exact hlater hrest hd

/-! ### Trees apart -/

/-- No node is at or below both of two nodes. -/
def Apart (f : Forest) (c d : NodeId) : Prop :=
  ∀ m, f.AtOrAbove c m → ¬ f.AtOrAbove d m

instance : Std.Symm (Apart f) where
  symm _ _ h m hd hc := h m hc hd

theorem Apart.ne (h : Apart f c d) : c ≠ d := by
  rintro rfl
  exact h c (.refl f c) (.refl f c)

theorem mem_content : c ∈ contentOf f n ↔ c ∈ f.children n ∧ isHeading f c = false := by
  simp [contentOf, List.mem_filter]

/-- The panels of divided admonitions hold their content. -/
theorem flatten_of_gather (hdivided : ∀ k ∈ members, divided f category k = true)
    (hgather : Interleaved.gather f members = .ok (labels, panels)) :
    panels.flatten = members.flatMap (contentOf f) := by
  have hheading : ∀ k ∈ members, hasHeading f k = true := fun k hk =>
    (Bool.and_eq_true_iff.1 (hdivided k hk)).2
  exact (Interleaved.gather_eq hheading hgather).1

section
variable (hf : f.WellFormed) (hapart : members.Pairwise (Apart f))

include hf hapart

/-- No child of a member is over a member. -/
theorem not_over_member (hk : k ∈ members) (hc : c ∈ f.children k) (hm : m ∈ members) :
    ¬ f.AtOrAbove c m := by
  intro hcm
  by_cases hkm : k = m
  · rw [hkm] at hc
    exact hf.not_atOrAbove_of_mem hc (.refl f m) hcm
  · exact hapart.forall hk hm hkm m ((hf.ancestor_of_mem hc).trans_atOrAbove hcm).atOrAbove
      (.refl f m)

/-- The content of the members lies apart. -/
theorem pairwise_content : (members.flatMap (contentOf f)).Pairwise (Apart f) := by
  refine List.pairwise_flatMap.2 ⟨fun k _ => ?_, ?_⟩
  · refine ((hf.nodup_children k).filter _).imp_of_mem fun hc hd hne m hcm hdm => hne ?_
    exact hf.eq_of_siblings (mem_content.1 hc).1 (mem_content.1 hd).1 hcm hdm
  · refine hapart.imp fun {k k'} hkk c hc d hd m hcm hdm => hkk m ?_ ?_
    · exact (hf.ancestor_of_mem (mem_content.1 hc).1).atOrAbove.trans hcm
    · exact (hf.ancestor_of_mem (mem_content.1 hd).1).atOrAbove.trans hdm

end

/-- Tasks for parts touch what the content of the parts is over. -/
theorem touched_parts_iff {parts : List Part} : Touched f (parts.map Part.task) m ↔
    ∃ c ∈ parts.filterMap Part.content?, f.AtOrAbove c m := by
  constructor
  · rintro ⟨t, ht, hm⟩
    obtain ⟨part, hpart, rfl⟩ := List.mem_map.1 ht
    cases part with
    | marker marker => exact absurd hm id
    | content c => exact ⟨c, List.mem_filterMap.2 ⟨.content c, hpart, rfl⟩, hm⟩
  · rintro ⟨c, hc, hm⟩
    obtain ⟨part, hpart, hcontent⟩ := List.mem_filterMap.1 hc
    cases part with
    | marker marker => cases hcontent
    | content c' =>
        cases hcontent
        exact ⟨.visit c, List.mem_map.2 ⟨.content c, hpart, rfl⟩, hm⟩

theorem pairwise_parts {parts : List Part}
    (h : (parts.filterMap Part.content?).Pairwise (Apart f)) :
    (parts.map Part.task).Pairwise (Task.Apart f) := by
  induction parts with
  | nil => exact .nil
  | cons part parts ih =>
      cases part with
      | marker marker => exact .cons (fun t _ m hm => absurd hm id) (ih h)
      | content c =>
          change (c :: parts.filterMap Part.content?).Pairwise (Apart f) at h
          obtain ⟨hfirst, hothers⟩ := List.pairwise_cons.1 h
          refine .cons (fun t ht m hcm hm => ?_) (ih hothers)
          obtain ⟨d, hd, hdm⟩ := touched_parts_iff.1 ⟨t, ht, hm⟩
          exact hfirst d hd m hcm hdm

/-! ### A run at the place -/

theorem forall₂_visits {after : List NodeId}
    (h : List.Forall₂ (Task.ReadyAt f a) (members.map .visit ++ tasks) after) :
    ∃ others, after = members ++ others ∧ (∀ k ∈ members, Task.ReadyAt f a (.visit k) k) ∧
      List.Forall₂ (Task.ReadyAt f a) tasks others := by
  induction members generalizing after with
  | nil => exact ⟨after, rfl, by simp, h⟩
  | cons k members ih =>
      cases h with
      | @cons _ k' _ after hk hafter =>
          obtain ⟨others, rfl, hmembers, hothers⟩ := ih hafter
          obtain rfl : k' = k := hk.1
          refine ⟨others, rfl, fun m hm => ?_, hothers⟩
          rcases List.mem_cons.1 hm with rfl | hm
          · exact hk
          · exact hmembers m hm

/-- A run of divided admonitions stands at a place, with trees as they were. -/
structure RunHere (f : Forest) (category : Value) (a : Config Interleaved.State) (place : Frame)
    (before : List NodeId) (n : NodeId) (members others : List NodeId) : Prop where
  list_eq : a.forest.children place.node = before ++ n :: (members ++ others)
  length_eq : before.length = place.next
  ready : ∀ k ∈ n :: members, Task.ReadyAt f a (.visit k) k
  divided : ∀ k ∈ n :: members, Tabs.divided f category k = true
  apart : (n :: members).Pairwise (Apart f)

namespace RunHere

theorem of_ready (h : Ready f (.visit n :: (members.map .visit ++ tasks)) a place rest)
    (hrun : Run f category grouped n members tasks) :
    ∃ before others, RunHere f category a place before n members others ∧
      List.Forall₂ (Task.ReadyAt f a) tasks others := by
  obtain ⟨before, k, after, hlist, hlength, hk, hafter⟩ := h.head
  obtain ⟨others, rfl, hmembers, hothers⟩ := forall₂_visits hafter
  obtain rfl : k = n := hk.1
  have happart : ((k :: members).map Task.visit ++ tasks).Pairwise (Task.Apart f) := h.apart
  refine ⟨before, others, ⟨hlist, hlength, ?_, ?_, ?_⟩, hothers⟩
  · intro m hm
    rcases List.mem_cons.1 hm with rfl | hm
    · exact hk
    · exact hmembers m hm
  · intro m hm
    rcases List.mem_cons.1 hm with rfl | hm
    · exact hrun.first
    · exact hrun.divided m hm
  · have hvisits : ((k :: members).map Task.visit).Pairwise (Task.Apart f) :=
      (List.pairwise_append.1 happart).1
    rw [List.pairwise_map] at hvisits
    exact hvisits

variable (hhere : RunHere f category a place before n members others)

include hhere

theorem mem_place (hk : k ∈ n :: members) : k ∈ a.forest.children place.node := by
  rw [hhere.list_eq]
  refine List.mem_append_right before ?_
  rcases List.mem_cons.1 hk with rfl | hk
  · exact List.mem_cons_self
  · exact List.mem_cons_of_mem n (List.mem_append_left others hk)

theorem children_eq (hk : k ∈ n :: members) : a.forest.children k = f.children k :=
  (hhere.ready k hk).2.1.children_eq

theorem kind_eq (hk : k ∈ n :: members) : a.forest.kind k = .admonition := by
  rw [(hhere.ready k hk).2.1.kind_eq, kind_of_divided (hhere.divided k hk)]

theorem laterSiblings_eq (ha : a.forest.WellFormed) :
    a.forest.laterSiblings n = .ok (members ++ others) := by
  have hparent := ha.parent?_of_mem (hhere.mem_place List.mem_cons_self)
  have hn : n ∉ before := (ha.not_mem_of_split hhere.list_eq).1
  rw [laterSiblings, hparent]
  simp only [hhere.list_eq, indexOf_append hn, bind, Except.bind]
  simp [List.drop_append]

/-- The visitor merges exactly the members of the run. -/
theorem run_eq (hf : f.WellFormed) (ha : a.forest.WellFormed)
    (hrun : Run f category grouped n members tasks)
    (hothers : List.Forall₂ (Task.ReadyAt f a) tasks others) :
    Interleaved.run a.forest category grouped n =
      (Interleaved.gather a.forest members).map fun _ => n :: members := by
  refine Interleaved.run_eq (fun k hk => ?_) hrun.alone (fun hgrouped k hk => ?_)
    (hhere.laterSiblings_eq ha)
  · have hmem := List.mem_cons_of_mem n hk
    rw [divided_eq hf (hhere.ready k hmem).2.1, hhere.divided k hmem]
  · have hends := hrun.ends hgrouped
    cases hothers with
    | nil => cases hk
    | @cons t k' tasks others hready _ =>
        obtain rfl : k' = k := by simpa using hk
        cases t with
        | skip m =>
            have hkind : a.forest.kind k' = .htmlBlock := by
              rw [Forest.kind, hready.2.2.2.1]
              rfl
            simp [Tabs.divided, isTabs, hkind, Kind.isA, Kind.family?]
        | drop k => exact absurd hends id
        | visit k =>
            obtain rfl : k' = k := hready.1
            rw [divided_eq hf hready.2.1]
            exact hends

theorem gather_eq (hf : f.WellFormed) (ha : a.forest.WellFormed) :
    Interleaved.gather a.forest (n :: members) = Interleaved.gather f (n :: members) :=
  gather_congr hf ha fun k hk => (hhere.ready k hk).2.1

end RunHere

/-! ### The nodes that come in -/

/-- Nodes stand for the tabs of a run: its content, and new markup. -/
structure Division (f : Forest) (category : Value) (a : Config Interleaved.State) (place : Frame)
    (before : List NodeId) (n : NodeId) (members others : List NodeId) (labels : List String)
    (panels : List (List NodeId)) (g : Forest) (nodes made : List NodeId) : Prop where
  here : RunHere f category a place before n members others
  old : f.WellFormed
  wellFormed : a.forest.WellFormed
  flatten_eq : panels.flatten = (n :: members).flatMap (contentOf f)
  realized : Realized a.forest g (layout labels panels) nodes made

namespace Division

variable (h : Division f category a place before n members others labels panels g nodes made)

include h

/-- What comes in is content of a member, or markup. -/
theorem content_or_marker (hk : k ∈ nodes) : (∃ q ∈ n :: members, k ∈ contentOf f q) ∨
    ∃ m, StandsFor a.forest g made (.marker m) k := by
  obtain ⟨part, hpart, hstands⟩ := exists_of_forall₂ h.realized.standsFor.flip hk
  cases part with
  | content c =>
      obtain rfl : k = c := hstands
      have hcontent : k ∈ (layout labels panels).filterMap Part.content? :=
        List.mem_filterMap.2 ⟨.content k, hpart, rfl⟩
      rw [filterMap_layout, h.flatten_eq] at hcontent
      exact Or.inl (List.mem_flatMap.1 hcontent)
  | marker m => exact Or.inr ⟨m, hstands⟩

theorem mem_children (hk : k ∈ n :: members) (hc : c ∈ contentOf f k) :
    c ∈ a.forest.children k := by
  rw [h.here.children_eq hk]
  exact (mem_content.1 hc).1

theorem nodup : nodes.Nodup := by
  refine h.realized.nodup (fun c hc => ?_) ?_
  · have hcontent : c ∈ (layout labels panels).filterMap Part.content? :=
      List.mem_filterMap.2 ⟨.content c, hc, rfl⟩
    rw [filterMap_layout, h.flatten_eq] at hcontent
    obtain ⟨k, hk, hck⟩ := List.mem_flatMap.1 hcontent
    exact h.wellFormed.lt_size_of_mem (h.mem_children hk hck)
  · rw [filterMap_layout, h.flatten_eq]
    exact (pairwise_content h.old h.here.apart).imp Apart.ne

theorem lt_size (hk : k ∈ nodes) : k < g.size := by
  rcases h.content_or_marker hk with ⟨q, hq, hkq⟩ | ⟨m, -, -, hlt, -⟩
  · exact Nat.lt_of_lt_of_le (h.wellFormed.lt_size_of_mem (h.mem_children hq hkq))
      h.realized.extension.size_le
  · exact hlt

/-- Nothing leaves but children of members. -/
theorem absent (hq : q ∉ n :: members) (hk : k ∈ a.forest.children q) : k ∉ nodes := by
  intro hmem
  rcases h.content_or_marker hmem with ⟨p, hp, hkp⟩ | ⟨m, -, hnew, -⟩
  · exact hq (h.wellFormed.parent_unique (h.mem_children hp hkp) hk ▸ hp)
  · exact absurd (h.wellFormed.lt_size_of_mem hk) (Nat.not_lt.2 hnew)

theorem place_not_mem : place.node ∉ n :: members := fun hmem =>
  h.wellFormed.not_atOrAbove_of_mem (h.here.mem_place hmem) (.refl _ _) (.refl _ _)

theorem allFit : g.AllFit place.node nodes := by
  have hn := h.here.mem_place List.mem_cons_self
  have hplace := lt_size_of_mem_children hn
  have hadmonition : (a.forest.kind place.node).canContain .admonition = true := by
    rw [← h.here.kind_eq List.mem_cons_self]
    exact h.wellFormed.canContain_of_mem _ _ hn
  have hkind : g.kind place.node = a.forest.kind place.node := by
    rw [Forest.kind, Forest.kind, h.realized.extension.element_eq _ hplace]
  refine ⟨h.nodup, fun k hk => ?_⟩
  rcases h.content_or_marker hk with ⟨q, hq, hkq⟩ | ⟨m, -, hnew, -, helement, -⟩
  · have hmem := h.mem_children hq hkq
    refine ⟨?_, fun hover => ?_⟩
    · rw [hkind, Forest.kind, Forest.kind,
        h.realized.extension.element_eq _ (h.wellFormed.lt_size_of_mem hmem)]
      refine canContain_of_admonition hadmonition ?_
      rw [← h.here.kind_eq hq]
      exact h.wellFormed.canContain_of_mem q k hmem
    · have hplaceq := (h.wellFormed.ancestor_of_mem (h.here.mem_place hq)).atOrAbove
      exact h.wellFormed.not_atOrAbove_of_mem hmem hplaceq
        (hover.imp id h.realized.extension.ancestor)
  · refine ⟨?_, fun hover => ?_⟩
    · have hmarkup : g.kind k = .htmlBlock := by
        rw [Forest.kind, helement]
        rfl
      rw [hkind, hmarkup]
      exact canContain_of_admonition hadmonition rfl
    · have hover' : a.forest.AtOrAbove k place.node := hover.imp id h.realized.extension.ancestor
      exact absurd (h.wellFormed.atOrAbove_lt_size hover' hplace) (Nat.not_lt.2 hnew)

theorem list_eq : g.children place.node = before ++ n :: (members ++ others) := by
  rw [h.realized.extension.children_eq, h.here.list_eq]

theorem without_eq {list : List NodeId} (hq : q ∉ n :: members)
    (hlist : list ⊆ a.forest.children q) : without list nodes = list := by
  refine List.filter_eq_self.2 fun k hk => ?_
  simpa using h.absent hq (hlist hk)

/-- The children of the place lose nothing, and those of the members the content. -/
theorem children_replaced (q : NodeId) :
    (g.replaced place.node n before (members ++ others) nodes).children q =
      if q = place.node then before ++ nodes ++ (members ++ others)
      else without (a.forest.children q) nodes := by
  rw [Forest.children_replaced h.realized.extension.wellFormed h.list_eq,
    h.realized.extension.children_eq, h.without_eq h.place_not_mem, h.without_eq h.place_not_mem]
  · rw [h.here.list_eq]
    exact fun k hk => List.mem_append_right _ (List.mem_cons_of_mem n hk)
  · rw [h.here.list_eq]
    exact List.subset_append_left _ _

/-- No place moves, unless it is at a member of the run. -/
theorem shift_eq (hleft : departures g n (nodes.map .node) = .ok left)
    (hstack : ∀ frame ∈ stack, frame.node ∉ n :: members) : shift left stack = stack := by
  refine shift_of_absent fun departure hd frame hframe heq => hstack frame hframe ?_
  obtain ⟨k, hk, hparent⟩ := parent?_of_departures hleft departure hd
  rw [h.realized.extension.parent?_eq, heq] at hparent
  have hmem := h.wellFormed.mem_of_parent? hparent
  by_contra hno
  exact h.absent hno hmem hk

end Division

/-! ### After the step -/

/-- What the tasks after the step touch: what is below the content, the other members, and what the
tasks behind the run touch. -/
theorem touched_after (hflat : panels.flatten = (n :: members).flatMap (contentOf f))
    (hm : Touched f ((layout labels panels).map Part.task ++ (members.map .drop ++ tasks)) m) :
    (∃ q ∈ n :: members, ∃ c ∈ contentOf f q, f.AtOrAbove c m) ∨ m ∈ members ∨
      Touched f tasks m := by
  obtain ⟨t, ht, hmt⟩ := hm
  rcases List.mem_append.1 ht with ht | ht
  · obtain ⟨c, hc, hcm⟩ := touched_parts_iff.1 ⟨t, ht, hmt⟩
    rw [filterMap_layout, hflat] at hc
    obtain ⟨q, hq, hcq⟩ := List.mem_flatMap.1 hc
    exact Or.inl ⟨q, hq, c, hcq, hcm⟩
  · rcases List.mem_append.1 ht with ht | ht
    · obtain ⟨k, hk, rfl⟩ := List.mem_map.1 ht
      obtain rfl : m = k := hmt
      exact Or.inr (Or.inl hk)
    · exact Or.inr (Or.inr ⟨t, ht, hmt⟩)

/-- The members of a run are to be visited. -/
theorem visit_mem_run (hq : q ∈ n :: members) :
    Task.visit q ∈ Task.visit n :: (members.map .visit ++ tasks) := by
  rcases List.mem_cons.1 hq with rfl | hq
  · exact List.mem_cons_self
  · exact List.mem_cons_of_mem _ (List.mem_append_left _ (List.mem_map_of_mem hq))

/-- The tasks before the step touch all that is below the members, and what the tasks behind the run
touch. -/
theorem touched_run (hm : (∃ q ∈ n :: members, f.AtOrAbove q m) ∨ Touched f tasks m) :
    Touched f (.visit n :: (members.map .visit ++ tasks)) m := by
  rcases hm with ⟨q, hq, hm⟩ | hm
  · exact ⟨.visit q, visit_mem_run hq, hm⟩
  · exact hm.mono fun t ht => List.mem_cons_of_mem _ (List.mem_append_right _ ht)

/-- The tasks before the step move the members and their content. -/
theorem movedBy_run (hf : f.WellFormed)
    (hdivided : ∀ k ∈ n :: members, divided f category k = true)
    (hm : m = n ∨ ∃ q ∈ n :: members, m ∈ contentOf f q) :
    MovedBy f category (.visit n :: (members.map .visit ++ tasks)) m := by
  rcases hm with rfl | ⟨q, hq, hm⟩
  · exact .head ⟨.refl f m, Or.inl (hdivided m List.mem_cons_self)⟩
  · have hchild := (mem_content.1 hm).1
    exact ⟨.visit q, visit_mem_run hq, (hf.ancestor_of_mem hchild).atOrAbove,
      Or.inr ⟨q, hf.parent?_of_mem hchild, hdivided q hq⟩⟩

/-- The tasks before the step move what the steps after it move: the members are divided, and what
is moved below the content is below a member. -/
theorem movedBy_run_of_after (hf : f.WellFormed)
    (hdivided : ∀ k ∈ members, divided f category k = true)
    (hflat : panels.flatten = (n :: members).flatMap (contentOf f))
    (hm : MovedBy f category
      ((layout labels panels).map Part.task ++ (members.map .drop ++ tasks)) m) :
    MovedBy f category (.visit n :: (members.map .visit ++ tasks)) m := by
  obtain ⟨t, ht, hmt⟩ := hm
  rcases List.mem_append.1 ht with ht | ht
  · obtain ⟨part, hpart, rfl⟩ := List.mem_map.1 ht
    cases part with
    | marker marker => exact absurd hmt id
    | content c =>
        have hc : c ∈ (layout labels panels).filterMap Part.content? :=
          List.mem_filterMap.2 ⟨.content c, hpart, rfl⟩
        rw [filterMap_layout, hflat] at hc
        obtain ⟨q, hq, hcq⟩ := List.mem_flatMap.1 hc
        refine ⟨.visit q, visit_mem_run hq, ?_, hmt.2⟩
        exact (hf.ancestor_of_mem (mem_content.1 hcq).1).atOrAbove.trans hmt.1
  · rcases List.mem_append.1 ht with ht | ht
    · obtain ⟨k, hk, rfl⟩ := List.mem_map.1 ht
      obtain rfl : m = k := hmt
      exact ⟨.visit m, visit_mem_run (List.mem_cons_of_mem n hk), .refl f m,
        Or.inl (hdivided m hk)⟩
    · exact ⟨t, List.mem_cons_of_mem _ (List.mem_append_right _ ht), hmt⟩

theorem touched_run_of_after (hf : f.WellFormed)
    (hflat : panels.flatten = (n :: members).flatMap (contentOf f))
    (hm : Touched f ((layout labels panels).map Part.task ++ (members.map .drop ++ tasks)) m) :
    Touched f (.visit n :: (members.map .visit ++ tasks)) m := by
  rcases touched_after hflat hm with ⟨q, hq, c, hc, hcm⟩ | hm | hm
  · refine touched_run (Or.inl ⟨q, hq, ?_⟩)
    exact (hf.ancestor_of_mem (mem_content.1 hc).1).atOrAbove.trans hcm
  · exact touched_run (Or.inl ⟨m, List.mem_cons_of_mem n hm, .refl f m⟩)
  · exact touched_run (Or.inr hm)

/-- No task behind the run touches what is below a member. -/
theorem not_touched_behind (happart : (Task.visit n :: (members.map .visit ++ tasks)).Pairwise
      (Task.Apart f)) (hq : q ∈ n :: members) (hm : f.AtOrAbove q m) : ¬ Touched f tasks m := by
  rintro ⟨t, ht, hmt⟩
  have hall : ((n :: members).map Task.visit ++ tasks).Pairwise (Task.Apart f) := happart
  exact (List.pairwise_append.1 hall).2.2 _ (List.mem_map_of_mem hq) t ht m hm hmt

section
variable (hf : f.WellFormed)
  (happart : (Task.visit n :: (members.map .visit ++ tasks)).Pairwise (Task.Apart f))
  (hmembers : (n :: members).Pairwise (Apart f))
  (hflat : panels.flatten = (n :: members).flatMap (contentOf f))

include hf happart hmembers hflat

/-- The tasks after the step lie apart from each other, as those before it do. -/
theorem pairwise_after :
    ((layout labels panels).map Part.task ++ (members.map Task.drop ++ tasks)).Pairwise
      (Task.Apart f) := by
  have hall : ((n :: members).map Task.visit ++ tasks).Pairwise (Task.Apart f) := happart
  refine List.pairwise_append.2 ⟨?_, List.pairwise_append.2 ⟨?_, (List.pairwise_append.1 hall).2.1,
    ?_⟩, ?_⟩
  · refine pairwise_parts ?_
    rw [filterMap_layout, hflat]
    exact pairwise_content hf hmembers
  · rw [List.pairwise_map]
    refine (List.pairwise_cons.1 hmembers).2.imp ?_
    rintro k k' hkk m rfl hm
    exact hkk.ne hm
  · intro t ht t' ht' m hm hm'
    obtain ⟨k, hk, rfl⟩ := List.mem_map.1 ht
    obtain rfl : m = k := hm
    exact not_touched_behind happart (List.mem_cons_of_mem n hk) (.refl f m) ⟨t', ht', hm'⟩
  · intro t ht t' ht' m hm hm'
    obtain ⟨c, hc, hcm⟩ := touched_parts_iff.1 ⟨t, ht, hm⟩
    rw [filterMap_layout, hflat] at hc
    obtain ⟨q, hq, hcq⟩ := List.mem_flatMap.1 hc
    rcases List.mem_append.1 ht' with ht' | ht'
    · obtain ⟨k, hk, rfl⟩ := List.mem_map.1 ht'
      obtain rfl : m = k := hm'
      exact not_over_member hf hmembers hq (mem_content.1 hcq).1 (List.mem_cons_of_mem n hk) hcm
    · refine not_touched_behind happart hq ?_ ⟨t', ht', hm'⟩
      exact (hf.ancestor_of_mem (mem_content.1 hcq).1).atOrAbove.trans hcm

/-- The first member is done with. -/
theorem not_touched_first :
    ¬ Touched f ((layout labels panels).map Part.task ++ (members.map .drop ++ tasks)) n := by
  intro hn
  rcases touched_after hflat hn with ⟨q, hq, c, hc, hcn⟩ | hn | hn
  · exact not_over_member hf hmembers hq (mem_content.1 hc).1 List.mem_cons_self hcn
  · exact ((List.pairwise_cons.1 hmembers).1 n hn).ne rfl
  · exact not_touched_behind happart List.mem_cons_self (.refl f n) hn

end

namespace Division

variable (h : Division f category a place before n members others labels panels g nodes made)
  (hforest : b.forest = g.replaced place.node n before (members ++ others) nodes)
  (hoffered : b.progress.offered = n :: a.progress.offered)
  (hfinal : b.progress.final = nodes.filter made.contains ++ a.progress.final)
  (habsorbed : b.state.absorbed = members ++ a.state.absorbed)

include h hforest hoffered hfinal habsorbed

/-- Only the place and the members change, and only the first member and the content move. -/
theorem leaves : Leaves (fun m => m = place.node ∨ m ∈ n :: members)
    (fun m => m = n ∨ ∃ q ∈ n :: members, m ∈ contentOf f q) a b := by
  have hdata := sameData_replaced g place.node n before (members ++ others) nodes
  have hextends := h.realized.extension
  refine ⟨?_, ?_, fun m hm => ?_, fun m hm => ?_, fun m _ hno => ?_, fun m hm hno => ?_,
    fun m hm => ?_, ?_, fun m hm => ?_, ?_, fun m hm => ?_⟩
  · rw [hforest]
    exact hextends.wellFormed.replaced h.list_eq h.allFit fun k hk => h.lt_size hk
  · rw [hforest, hdata.size_eq]
    exact hextends.size_le
  · rw [hforest, hdata.element_eq, hextends.element_eq m hm]
  · rw [hforest, hdata.metadata_eq, hextends.metadata_eq m hm]
  · rw [hforest, h.children_replaced, if_neg fun hm => hno (Or.inl hm)]
    exact h.without_eq (fun hm => hno (Or.inr hm)) (List.Subset.refl _)
  · have hnodes : m ∉ nodes := by
      intro hmem
      rcases h.content_or_marker hmem with hcontent | ⟨marker, -, hnew, -⟩
      · exact hno (Or.inr hcontent)
      · exact absurd hm (Nat.not_lt.2 hnew)
    rw [hforest, parent?_replaced fun k hk => h.lt_size hk, if_neg hnodes,
      if_neg fun hm => hno (Or.inl hm), hextends.parent?_eq]
  · rw [hoffered] at hm
    rcases List.mem_cons.1 hm with rfl | hm
    · exact Or.inr (Or.inr List.mem_cons_self)
    · exact Or.inl hm
  · rw [hfinal]
    exact List.subset_append_right _ _
  · rw [hfinal] at hm
    rcases List.mem_append.1 hm with hm | hm
    · exact Or.inr (h.realized.le_of_mem_made m (by simpa using (List.mem_filter.1 hm).2))
    · exact Or.inl hm
  · rw [habsorbed]
    exact List.subset_append_right _ _
  · rw [habsorbed] at hm
    rcases List.mem_append.1 hm with hm | hm
    · exact Or.inr (Or.inr (List.mem_cons_of_mem n hm))
    · exact Or.inl hm

/-- What comes in is ready: markup to be skipped, and content to be visited. -/
theorem readyAt_nodes (hready : Ready f (.visit n :: (members.map .visit ++ tasks)) a place rest) :
    List.Forall₂ (Task.ReadyAt f b) ((layout labels panels).map Part.task) nodes := by
  have hleaves := h.leaves hforest hoffered hfinal habsorbed
  refine List.forall₂_map_left_iff.2 (forall₂_imp_of_mem h.realized.standsFor
    fun part hpart k hk hstands => ?_)
  cases part with
  | content c =>
      obtain rfl : k = c := hstands
      obtain ⟨q, hq, hkq⟩ : ∃ q ∈ n :: members, k ∈ contentOf f q := by
        have hcontent : k ∈ (layout labels panels).filterMap Part.content? :=
          List.mem_filterMap.2 ⟨.content k, hpart, rfl⟩
        rw [filterMap_layout, h.flatten_eq] at hcontent
        exact List.mem_flatMap.1 hcontent
      have hchild := (mem_content.1 hkq).1
      have hbelow {m : NodeId} (hm : f.AtOrAbove k m) : f.AtOrAbove q m :=
        (h.old.ancestor_of_mem hchild).atOrAbove.trans hm
      obtain ⟨-, hsame, hno⟩ := h.here.ready q hq
      have hvisit : Task.ReadyAt f a (.visit k) k :=
        ⟨rfl, hsame.child h.old hchild, fun m hm => hno m (hbelow hm)⟩
      have hlt {m : NodeId} (hm : f.AtOrAbove k m) : m < f.size :=
        hready.lt_size m (touched_run (Or.inl ⟨q, hq, hbelow hm⟩))
      -- Neither the place nor a member is below the content, so its tree stays as it was.
      refine hvisit.of_leaves hleaves hready.size_le (fun m hm => hlt hm) (fun m hm => ?_)
        fun hle => ?_
      · rintro (rfl | hmember)
        · exact hready.untouched place List.mem_cons_self
            (touched_run (Or.inl ⟨q, hq, hbelow hm⟩))
        · exact not_over_member h.old h.here.apart hq hchild hmember hm
      · exact absurd (hlt (.refl f k)) (Nat.not_lt.2 hle)
  | marker m =>
      obtain ⟨hmade, hnew, hlt, helement, hmetadata, hchildren⟩ := hstands
      have hdata := sameData_replaced g place.node n before (members ++ others) nodes
      have hplace : k ≠ place.node := by
        rintro rfl
        exact absurd (lt_size_of_mem_children (h.here.mem_place List.mem_cons_self))
          (Nat.not_lt.2 hnew)
      refine ⟨?_, Nat.le_trans hready.size_le hnew, ?_, ?_, ?_, ?_⟩
      · rw [hfinal]
        exact List.mem_append_left _ (List.mem_filter.2 ⟨hk, by simpa using hmade⟩)
      · rw [hforest, hdata.size_eq]
        exact hlt
      · rw [hforest, hdata.element_eq, helement]
      · rw [hforest, hdata.metadata_eq, hmetadata]
      · rw [hforest, h.children_replaced, if_neg hplace, ← h.realized.extension.children_eq,
          hchildren]
        rfl

omit hoffered hfinal habsorbed in
theorem pending_eq : Revision.pending b.forest place = nodes ++ (members ++ others) := by
  rw [Revision.pending, hforest, h.children_replaced, if_pos rfl, ← h.here.length_eq,
    List.append_assoc, List.drop_left]

/-- What is behind the run stands ready as before. -/
theorem readyAt_behind (hready : Ready f (.visit n :: (members.map .visit ++ tasks)) a place rest)
    (hothers : List.Forall₂ (Task.ReadyAt f a) tasks others) :
    List.Forall₂ (Task.ReadyAt f b) tasks others := by
  have hleaves := h.leaves hforest hoffered hfinal habsorbed
  have hbehind : ∀ m, Touched f tasks m → ¬ (m = place.node ∨ m ∈ n :: members) := by
    rintro m hm (rfl | hmember)
    · exact hready.untouched place List.mem_cons_self (touched_run (Or.inr hm))
    · exact not_touched_behind hready.apart hmember (.refl f m) hm
  refine forall₂_imp_of_mem hothers fun t ht k hk hat => ?_
  refine hat.of_leaves hleaves hready.size_le (fun m hm => ?_) (fun m hm => hbehind m ⟨t, ht, hm⟩)
    fun hle => ?_
  · exact hready.lt_size m (touched_run (Or.inr ⟨t, ht, hm⟩))
  · have hplace : k ∈ a.forest.children place.node := by
      rw [h.here.list_eq]
      simp [hk]
    rintro (rfl | hmember)
    · exact h.wellFormed.not_atOrAbove_of_mem hplace (.refl _ _) (.refl _ _)
    · have hlt := hready.lt_size k (touched_run (Or.inl ⟨k, hmember, .refl f k⟩))
      exact absurd hlt (Nat.not_lt.2 hle)

/-- The tasks after the step are ready at the same place. -/
theorem ready (hready : Ready f (.visit n :: (members.map .visit ++ tasks)) a place rest)
    (hstack : b.progress.stack = place :: rest)
    (hothers : List.Forall₂ (Task.ReadyAt f a) tasks others) :
    Ready f ((layout labels panels).map Part.task ++ (members.map .drop ++ tasks)) b place
      rest := by
  have hleaves := h.leaves hforest hoffered hfinal habsorbed
  have hflat := h.flatten_eq
  have htouched {m : NodeId}
      (hm : Touched f ((layout labels panels).map Part.task ++ (members.map .drop ++ tasks)) m) :
      Touched f (.visit n :: (members.map .visit ++ tasks)) m := by
    exact touched_run_of_after h.old hflat hm
  refine ⟨hleaves.wellFormed, Nat.le_trans hready.size_le hleaves.size_le, hstack,
    fun m hm => ?_, ?_,
    pairwise_after h.old hready.apart h.here.apart hflat,
    fun m hm => hready.lt_size m (htouched hm),
    fun m hm => ?_, fun frame hframe hm => hready.untouched frame hframe (htouched hm)⟩
  · rcases hleaves.final m hm with hm | hm
    · exact hready.final m hm
    · exact Nat.le_trans hready.size_le hm
  · have hdropped : List.Forall₂ (Task.ReadyAt f b) (members.map .drop) members := by
      rw [List.forall₂_map_left_iff, List.forall₂_same]
      intro k hk
      refine ⟨rfl, ?_⟩
      rw [habsorbed]
      exact List.mem_append_left _ hk
    rw [h.pending_eq hforest]
    exact List.rel_append (h.readyAt_nodes hforest hoffered hfinal habsorbed hready)
      (List.rel_append hdropped (h.readyAt_behind hforest hoffered hfinal habsorbed hready hothers))
  · rw [hoffered]
    refine List.not_mem_cons_of_ne_of_not_mem ?_ (hready.fresh m (htouched hm))
    rintro rfl
    exact not_touched_first h.old hready.apart h.here.apart hflat hm

end Division

/-! ### The step -/

/-- A label that is no text stops the pass. -/
theorem Ready.comes_fail (hf : f.WellFormed) {e : TreeFault}
    (h : Ready f (.visit n :: (members.map .visit ++ tasks)) a place rest)
    (hrun : Run f category grouped n members tasks)
    (he : Interleaved.gather f (n :: members) = .error e) :
    Comes f category grouped (.visit n :: (members.map .visit ++ tasks)) a place rest
      (.error e) := by
  obtain ⟨before, others, hhere, hothers⟩ := RunHere.of_ready h hrun
  obtain ⟨-, hsame, habsorbed⟩ := hhere.ready n List.mem_cons_self
  have hn : divided a.forest category n = true := by rw [divided_eq hf hsame, hrun.first]
  have hvisit := Interleaved.visit_fault (habsorbed n (.refl f n)) hn
    (hhere.run_eq hf h.wellFormed hrun hothers) ((hhere.gather_eq hf h.wellFormed).trans he)
  have hstep : result (step (Interleaved.visit category grouped) a.progress) a.forest a.state =
      (.error (.visitor e), a.forest, a.state) := by
    rw [h.result_step_visit hhere.list_eq hhere.length_eq (.refl f n), hvisit]
  refine (Fails.of_step h.stack hstep).mono ?_
  rw [cost_cons, cost_below hf]
  omega

/-- The visitor answers with the tabs of a run, and they are put in at the place. -/
theorem Ready.reaches_division (hf : f.WellFormed)
    (h : Ready f (.visit n :: (members.map .visit ++ tasks)) a place rest)
    (hrun : Run f category grouped n members tasks)
    (hgather : Interleaved.gather f (n :: members) = .ok (labels, panels)) :
    ∃ before others g nodes made,
      Division f category a place before n members others labels panels g nodes made ∧
      List.Forall₂ (Task.ReadyAt f a) tasks others ∧
      Reaches (Interleaved.visit category grouped) 1 a
        ⟨⟨place :: rest, n :: a.progress.offered, nodes.filter made.contains ++ a.progress.final⟩,
          g.replaced place.node n before (members ++ others) nodes,
          Interleaved.noteDivided a.state members⟩ := by
  obtain ⟨before, others, hhere, hothers⟩ := RunHere.of_ready h hrun
  obtain ⟨-, hsame, habsorbed⟩ := hhere.ready n List.mem_cons_self
  have hn : divided a.forest category n = true := by rw [divided_eq hf hsame, hrun.first]
  have hvisit : Interleaved.visit category grouped n a.forest a.state = _ :=
    Interleaved.visit_divided (habsorbed n (.refl f n)) hn
      (hhere.run_eq hf h.wellFormed hrun hothers) ((hhere.gather_eq hf h.wellFormed).trans hgather)
  have hrealized := realized h.wellFormed (layout labels panels)
  generalize (realize a.forest (layout labels panels)).2 = g at hvisit hrealized
  generalize (realize a.forest (layout labels panels)).1.1 = nodes at hvisit hrealized
  generalize (realize a.forest (layout labels panels)).1.2 = made at hvisit hrealized
  have hdivision : Division f category a place before n members others labels panels g nodes made :=
    ⟨hhere, hf, h.wellFormed, flatten_of_gather hhere.divided hgather, hrealized⟩
  refine ⟨before, others, g, nodes, made, hdivision, hothers, Reaches.of_step h.stack ?_⟩
  -- What leaves comes from members of the run, at which no place is, so no place moves.
  obtain ⟨left, hleft⟩ := exists_departures hrealized.extension.wellFormed n nodes
  have hshift : shift left (place :: rest) = place :: rest := by
    refine hdivision.shift_eq hleft fun frame hframe hmem => ?_
    exact h.untouched frame hframe (touched_run (Or.inl ⟨_, hmem, .refl f _⟩))
  have hbefore : before ⊆ a.forest.children place.node := by
    rw [hhere.list_eq]
    exact List.subset_append_left _ _
  rw [h.result_step_visit hhere.list_eq hhere.length_eq (.refl f n), hvisit]
  simp only [Revision.Answer.toAction]
  rw [result_splice _ (Interleaved.noteDivided a.state members) hrealized.extension.wellFormed
    hdivision.list_eq hdivision.allFit (fun k hk => hdivision.lt_size hk) hleft,
    hdivision.without_eq hdivision.place_not_mem hbefore]
  simp only [h.stack, hshift, Finality.nodes, nodesAmong_map, setNext, hhere.length_eq]

/-- A run of divided admonitions gives way to its tabs. -/
theorem Ready.comes_divide (hf : f.WellFormed) {r : Except TreeFault (List Piece)}
    (h : Ready f (.visit n :: (members.map .visit ++ tasks)) a place rest)
    (hrun : Run f category grouped n members tasks)
    (hgather : Interleaved.gather f (n :: members) = .ok (labels, panels))
    (ih : ComesAnywhere f category grouped
      ((layout labels panels).map Part.task ++ (members.map .drop ++ tasks)) r) :
    Comes f category grouped (.visit n :: (members.map .visit ++ tasks)) a place rest r := by
  obtain ⟨before, others, g, nodes, made, hdivision, hothers, hreaches⟩ :=
    h.reaches_division hf hrun hgather
  obtain ⟨b, hb⟩ : ∃ b : Config Interleaved.State, b =
    ⟨⟨place :: rest, n :: a.progress.offered, nodes.filter made.contains ++ a.progress.final⟩,
      g.replaced place.node n before (members ++ others) nodes,
      Interleaved.noteDivided a.state members⟩ := ⟨_, rfl⟩
  rw [← hb] at hreaches
  have habsorbed' : b.state.absorbed = members ++ a.state.absorbed := by
    rw [hb]
    rfl
  have hleaves := hdivision.leaves (by rw [hb]) (by rw [hb]) (by rw [hb]) habsorbed'
  have hready := hdivision.ready (by rw [hb]) (by rw [hb]) (by rw [hb]) habsorbed' h (by rw [hb])
    hothers
  have hadvances : Advances f category (.visit n :: (members.map .visit ++ tasks))
      ((layout labels panels).map Part.task ++ (members.map .drop ++ tasks)) a b place rest [] [] :=
    { ready := hready
      leaves := hleaves.mono
        (fun m hm => hm.imp id fun hm => touched_run (Or.inl ⟨m, hm, .refl f m⟩))
        fun m hm => movedBy_run hf hdivision.here.divided hm
      touched := fun m hm => touched_run_of_after hf hdivision.flatten_eq hm
      moved := fun m hm => movedBy_run_of_after hf hrun.divided hdivision.flatten_eq hm
      take_eq := by
        rw [hb]
        change ((g.replaced place.node n before (members ++ others) nodes).children
          place.node).take (place.next + 0) = _
        rw [hdivision.children_replaced, if_pos rfl, hdivision.here.list_eq,
          ← hdivision.here.length_eq]
        simp
      shown := .nil
      told := fun more t htold => by
        rw [hb] at htold
        exact .divide hf hdivision.here.divided hdivision.flatten_eq htold }
  rw [← ok_nil_andThen r]
  exact hadvances.comes hf hreaches (cost_divide hf hrun hgather) (ih _ _ _ hready)

end MarkdownTree.Tabs
