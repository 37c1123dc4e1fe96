import MarkdownTree.Proofs.TabsReport

/-!
Steps of the pass over tabs. While tasks are carried out at a place, only the node of the place and
what the tasks touch may change. What stands before the place is finished; what the tasks are about
is as it was, and no two tasks touch the same node.
-/

namespace MarkdownTree.Tabs

open Forest Revision Asking

variable {f : Forest} {category : Value} {grouped : Bool} {a b c : Config Interleaved.State}
  {k m n p : NodeId} {t : Task} {tasks tasks' : List Task} {place : Frame} {rest : List Frame}
  {pieces more : List Piece} {may may' moves moves' : NodeId → Prop}

/-! ### Lists in step -/

theorem exists_of_forall₂ {α β : Type} {R : α → β → Prop} {xs : List α} {ys : List β}
    (h : List.Forall₂ R xs ys) {x : α} (hx : x ∈ xs) : ∃ y ∈ ys, R x y := by
  induction h with
  | nil => exact absurd hx List.not_mem_nil
  | cons hxy _ ih =>
      rcases List.mem_cons.1 hx with rfl | hx
      · exact ⟨_, List.mem_cons_self, hxy⟩
      · obtain ⟨y, hy, hxy⟩ := ih hx
        exact ⟨y, List.mem_cons_of_mem _ hy, hxy⟩

/-! ### What tasks touch -/

/-- The nodes that a task may change. -/
def Task.Touches (f : Forest) : Task → NodeId → Prop
  | .skip _, _ => False
  | .drop n, m => m = n
  | .visit n, m => f.AtOrAbove n m

/-- No node is touched by both of two tasks. -/
def Task.Apart (f : Forest) (t t' : Task) : Prop :=
  ∀ m, t.Touches f m → ¬ t'.Touches f m

/-- The nodes that a list of tasks may change. -/
def Touched (f : Forest) (tasks : List Task) (m : NodeId) : Prop :=
  ∃ t ∈ tasks, t.Touches f m

theorem Touched.head (h : t.Touches f m) : Touched f (t :: tasks) m :=
  ⟨t, List.mem_cons_self, h⟩

theorem Touched.mono (h : Touched f tasks m) (hsub : tasks ⊆ tasks') : Touched f tasks' m := by
  obtain ⟨t, ht, hm⟩ := h
  exact ⟨t, hsub ht, hm⟩

theorem Touched.tail (h : Touched f tasks m) : Touched f (t :: tasks) m :=
  h.mono (List.subset_cons_self t tasks)

/-- The tasks of the children of a node touch what is below it. -/
theorem touched_children_iff (hf : f.WellFormed) :
    Touched f ((f.children n).map .visit) m ↔ f.Ancestor n m := by
  constructor
  · rintro ⟨t, ht, hm⟩
    obtain ⟨c, hc, rfl⟩ := List.mem_map.1 ht
    exact (hf.ancestor_of_mem hc).trans_atOrAbove hm
  · intro hm
    obtain ⟨c, hc, hcm⟩ := hf.exists_mem_of_ancestor hm
    exact ⟨.visit c, List.mem_map_of_mem hc, hcm⟩

/-- A divided admonition, or a child of one. -/
def Moved (f : Forest) (category : Value) (m : NodeId) : Prop :=
  divided f category m = true ∨ ∃ p, f.parent? m = some p ∧ divided f category p = true

/-- The nodes that a task may give another parent. -/
def Task.Moves (f : Forest) (category : Value) : Task → NodeId → Prop
  | .skip _, _ => False
  | .drop n, m => m = n
  | .visit n, m => f.AtOrAbove n m ∧ Moved f category m

/-- The nodes that a list of tasks may give another parent. -/
def MovedBy (f : Forest) (category : Value) (tasks : List Task) (m : NodeId) : Prop :=
  ∃ t ∈ tasks, t.Moves f category m

theorem MovedBy.head (h : t.Moves f category m) : MovedBy f category (t :: tasks) m :=
  ⟨t, List.mem_cons_self, h⟩

theorem MovedBy.mono (h : MovedBy f category tasks m) (hsub : tasks ⊆ tasks') :
    MovedBy f category tasks' m := by
  obtain ⟨t, ht, hm⟩ := h
  exact ⟨t, hsub ht, hm⟩

theorem MovedBy.tail (h : MovedBy f category tasks m) : MovedBy f category (t :: tasks) m :=
  h.mono (List.subset_cons_self t tasks)

/-- The tasks of the children of a node move nodes below it only. -/
theorem moved_of_movedBy_children (hf : f.WellFormed)
    (h : MovedBy f category ((f.children n).map .visit) m) :
    f.Ancestor n m ∧ Moved f category m := by
  obtain ⟨t, ht, hm⟩ := h
  obtain ⟨c, hc, rfl⟩ := List.mem_map.1 ht
  exact ⟨(hf.ancestor_of_mem hc).trans_atOrAbove hm.1, hm.2⟩

/-! ### What a run leaves alone -/

/-- From one configuration to another, children change at nodes that may change only, parents at
nodes that move, and data of nodes do not change; the nodes that are offered or absorbed may change,
those that are final are new. -/
structure Leaves (may moves : NodeId → Prop) (a b : Config Interleaved.State) : Prop where
  wellFormed : b.forest.WellFormed
  size_le : a.forest.size ≤ b.forest.size
  element_eq (m : NodeId) (hm : m < a.forest.size) : b.forest.element m = a.forest.element m
  metadata_eq (m : NodeId) (hm : m < a.forest.size) : b.forest.metadata m = a.forest.metadata m
  children_eq (m : NodeId) (hm : m < a.forest.size) (hno : ¬ may m) :
    b.forest.children m = a.forest.children m
  parent?_eq (m : NodeId) (hm : m < a.forest.size) (hno : ¬ moves m) :
    b.forest.parent? m = a.forest.parent? m
  offered : ∀ m ∈ b.progress.offered, m ∈ a.progress.offered ∨ may m
  final_subset : a.progress.final ⊆ b.progress.final
  final : ∀ m ∈ b.progress.final, m ∈ a.progress.final ∨ a.forest.size ≤ m
  absorbed_subset : a.state.absorbed ⊆ b.state.absorbed
  absorbed : ∀ m ∈ b.state.absorbed, m ∈ a.state.absorbed ∨ may m

namespace Leaves

theorem mono (h : Leaves may moves a b) (hmay : ∀ m, may m → may' m)
    (hmoves : ∀ m, moves m → moves' m) : Leaves may' moves' a b :=
  { h with
    children_eq := fun m hm hno => h.children_eq m hm fun hmay' => hno (hmay m hmay')
    parent?_eq := fun m hm hno => h.parent?_eq m hm fun hmoves' => hno (hmoves m hmoves')
    offered := fun m hm => (h.offered m hm).imp id (hmay m)
    absorbed := fun m hm => (h.absorbed m hm).imp id (hmay m) }

theorem trans (hab : Leaves may moves a b) (hbc : Leaves may moves b c) :
    Leaves may moves a c where
  wellFormed := hbc.wellFormed
  size_le := Nat.le_trans hab.size_le hbc.size_le
  element_eq m hm := by
    rw [hbc.element_eq m (Nat.lt_of_lt_of_le hm hab.size_le), hab.element_eq m hm]
  metadata_eq m hm := by
    rw [hbc.metadata_eq m (Nat.lt_of_lt_of_le hm hab.size_le), hab.metadata_eq m hm]
  children_eq m hm hno := by
    rw [hbc.children_eq m (Nat.lt_of_lt_of_le hm hab.size_le) hno, hab.children_eq m hm hno]
  parent?_eq m hm hno := by
    rw [hbc.parent?_eq m (Nat.lt_of_lt_of_le hm hab.size_le) hno, hab.parent?_eq m hm hno]
  offered m hm := by
    rcases hbc.offered m hm with hm | hm
    · exact hab.offered m hm
    · exact Or.inr hm
  final_subset := List.Subset.trans hab.final_subset hbc.final_subset
  final m hm := by
    rcases hbc.final m hm with hm | hm
    · exact hab.final m hm
    · exact Or.inr (Nat.le_trans hab.size_le hm)
  absorbed_subset := List.Subset.trans hab.absorbed_subset hbc.absorbed_subset
  absorbed m hm := by
    rcases hbc.absorbed m hm with hm | hm
    · exact hab.absorbed m hm
    · exact Or.inr hm

/-- A step that changes nothing but the places and what was offered. -/
theorem of_forest_eq (ha : a.forest.WellFormed) (hforest : b.forest = a.forest)
    (hoffered : ∀ m ∈ b.progress.offered, m ∈ a.progress.offered ∨ may m)
    (hfinal : b.progress.final = a.progress.final)
    (habsorbed : b.state.absorbed = a.state.absorbed) : Leaves may moves a b where
  wellFormed := by rwa [hforest]
  size_le := Nat.le_of_eq (by rw [hforest])
  element_eq m _ := by rw [hforest]
  metadata_eq m _ := by rw [hforest]
  children_eq m _ _ := by rw [hforest]
  parent?_eq m _ _ := by rw [hforest]
  offered := hoffered
  final_subset := by
    rw [hfinal]
    exact List.Subset.refl _
  final m hm := Or.inl (hfinal ▸ hm)
  absorbed_subset := by
    rw [habsorbed]
    exact List.Subset.refl _
  absorbed m hm := Or.inl (habsorbed ▸ hm)

/-- A tree in which nothing may change stays as it is. -/
theorem sameTree (h : Leaves may moves a b)
    (hsize : ∀ m, a.forest.AtOrAbove n m → m < a.forest.size)
    (hno : ∀ m, a.forest.AtOrAbove n m → ¬ may m) : a.forest.SameTree b.forest n := by
  intro m hm
  have hlt := hsize m hm
  exact ⟨h.children_eq m hlt (hno m hm), h.element_eq m hlt, h.metadata_eq m hlt⟩

end Leaves

/-! ### The invariant -/

/-- A child stands ready for a task: markup is final, an emptied admonition is absorbed, and the
tree of a child to be visited is as it was, with no node absorbed. -/
def Task.ReadyAt (f : Forest) (a : Config Interleaved.State) : Task → NodeId → Prop
  | .skip m, k => k ∈ a.progress.final ∧ f.size ≤ k ∧ k < a.forest.size ∧
      a.forest.element k = Element.html m.text ∧ a.forest.metadata k = [] ∧ a.forest.children k = []
  | .drop n, k => k = n ∧ n ∈ a.state.absorbed
  | .visit n, k => k = n ∧ f.SameTree a.forest n ∧ ∀ m, f.AtOrAbove n m → m ∉ a.state.absorbed

/-- Tasks are to be carried out at the innermost place. -/
structure Ready (f : Forest) (tasks : List Task) (a : Config Interleaved.State) (place : Frame)
    (rest : List Frame) : Prop where
  wellFormed : a.forest.WellFormed
  size_le : f.size ≤ a.forest.size
  stack : a.progress.stack = place :: rest
  final : ∀ m ∈ a.progress.final, f.size ≤ m
  pending : List.Forall₂ (Task.ReadyAt f a) tasks (Revision.pending a.forest place)
  apart : tasks.Pairwise (Task.Apart f)
  lt_size : ∀ m, Touched f tasks m → m < f.size
  fresh : ∀ m, Touched f tasks m → m ∉ a.progress.offered
  untouched : ∀ frame ∈ place :: rest, ¬ Touched f tasks frame.node

/-- Tasks were carried out: the place is after the nodes that show the result. -/
structure Done (f : Forest) (category : Value) (pieces : List Piece) (tasks : List Task)
    (a b : Config Interleaved.State) (place : Frame) (rest : List Frame) : Prop where
  leaves : Leaves (fun m => m = place.node ∨ Touched f tasks m) (MovedBy f category tasks) a b
  shown : ∃ nodes, b.progress.stack = ⟨place.node, place.next + nodes.length⟩ :: rest ∧
    b.forest.children place.node = (a.forest.children place.node).take place.next ++ nodes ∧
    Shown f b.forest pieces nodes
  told : Told f category tasks pieces a.state b.state

/-- What a run from a configuration comes to within the cost of the tasks. -/
def Comes (f : Forest) (category : Value) (grouped : Bool) (tasks : List Task)
    (a : Config Interleaved.State) (place : Frame) (rest : List Frame) :
    Except TreeFault (List Piece) → Prop
  | .ok pieces => ∃ b, Reaches (Interleaved.visit category grouped) (cost f tasks) a b ∧
      Done f category pieces tasks a b place rest
  | .error e => Fails (Interleaved.visit category grouped) (cost f tasks) a e

/-- A child whose task touches nothing that may change stands ready as before. -/
theorem Task.ReadyAt.of_leaves (h : t.ReadyAt f a k) (hleaves : Leaves may moves a b)
    (hsize : f.size ≤ a.forest.size) (hlt : ∀ m, t.Touches f m → m < f.size)
    (hapart : ∀ m, t.Touches f m → ¬ may m) (hnew : f.size ≤ k → ¬ may k) : t.ReadyAt f b k := by
  cases t with
  | skip m =>
      obtain ⟨hfinal, hle, hk, helement, hmetadata, hchildren⟩ := h
      refine ⟨hleaves.final_subset hfinal, hle, Nat.lt_of_lt_of_le hk hleaves.size_le, ?_, ?_, ?_⟩
      · rw [hleaves.element_eq k hk, helement]
      · rw [hleaves.metadata_eq k hk, hmetadata]
      · rw [hleaves.children_eq k hk (hnew hle), hchildren]
  | drop n => exact ⟨h.1, hleaves.absorbed_subset h.2⟩
  | visit n =>
      obtain ⟨hk, hsame, habsorbed⟩ := h
      refine ⟨hk, fun m hm => ?_, fun m hm hmem => ?_⟩
      · obtain ⟨hchildren, helement, hmetadata⟩ := hsame m hm
        have hma : m < a.forest.size := Nat.lt_of_lt_of_le (hlt m hm) hsize
        rw [hleaves.children_eq m hma (hapart m hm), hleaves.element_eq m hma,
          hleaves.metadata_eq m hma]
        exact ⟨hchildren, helement, hmetadata⟩
      · rcases hleaves.absorbed m hmem with hmem | hmay
        · exact habsorbed m hm hmem
        · exact hapart m hm hmay

namespace Ready

/-- The child at the place is the one that the first task is about. -/
theorem head (h : Ready f (t :: tasks) a place rest) :
    ∃ before k after, a.forest.children place.node = before ++ k :: after ∧
      before.length = place.next ∧ t.ReadyAt f a k ∧
        List.Forall₂ (Task.ReadyAt f a) tasks after := by
  have hpending := h.pending
  generalize hnext : Revision.pending a.forest place = children at hpending
  cases hpending with
  | @cons _ k _ after hk hafter =>
      have hlt : place.next < (a.forest.children place.node).length := by
        by_contra hge
        rw [Revision.pending, List.drop_of_length_le (Nat.not_lt.1 hge)] at hnext
        cases hnext
      refine ⟨(a.forest.children place.node).take place.next, k, after, ?_, ?_, hk, hafter⟩
      · rw [← hnext, Revision.pending, List.take_append_drop]
      · rw [List.length_take, Nat.min_eq_left (Nat.le_of_lt hlt)]

/-- What a task touches lies below a child that is still to come. -/
theorem exists_pending (hf : f.WellFormed) (h : Ready f tasks a place rest)
    (hm : Touched f tasks m) :
    ∃ k ∈ Revision.pending a.forest place, a.forest.AtOrAbove k m := by
  obtain ⟨t, ht, hmt⟩ := hm
  obtain ⟨k, hk, hready⟩ := exists_of_forall₂ h.pending ht
  refine ⟨k, hk, ?_⟩
  cases t with
  | skip m => exact absurd hmt id
  | drop n =>
      rw [hready.1, hmt]
      exact .refl _ n
  | visit n =>
      rw [hready.1]
      exact hready.2.1.atOrAbove hf h.wellFormed hmt

/-- A child before the place is not touched, nor what is below it. -/
theorem not_touched (hf : f.WellFormed) (h : Ready f tasks a place rest)
    (hk : k ∈ (a.forest.children place.node).take place.next) (hm : a.forest.AtOrAbove k m) :
    ¬ (m = place.node ∨ Touched f tasks m) := by
  have hkp := List.mem_of_mem_take hk
  rintro (rfl | htouched)
  · exact h.wellFormed.not_atOrAbove_of_mem hkp (.refl _ _) hm
  · obtain ⟨k', hk', hkm'⟩ := h.exists_pending hf htouched
    have heq := h.wellFormed.eq_of_siblings hkp (List.mem_of_mem_drop hk') hm hkm'
    have hnodup := h.wellFormed.nodup_children place.node
    rw [← List.take_append_drop place.next (a.forest.children place.node)] at hnodup
    exact (List.nodup_append'.1 hnodup).2.2 hk (heq ▸ hk')

/-- After the first task, the other tasks are ready at the next child. -/
theorem tail (h : Ready f (t :: tasks) a place rest) {next : Nat}
    (hleaves : Leaves (fun m => m = place.node ∨ t.Touches f m) moves a b)
    (hstack : b.progress.stack = ⟨place.node, next⟩ :: rest)
    (hafter : List.Forall₂ (Task.ReadyAt f a) tasks
      (Revision.pending b.forest ⟨place.node, next⟩)) :
    Ready f tasks b ⟨place.node, next⟩ rest := by
  obtain ⟨hfirst, hothers⟩ := List.pairwise_cons.1 h.apart
  have huntouched : ∀ frame ∈ place :: rest, ¬ Touched f tasks frame.node := fun frame hframe hm =>
    h.untouched frame hframe hm.tail
  have hapart : ∀ m, Touched f tasks m → ¬ (m = place.node ∨ t.Touches f m) := by
    rintro m hm (rfl | htm)
    · exact huntouched place List.mem_cons_self hm
    · obtain ⟨t', ht', hmt'⟩ := hm
      exact hfirst t' ht' m htm hmt'
  refine ⟨hleaves.wellFormed, Nat.le_trans h.size_le hleaves.size_le, hstack, fun m hm => ?_, ?_,
    hothers, fun m hm => h.lt_size m hm.tail, fun m hm hoffered => ?_, fun frame hframe => ?_⟩
  · rcases hleaves.final m hm with hm | hm
    · exact h.final m hm
    · exact Nat.le_trans h.size_le hm
  · refine forall₂_imp_of_mem hafter fun t' ht' k hk hready => ?_
    refine hready.of_leaves hleaves h.size_le (fun m hm => h.lt_size m ⟨t', ?_, hm⟩)
      (fun m hm => hapart m ⟨t', ht', hm⟩) fun hle => ?_
    · exact List.mem_cons_of_mem t ht'
    · have hkp : k ∈ b.forest.children place.node := List.mem_of_mem_drop hk
      rintro (rfl | hkt)
      · exact hleaves.wellFormed.not_atOrAbove_of_mem hkp (.refl _ _) (.refl _ _)
      · exact absurd (h.lt_size k (Touched.head hkt)) (Nat.not_lt.2 hle)
  · rcases hleaves.offered m hoffered with hoffered | hmay
    · exact h.fresh m hm.tail hoffered
    · exact hapart m hm hmay
  · rcases List.mem_cons.1 hframe with rfl | hframe
    · exact huntouched place List.mem_cons_self
    · exact huntouched frame (List.mem_cons_of_mem _ hframe)

end Ready

/-! ### Results that stand -/

theorem Shown.append {g : Forest} {nodes others : List NodeId} (h : Shown f g pieces nodes)
    (hmore : Shown f g more others) : Shown f g (pieces ++ more) (nodes ++ others) := by
  induction h with
  | nil => exact hmore
  | marker hnew helement hmetadata hchildren _ ih =>
      exact .marker hnew helement hmetadata hchildren ih
  | node hold helement hmetadata hbelow _ _ ih => exact .node hold helement hmetadata hbelow ih

/-- What is shown is shown on, as long as the trees stay as they are. -/
theorem Shown.of_sameTree {g h : Forest} {nodes : List NodeId} (hg : g.WellFormed)
    (hshown : Shown f g pieces nodes) (hsame : ∀ k ∈ nodes, g.SameTree h k) :
    Shown f h pieces nodes := by
  induction hshown with
  | nil => exact .nil
  | @marker m k pieces nodes hnew helement hmetadata hchildren _ ih =>
      have hk := hsame k List.mem_cons_self
      refine .marker hnew ?_ ?_ ?_ (ih fun n hn => hsame n (List.mem_cons_of_mem k hn))
      · rw [hk.element_eq, helement]
      · rw [hk.metadata_eq, hmetadata]
      · rw [hk.children_eq, hchildren]
  | @node n below pieces nodes hold helement hmetadata _ _ ihbelow ih =>
      have hn := hsame n List.mem_cons_self
      refine .node hold ?_ ?_ ?_ (ih fun k hk => hsame k (List.mem_cons_of_mem n hk))
      · rw [hn.element_eq, helement]
      · rw [hn.metadata_eq, hmetadata]
      · rw [hn.children_eq]
        exact ihbelow fun c hc => hn.child hg hc

/-- A run that finishes some nodes at a place, after which the place is after these and some tasks
are left. -/
structure Advances (f : Forest) (category : Value) (tasks tasks' : List Task)
    (a b : Config Interleaved.State) (place : Frame) (rest : List Frame) (head : List NodeId)
    (pieces : List Piece) : Prop where
  ready : Ready f tasks' b ⟨place.node, place.next + head.length⟩ rest
  leaves : Leaves (fun m => m = place.node ∨ Touched f tasks m) (MovedBy f category tasks) a b
  touched (m : NodeId) (hm : Touched f tasks' m) : Touched f tasks m
  moved (m : NodeId) (hm : MovedBy f category tasks' m) : MovedBy f category tasks m
  take_eq : (b.forest.children place.node).take (place.next + head.length) =
    (a.forest.children place.node).take place.next ++ head
  shown : Shown f b.forest pieces head
  told (more : List Piece) (t : Interleaved.State)
    (h : Told f category tasks' more b.state t) : Told f category tasks (pieces ++ more) a.state t

namespace Advances

variable {head : List NodeId}

/-- Then a run of the tasks that are left is one of all tasks. -/
theorem done (hf : f.WellFormed) (h : Advances f category tasks tasks' a b place rest head pieces)
    (hdone : Done f category more tasks' b c ⟨place.node, place.next + head.length⟩ rest) :
    Done f category (pieces ++ more) tasks a c place rest := by
  obtain ⟨hleaves, ⟨nodes, hstack, hchildren, hmore⟩, htold⟩ := hdone
  have hb := h.ready.wellFormed
  refine ⟨h.leaves.trans (hleaves.mono (fun m hm => hm.imp id (h.touched m)) h.moved),
    ⟨head ++ nodes, ?_, ?_, ?_⟩, h.told more c.state htold⟩
  · rw [hstack, List.length_append, Nat.add_assoc]
  · rw [hchildren, h.take_eq, List.append_assoc]
  · refine Shown.append (h.shown.of_sameTree hb fun k hk => ?_) hmore
    have hkt : k ∈ (b.forest.children place.node).take (place.next + head.length) := by
      rw [h.take_eq]
      exact List.mem_append_right _ hk
    have hkp := List.mem_of_mem_take hkt
    exact hleaves.sameTree (fun m hm => hm.lt_size (hb.lt_size_of_mem hkp))
      fun m hm => h.ready.not_touched hf hkt hm

theorem comes (hf : f.WellFormed) (h : Advances f category tasks tasks' a b place rest head pieces)
    {steps : Nat} {r : Except TreeFault (List Piece)}
    (hreaches : Reaches (Interleaved.visit category grouped) steps a b)
    (hcost : steps + cost f tasks' ≤ cost f tasks)
    (hcomes : Comes f category grouped tasks' b ⟨place.node, place.next + head.length⟩ rest r) :
    Comes f category grouped tasks a place rest (andThen (.ok pieces) r) := by
  cases r with
  | error e => exact (hreaches.fails hcomes).mono hcost
  | ok more =>
      obtain ⟨c, hreaches', hdone⟩ := hcomes
      exact ⟨c, (hreaches.trans hreaches').mono hcost, h.done hf hdone⟩

end Advances

/-! ### Steps -/

theorem Ready.comes_nil (h : Ready f [] a place rest) :
    Comes f category grouped [] a place rest (.ok []) := by
  have hempty : (a.forest.children place.node).drop place.next = [] :=
    List.forall₂_nil_left_iff.1 h.pending
  refine ⟨a, .refl a, .of_forest_eq h.wellFormed rfl (fun m hm => Or.inl hm) rfl rfl,
    ⟨[], h.stack, ?_, .nil⟩, .nil a.state⟩
  rw [List.append_nil, List.take_of_length_le (List.drop_eq_nil_iff.1 hempty)]

/-- What a run of the tasks comes to wherever they are ready. -/
def ComesAnywhere (f : Forest) (category : Value) (grouped : Bool) (tasks : List Task)
    (r : Except TreeFault (List Piece)) : Prop :=
  ∀ a place rest, Ready f tasks a place rest → Comes f category grouped tasks a place rest r

/-- Markup is passed over. -/
theorem Ready.comes_skip (hf : f.WellFormed) {m : Marker} {r : Except TreeFault (List Piece)}
    (h : Ready f (.skip m :: tasks) a place rest) (ih : ComesAnywhere f category grouped tasks r) :
    Comes f category grouped (.skip m :: tasks) a place rest (andThen (.ok [.marker m]) r) := by
  obtain ⟨before, k, after, hlist, hlength, ⟨hfinal, hnew, hk, helement, hmetadata, hchildren⟩,
    hafter⟩ := h.head
  have hchild := getElem?_of_eq_append hlist hlength
  have hstep : result (step (Interleaved.visit category grouped) a.progress) a.forest a.state =
      (.ok { a.progress with stack := ⟨place.node, place.next + 1⟩ :: rest }, a.forest,
        a.state) := by
    rw [result_step _ _ h.stack, hchild]
    simp only [result_handleChild, if_pos hfinal, h.stack]
    rfl
  have hleaves (may moves : NodeId → Prop) : Leaves may moves a
      ⟨{ a.progress with stack := ⟨place.node, place.next + 1⟩ :: rest }, a.forest, a.state⟩ :=
    .of_forest_eq h.wellFormed rfl (fun m hm => Or.inl hm) rfl rfl
  have hready := h.tail (hleaves _ (MovedBy f category tasks)) rfl (by
    rw [Revision.pending, hlist, ← hlength]
    simpa using hafter)
  have hadvances : Advances f category (.skip m :: tasks) tasks a _ place rest [k] [.marker m] :=
    { ready := hready
      leaves := hleaves _ _
      touched := fun m hm => hm.tail
      moved := fun m hm => hm.tail
      take_eq := take_succ_of_eq_append hlist hlength
      shown := .marker hnew helement hmetadata hchildren .nil
      told := fun more t htold => htold.skip m }
  exact hadvances.comes hf (Reaches.of_step h.stack hstep) (Nat.le_refl _) (ih _ _ _ hready)

/-- Where a child is visited, it is neither final nor was it offered. -/
theorem Ready.result_step_visit {before after : List NodeId}
    (h : Ready f (t :: tasks) a place rest)
    (hlist : a.forest.children place.node = before ++ k :: after)
    (hlength : before.length = place.next) (hk : t.Touches f k) :
    result (step (Interleaved.visit category grouped) a.progress) a.forest a.state =
      match Interleaved.visit category grouped k a.forest a.state with
      | (.error e, g, s) => (.error (.visitor e), g, s)
      | (.ok answer, g, s) =>
        match answer.toAction k with
        | .error e => (.error (.fault e), g, s)
        | .ok action =>
          result (carryOut { a.progress with offered := k :: a.progress.offered } place k action)
            g s := by
  have hfinal : k ∉ a.progress.final := fun hmem =>
    absurd (h.lt_size k (Touched.head hk)) (Nat.not_lt.2 (h.final k hmem))
  rw [result_step _ _ h.stack, getElem?_of_eq_append hlist hlength]
  simp only [result_handleChild, if_neg hfinal, if_neg (h.fresh k (Touched.head hk))]
  rcases Interleaved.visit category grouped k a.forest a.state with ⟨_ | _, _, _⟩ <;> rfl

/-- A step that deletes a child changes the place only, and moves no other node. -/
theorem Leaves.of_deletion {before after : List NodeId} (ha : a.forest.WellFormed)
    (hlist : a.forest.children p = before ++ k :: after)
    (hforest : b.forest = a.forest.replaced p k before after [])
    (hoffered : b.progress.offered = k :: a.progress.offered)
    (hfinal : b.progress.final = a.progress.final)
    (habsorbed : b.state.absorbed = a.state.absorbed) :
    Leaves (fun m => m = p ∨ m = k) (fun m => m = k) a b where
  wellFormed := by
    rw [hforest]
    exact ha.replaced_nil hlist
  size_le := by
    rw [hforest]
    exact Nat.le_of_eq (sameData_replaced a.forest p k before after []).size_eq.symm
  element_eq m _ := by rw [hforest, (sameData_replaced a.forest p k before after []).element_eq]
  metadata_eq m _ := by rw [hforest, (sameData_replaced a.forest p k before after []).metadata_eq]
  children_eq m _ hno := by
    rw [hforest, children_replaced_nil ha hlist, if_neg fun hmp => hno (Or.inl hmp)]
  parent?_eq m _ hno := by rw [hforest, parent?_replaced_nil, if_neg hno]
  offered m hm := by
    rw [hoffered] at hm
    rcases List.mem_cons.1 hm with rfl | hm
    · exact Or.inr (Or.inr rfl)
    · exact Or.inl hm
  final_subset := by
    rw [hfinal]
    exact List.Subset.refl _
  final m hm := Or.inl (hfinal ▸ hm)
  absorbed_subset := by
    rw [habsorbed]
    exact List.Subset.refl _
  absorbed m hm := Or.inl (habsorbed ▸ hm)

/-- An admonition that was absorbed is deleted. -/
theorem Ready.comes_drop (hf : f.WellFormed) {r : Except TreeFault (List Piece)}
    (h : Ready f (.drop n :: tasks) a place rest) (ih : ComesAnywhere f category grouped tasks r) :
    Comes f category grouped (.drop n :: tasks) a place rest r := by
  obtain ⟨before, k, after, hlist, hlength, ⟨rfl, habsorbed⟩, hafter⟩ := h.head
  obtain ⟨b, hb⟩ : ∃ b : Config Interleaved.State, b =
    ⟨{ a.progress with
        stack := ⟨place.node, place.next⟩ :: rest, offered := k :: a.progress.offered },
      a.forest.replaced place.node k before after [], a.state⟩ := ⟨_, rfl⟩
  have hstep : result (step (Interleaved.visit category grouped) a.progress) a.forest a.state =
      (.ok b.progress, b.forest, b.state) := by
    rw [h.result_step_visit hlist hlength rfl, Interleaved.visit_absorbed habsorbed, hb]
    simp only [Revision.Answer.toAction, result_delete]
    rw [outcome_replaceChild_nil h.wellFormed hlist, hlength, h.stack]
    rfl
  have hleaves : Leaves (fun m => m = place.node ∨ Task.Touches f (.drop k) m)
      (Task.Moves f category (.drop k)) a b :=
    .of_deletion h.wellFormed hlist (by rw [hb]) (by rw [hb]) (by rw [hb]) (by rw [hb])
  have hplace : b.forest.children place.node = before ++ after := by
    rw [hb, children_replaced_nil h.wellFormed hlist, if_pos rfl]
  have hready := h.tail hleaves (by rw [hb]) (by
    rw [Revision.pending, hplace, ← hlength, List.drop_left]
    exact hafter)
  have hadvances : Advances f category (.drop k :: tasks) tasks a b place rest [] [] :=
    { ready := hready
      leaves := hleaves.mono (fun m hm => hm.imp id Touched.head) fun m hm => .head hm
      touched := fun m hm => hm.tail
      moved := fun m hm => hm.tail
      take_eq := by
        rw [hplace, hlist, List.length_nil, Nat.add_zero, ← hlength, List.take_left,
          List.take_left, List.append_nil]
      shown := .nil
      told := fun more t htold => by
        rw [hb] at htold
        exact htold.drop k }
  rw [← ok_nil_andThen r]
  exact hadvances.comes hf (Reaches.of_step h.stack hstep) (Nat.le_refl _) (ih _ _ _ hready)

/-! ### Below a child that stays -/

/-- What a run below a node comes to, where a place at the node was opened unless it has no
children. -/
def ComesBelow (f : Forest) (category : Value) (grouped : Bool) (n : NodeId)
    (a : Config Interleaved.State) (outer : List Frame) : Except TreeFault (List Piece) → Prop
  | .ok pieces => ∃ b,
      Reaches (Interleaved.visit category grouped) (cost f ((f.children n).map .visit) + 1) a b ∧
        b.progress.stack = outer ∧
          Leaves (f.AtOrAbove n) (fun m => f.Ancestor n m ∧ Moved f category m) a b ∧
            Shown f b.forest pieces (b.forest.children n) ∧
              Told f category ((f.children n).map .visit) pieces a.state b.state
  | .error e =>
      Fails (Interleaved.visit category grouped) (cost f ((f.children n).map .visit) + 1) a e

/-- The trees of the children of a node are apart from each other. -/
theorem pairwise_children (hf : f.WellFormed) (n : NodeId) :
    ((f.children n).map .visit).Pairwise (Task.Apart f) := by
  refine List.pairwise_map.2 ((hf.nodup_children n).imp_of_mem fun hc hd hne m hm hm' => ?_)
  exact hne (hf.eq_of_siblings hc hd hm hm')

/-- The children of a node to be visited are ready to be visited. -/
theorem Ready.below (hf : f.WellFormed) {outer : List Frame} (hwf : a.forest.WellFormed)
    (hsize : f.size ≤ a.forest.size) (hstack : a.progress.stack = ⟨n, 0⟩ :: outer)
    (hfinal : ∀ m ∈ a.progress.final, f.size ≤ m) (hready : Task.ReadyAt f a (.visit n) n)
    (hfresh : ∀ m, f.Ancestor n m → m ∉ a.progress.offered)
    (houter : ∀ frame ∈ outer, ¬ f.Ancestor n frame.node) :
    Ready f ((f.children n).map .visit) a ⟨n, 0⟩ outer := by
  obtain ⟨-, hsame, habsorbed⟩ := hready
  refine ⟨hwf, hsize, hstack, hfinal, ?_, pairwise_children hf n, fun m hm => ?_, fun m hm => ?_,
    fun frame hframe hm => ?_⟩
  · rw [Revision.pending, List.drop_zero, hsame.children_eq, List.forall₂_map_left_iff,
      List.forall₂_same]
    intro c hc
    refine ⟨rfl, hsame.child hf hc, fun m hm => habsorbed m ?_⟩
    exact (hf.ancestor_of_mem hc).atOrAbove.trans hm
  · exact ((touched_children_iff hf).1 hm).lt_size
  · exact hfresh m ((touched_children_iff hf).1 hm)
  · rw [touched_children_iff hf] at hm
    rcases List.mem_cons.1 hframe with rfl | hframe
    · exact hf.not_ancestor_self n hm
    · exact houter frame hframe hm

/-- After the tasks of the children of a node, the place at the node is closed. -/
theorem Comes.below (hf : f.WellFormed) {below : Except TreeFault (List Piece)} {outer : List Frame}
    (h : Comes f category grouped ((f.children n).map .visit) a ⟨n, 0⟩ outer below) :
    ComesBelow f category grouped n a outer below := by
  cases below with
  | error e => exact Fails.mono h (Nat.le_succ _)
  | ok pieces =>
      obtain ⟨b, hreaches, hleaves, ⟨nodes, hstack, hchildren, hshown⟩, htold⟩ := h
      rw [List.take_zero, List.nil_append] at hchildren
      have hstep : result (step (Interleaved.visit category grouped) b.progress) b.forest b.state =
          (.ok { b.progress with stack := outer }, b.forest, b.state) := by
        rw [result_step _ _ hstack, hchildren,
          List.getElem?_eq_none (Nat.le_of_eq (Nat.zero_add _).symm)]
      refine ⟨⟨{ b.progress with stack := outer }, b.forest, b.state⟩,
        hreaches.trans (.of_step hstack hstep), rfl, ?_, ?_, htold⟩
      · refine (hleaves.mono (fun m hm => ?_) fun m hm => moved_of_movedBy_children hf hm).trans
          (.of_forest_eq hleaves.wellFormed rfl (fun m hm => Or.inl hm) rfl rfl)
        rcases hm with rfl | hm
        · exact .refl f _
        · exact ((touched_children_iff hf).1 hm).atOrAbove
      · rw [hchildren]
        exact hshown

theorem comesBelow (hf : f.WellFormed) {below : Except TreeFault (List Piece)} {outer : List Frame}
    (hbelow : Yields f category grouped ((f.children n).map .visit) below)
    (ih : ComesAnywhere f category grouped ((f.children n).map .visit) below)
    (hwf : a.forest.WellFormed) (hsize : f.size ≤ a.forest.size)
    (hstack : a.progress.stack = descendInto a.forest n outer)
    (hfinal : ∀ m ∈ a.progress.final, f.size ≤ m) (hready : Task.ReadyAt f a (.visit n) n)
    (hfresh : ∀ m, f.Ancestor n m → m ∉ a.progress.offered)
    (houter : ∀ frame ∈ outer, ¬ f.Ancestor n frame.node) :
    ComesBelow f category grouped n a outer below := by
  have hchildren := hready.2.1.children_eq
  rw [descendInto, hchildren] at hstack
  -- No place is opened at a node without children.
  by_cases hleaf : f.children n = []
  · rw [hleaf] at hbelow
    cases hbelow
    refine ⟨a, (Reaches.refl a).mono (Nat.zero_le _), ?_, ?_, ?_, ?_⟩
    · rw [hstack, hleaf]
      rfl
    · exact .of_forest_eq hwf rfl (fun m hm => Or.inl hm) rfl rfl
    · rw [hchildren, hleaf]
      exact .nil
    · rw [hleaf]
      exact .nil a.state
  · rw [if_neg (by simpa using hleaf)] at hstack
    exact (ih a ⟨n, 0⟩ outer (.below hf hwf hsize hstack hfinal hready hfresh houter)).below hf

/-- The configuration after a child was kept: the next place is below it, if it has children. -/
def afterKeep (category : Value) (a : Config Interleaved.State) (place : Frame) (rest : List Frame)
    (n : NodeId) : Config Interleaved.State :=
  ⟨⟨descendInto a.forest n (⟨place.node, place.next + 1⟩ :: rest), n :: a.progress.offered,
      a.progress.final⟩, a.forest, Interleaved.noteKept a.forest category a.state n⟩

theorem Leaves.afterKeep (ha : a.forest.WellFormed) :
    Leaves (f.AtOrAbove n) moves a (afterKeep category a place rest n) := by
  refine .of_forest_eq ha rfl (fun m hm => ?_) rfl (Interleaved.absorbed_noteKept ..)
  rcases List.mem_cons.1 hm with rfl | hm
  · exact Or.inr (.refl f _)
  · exact Or.inl hm

/-- A child that is not divided is kept: its tree is as it was, so the visitor decides as in the
forest the pass began with. -/
theorem Ready.reaches_afterKeep (hf : f.WellFormed) (hn : divided f category n = false)
    (h : Ready f (.visit n :: tasks) a place rest) :
    Reaches (Interleaved.visit category grouped) 1 a (afterKeep category a place rest n) := by
  obtain ⟨before, k, after, hlist, hlength, ⟨rfl, hsame, habsorbed⟩, -⟩ := h.head
  have hkeep : divided a.forest category k = false := by rw [divided_eq hf hsame, hn]
  have hvisit : Interleaved.visit category grouped k a.forest a.state = _ :=
    Interleaved.visit_kept (habsorbed k (.refl f k)) hkeep
  refine Reaches.of_step h.stack ?_
  rw [h.result_step_visit hlist hlength (.refl f k), hvisit]
  simp only [Revision.Answer.toAction, result_keep, h.stack]
  rfl

/-- After a child was kept, the pass goes on below the child. -/
theorem Ready.comesBelow_afterKeep (hf : f.WellFormed) {below : Except TreeFault (List Piece)}
    (hbelow : Yields f category grouped ((f.children n).map .visit) below)
    (ihbelow : ComesAnywhere f category grouped ((f.children n).map .visit) below)
    (h : Ready f (.visit n :: tasks) a place rest) :
    ComesBelow f category grouped n (afterKeep category a place rest n)
      (⟨place.node, place.next + 1⟩ :: rest) below := by
  obtain ⟨before, k, after, -, -, ⟨rfl, hsame, habsorbed⟩, -⟩ := h.head
  have htouched {m : NodeId} (hm : f.Ancestor k m) : Touched f (.visit k :: tasks) m :=
    Touched.head hm.atOrAbove
  refine comesBelow hf hbelow ihbelow h.wellFormed h.size_le rfl h.final ⟨rfl, hsame, ?_⟩
    (fun m hm => ?_) fun frame hframe hm => ?_
  · rw [afterKeep, Interleaved.absorbed_noteKept]
    exact habsorbed
  · refine List.not_mem_cons_of_ne_of_not_mem ?_ (h.fresh m (htouched hm))
    rintro rfl
    exact hf.not_ancestor_self _ hm
  · rcases List.mem_cons.1 hframe with rfl | hframe
    · exact h.untouched place List.mem_cons_self (htouched hm)
    · exact h.untouched frame (List.mem_cons_of_mem _ hframe) (htouched hm)

/-- A child that is not divided stays, and its children are gone through. -/
theorem Ready.comes_keep (hf : f.WellFormed) {below r : Except TreeFault (List Piece)}
    (hn : divided f category n = false)
    (hbelow : Yields f category grouped ((f.children n).map .visit) below)
    (ihbelow : ComesAnywhere f category grouped ((f.children n).map .visit) below)
    (h : Ready f (.visit n :: tasks) a place rest) (ih : ComesAnywhere f category grouped tasks r) :
    Comes f category grouped (.visit n :: tasks) a place rest (andThen (do
      let pieces ← below
      .ok [.node n pieces]) r) := by
  have hfirst : Reaches (Interleaved.visit category grouped) 1 a _ := h.reaches_afterKeep hf hn
  have hcomes := h.comesBelow_afterKeep hf hbelow ihbelow
  obtain ⟨before, k, after, hlist, hlength, ⟨rfl, hsame, -⟩, hafter⟩ := h.head
  have hcost : 1 + (cost f ((f.children k).map .visit) + 1) + cost f tasks ≤
      cost f (.visit k :: tasks) := by
    rw [cost_cons, cost_below hf]
    omega
  cases below with
  | error e => exact (hfirst.fails hcomes).mono (Nat.le_trans (Nat.le_add_right _ _) hcost)
  | ok pieces =>
      obtain ⟨c, hreaches, hstack, hleaves', hshown, htold⟩ := hcomes
      -- The place itself is not touched below the child, so its children stand as before.
      have hall := (Leaves.afterKeep h.wellFormed).trans hleaves'
      have htouched : ∀ m, f.AtOrAbove k m → Touched f (.visit k :: tasks) m := fun m hm =>
        Touched.head hm
      have hmem : k ∈ a.forest.children place.node := by simp [hlist]
      have hplace : c.forest.children place.node = a.forest.children place.node :=
        hall.children_eq _ (lt_size_of_mem_children hmem) fun hm =>
          h.untouched place List.mem_cons_self (htouched _ hm)
      have hold : k < f.size := h.lt_size k (htouched k (.refl f k))
      have helement : c.forest.element k = f.element k := by
        rw [hall.element_eq k (h.wellFormed.lt_size_of_mem hmem), hsame.element_eq]
      have hmetadata : c.forest.metadata k = f.metadata k := by
        rw [hall.metadata_eq k (h.wellFormed.lt_size_of_mem hmem), hsame.metadata_eq]
      have hready := h.tail (hall.mono (fun m hm => Or.inr hm) fun m hm => hm) hstack (by
        rw [Revision.pending, hplace, hlist, ← hlength]
        simpa using hafter)
      have hadvances : Advances f category (.visit k :: tasks) tasks a c place rest [k]
          [.node k pieces] :=
        { ready := hready
          leaves := hall.mono (fun m hm => Or.inr (htouched m hm))
            fun m hm => .head ⟨hm.1.atOrAbove, hm.2⟩
          touched := fun m hm => hm.tail
          moved := fun m hm => hm.tail
          take_eq := by
            rw [hplace]
            exact take_succ_of_eq_append hlist hlength
          shown := .node hold helement hmetadata hshown .nil
          told := fun more t hmore => .keep hf hn (isTabs_eq hsame) hsame.element_eq htold hmore }
      exact hadvances.comes hf (hfirst.trans hreaches) hcost (ih _ _ _ hready)

end MarkdownTree.Tabs
