import MarkdownTree.Proofs.Expansion

/-!
The children that are still to come in a pass over tabs, as tasks: markup is skipped, an emptied
admonition is dropped, any other child is visited. `Yields` says what a list of tasks comes to. Its
rules are the steps of the pass, and a list of visits comes to the expansion of the list.
-/

namespace MarkdownTree.Tabs

open Forest Interleaved

variable {f : Forest} {category : Value} {grouped : Bool} {depth : Nat} {n : NodeId}

/-! ### Results one after the other -/

/-- Two results one after the other; the first failure wins. -/
def andThen (r r' : Except TreeFault (List Piece)) : Except TreeFault (List Piece) := do
  let first ← r
  let more ← r'
  .ok (first ++ more)

theorem andThen_ok_nil (r : Except TreeFault (List Piece)) : andThen r (.ok []) = r := by
  cases r with
  | error e => rfl
  | ok pieces => simp [andThen, bind, Except.bind]

theorem ok_nil_andThen (r : Except TreeFault (List Piece)) : andThen (.ok []) r = r := by
  cases r <;> rfl

theorem andThen_assoc (a b c : Except TreeFault (List Piece)) :
    andThen (andThen a b) c = andThen a (andThen b c) := by
  cases a with
  | error e => rfl
  | ok a =>
      cases b with
      | error e => rfl
      | ok b =>
          cases c with
          | error e => rfl
          | ok c => simp [andThen, bind, Except.bind]

/-! ### The recursion, one group at a time -/

theorem groups_kept (h : divided f category n = false) (rest : List NodeId) :
    groups f category grouped (n :: rest) = .kept n :: groups f category grouped rest := by
  rw [groups]
  simp [h]

theorem joinRun_false (n : NodeId) (gs : List Group) : joinRun false n gs = .run [n] :: gs := by
  rcases gs with _ | ⟨_ | _, _⟩ <;> rfl

/-- Divided children at the front of a list: those that share a container, and the others. -/
structure Front (f : Forest) (category : Value) (grouped : Bool)
    (rest members others : List NodeId) : Prop where
  rest_eq : rest = members ++ others
  divided : ∀ k ∈ members, divided f category k = true
  alone : grouped = false → members = []
  longest : grouped = true → ∀ k ∈ others.head?, Tabs.divided f category k = false

theorem groups_run (grouped : Bool) (h : divided f category n = true) (rest : List NodeId) :
    ∃ members others, Front f category grouped rest members others ∧
      groups f category grouped (n :: rest) =
        .run (n :: members) :: groups f category grouped others := by
  cases grouped with
  | false =>
      refine ⟨[], rest, ⟨rfl, by simp, fun _ => rfl, by simp⟩, ?_⟩
      rw [groups, if_pos h, joinRun_false]
  | true =>
      induction rest generalizing n with
      | nil =>
          refine ⟨[], [], ⟨rfl, by simp, by simp, by simp⟩, ?_⟩
          simp [groups, joinRun, h]
      | cons k rest ih =>
          by_cases hk : divided f category k = true
          · obtain ⟨members, others, hfront, hgroups⟩ := ih hk
            refine ⟨k :: members, others, ⟨?_, ?_, by simp, hfront.longest⟩, ?_⟩
            · rw [hfront.rest_eq, List.cons_append]
            · intro m hm
              rcases List.mem_cons.1 hm with rfl | hm
              · exact hk
              · exact hfront.divided m hm
            · rw [groups, if_pos h, hgroups]
              rfl
          · simp only [Bool.not_eq_true] at hk
            refine ⟨[], k :: rest, ⟨rfl, by simp, by simp, by simpa using hk⟩, ?_⟩
            rw [groups, if_pos h, groups_kept hk]
            rfl

theorem allOk_flatten_cons (r : Except TreeFault (List Piece))
    (rs : List (Except TreeFault (List Piece))) :
    (do
      let parts ← allOk (r :: rs)
      .ok parts.flatten) =
      andThen r (do
        let parts ← allOk rs
        .ok parts.flatten) := by
  cases r with
  | error e => rfl
  | ok first =>
      simp only [allOk, andThen, bind, Except.bind]
      cases allOk rs <;> rfl

theorem expandWithin_nil : expandWithin f category grouped (depth + 1) [] = .ok [] := rfl

theorem expandWithin_kept (h : divided f category n = false) (rest : List NodeId) :
    expandWithin f category grouped (depth + 1) (n :: rest) =
      andThen (expandGroup f (expandWithin f category grouped depth) (.kept n))
        (expandWithin f category grouped (depth + 1) rest) := by
  rw [expandWithin, groups_kept h, List.map_cons, allOk_flatten_cons]
  rfl

theorem expandWithin_run (grouped : Bool) (depth : Nat) (h : divided f category n = true)
    (rest : List NodeId) :
    ∃ members others, Front f category grouped rest members others ∧
      expandWithin f category grouped (depth + 1) (n :: rest) =
        andThen (expandGroup f (expandWithin f category grouped depth) (.run (n :: members)))
          (expandWithin f category grouped (depth + 1) others) := by
  obtain ⟨members, others, hfront, hgroups⟩ := groups_run grouped h rest
  refine ⟨members, others, hfront, ?_⟩
  rw [expandWithin, hgroups, List.map_cons, allOk_flatten_cons]
  rfl

/-! ### Tasks -/

/-- What the pass does with a child that is still to come. -/
inductive Task where
  | skip (m : Marker)
  | drop (n : NodeId)
  | visit (n : NodeId)

/-- Markup of a set of tabs is skipped, and its content is visited. -/
def Part.task : Part → Task
  | .marker m => .skip m
  | .content n => .visit n

/-- The next task is not to visit a divided admonition, and not to drop one either. -/
def Ends (f : Forest) (category : Value) : List Task → Prop
  | [] | .skip _ :: _ => True
  | .drop _ :: _ => False
  | .visit n :: _ => divided f category n = false

/-- Adjacent admonitions share a container: the first, the other members, and no more. -/
structure Run (f : Forest) (category : Value) (grouped : Bool) (n : NodeId) (members : List NodeId)
    (tasks : List Task) : Prop where
  first : divided f category n = true
  divided : ∀ k ∈ members, divided f category k = true
  alone : grouped = false → members = []
  ends : grouped = true → Ends f category tasks

/-- `Yields f category grouped tasks r` says that the tasks come to `r`. -/
inductive Yields (f : Forest) (category : Value) (grouped : Bool) :
    List Task → Except TreeFault (List Piece) → Prop
  | nil : Yields f category grouped [] (.ok [])
  | skip (m : Marker) {tasks : List Task} {r : Except TreeFault (List Piece)}
      (h : Yields f category grouped tasks r) :
      Yields f category grouped (.skip m :: tasks) (andThen (.ok [.marker m]) r)
  | drop (n : NodeId) {tasks : List Task} {r : Except TreeFault (List Piece)}
      (h : Yields f category grouped tasks r) : Yields f category grouped (.drop n :: tasks) r
  | keep {n : NodeId} {tasks : List Task} {below r : Except TreeFault (List Piece)}
      (hn : divided f category n = false)
      (hbelow : Yields f category grouped ((f.children n).map .visit) below)
      (h : Yields f category grouped tasks r) :
      Yields f category grouped (.visit n :: tasks) (andThen (do
        let pieces ← below
        .ok [.node n pieces]) r)
  | fail {n : NodeId} {members : List NodeId} {tasks : List Task} {e : TreeFault}
      (hrun : Run f category grouped n members tasks) (he : gather f (n :: members) = .error e) :
      Yields f category grouped (.visit n :: (members.map .visit ++ tasks)) (.error e)
  | divide {n : NodeId} {members : List NodeId} {labels : List String}
      {panels : List (List NodeId)} {tasks : List Task} {r : Except TreeFault (List Piece)}
      (hrun : Run f category grouped n members tasks)
      (hgather : gather f (n :: members) = .ok (labels, panels))
      (h : Yields f category grouped
        ((layout labels panels).map Part.task ++ (members.map .drop ++ tasks)) r) :
      Yields f category grouped (.visit n :: (members.map .visit ++ tasks)) r

/-! ### Visits come to the expansion -/

/-- The next task is to skip, if there is one. -/
def Closed (tasks : List Task) : Prop :=
  ∀ t ∈ tasks.head?, ∃ m, t = .skip m

/-- A list of children comes to a result before any tasks that begin with a skip. -/
def YieldsFirst (f : Forest) (category : Value) (grouped : Bool) (list : List NodeId)
    (first : Except TreeFault (List Piece)) : Prop :=
  ∀ tasks r, Closed tasks → Yields f category grouped tasks r →
    Yields f category grouped (list.map .visit ++ tasks) (andThen first r)

theorem Yields.withDrops {tasks : List Task} {r : Except TreeFault (List Piece)}
    (h : Yields f category grouped tasks r) (members : List NodeId) :
    Yields f category grouped (members.map .drop ++ tasks) r := by
  induction members with
  | nil => exact h
  | cons n members ih => exact .drop n ih

theorem Yields.withButtons {tasks : List Task} {r : Except TreeFault (List Piece)}
    (h : Yields f category grouped tasks r) (labels : List String) (i : Nat) :
    Yields f category grouped ((buttons i labels).map Part.task ++ tasks)
      (andThen (.ok ((labels.zipIdx i).map fun (l, j) => .marker (.button j l))) r) := by
  induction labels generalizing i with
  | nil =>
      rw [List.zipIdx_nil, List.map_nil, ok_nil_andThen]
      exact h
  | cons l labels ih =>
      have hrest := Yields.skip (.button i l) (ih (i + 1))
      rw [← andThen_assoc] at hrest
      exact hrest

theorem Yields.withPanels {tasks : List Task} {r : Except TreeFault (List Piece)}
    (h : Yields f category grouped tasks r) {panels : List (List NodeId)}
    {expandBelow : List NodeId → Except TreeFault (List Piece)}
    (hpanel : ∀ p ∈ panels, YieldsFirst f category grouped p (expandBelow p)) (i : Nat) :
    Yields f category grouped ((panelParts i panels).map Part.task ++ tasks)
      (andThen (do
        let contents ← allOk (panels.map expandBelow)
        .ok ((contents.zipIdx i).flatMap fun (pieces, j) =>
          .marker (.panelOpen j) :: pieces ++ [.marker .close])) r) := by
  induction panels generalizing i with
  | nil =>
      change Yields f category grouped tasks (andThen (.ok []) r)
      rw [ok_nil_andThen]
      exact h
  | cons p panels ih =>
      have hrest := ih (fun q hq => hpanel q (List.mem_cons_of_mem p hq)) (i + 1)
      -- From the last task to the first: the markup behind the panel, the panel, and what opens it.
      have hclose := Yields.skip .close hrest
      have hp := hpanel p List.mem_cons_self _ _ (by simp [Closed]) hclose
      have hopen := Yields.skip (.panelOpen i) hp
      have htasks : (panelParts i (p :: panels)).map Part.task ++ tasks =
          .skip (.panelOpen i) :: (p.map .visit ++
            (.skip .close :: ((panelParts (i + 1) panels).map Part.task ++ tasks))) := by
        simp [panelParts, Part.task, Function.comp_def]
      rw [htasks]
      convert hopen using 1
      rw [List.map_cons, allOk]
      cases expandBelow p with
      | error e => rfl
      | ok pieces =>
          cases allOk (panels.map expandBelow) with
          | error e => rfl
          | ok contents =>
              cases r with
              | error e => rfl
              | ok more => simp [andThen, bind, Except.bind]

theorem Yields.withLayout {tasks : List Task} {r : Except TreeFault (List Piece)}
    (h : Yields f category grouped tasks r) {panels : List (List NodeId)}
    {expandBelow : List NodeId → Except TreeFault (List Piece)}
    (hpanel : ∀ p ∈ panels, YieldsFirst f category grouped p (expandBelow p))
    (labels : List String) :
    Yields f category grouped ((layout labels panels).map Part.task ++ tasks)
      (andThen (do
        let contents ← allOk (panels.map expandBelow)
        .ok (markup labels contents)) r) := by
  have hclose := (Yields.skip .close h).withPanels hpanel 1
  have hbuttons := (Yields.skip .close hclose).withButtons labels 1
  have hall := Yields.skip .containerOpen (Yields.skip .labelsOpen hbuttons)
  have htasks : (layout labels panels).map Part.task ++ tasks =
      .skip .containerOpen :: .skip .labelsOpen :: ((buttons 1 labels).map Part.task ++
        (.skip .close :: ((panelParts 1 panels).map Part.task ++ (.skip .close :: tasks)))) := by
    simp [layout, Part.task]
  rw [htasks]
  convert hall using 1
  cases allOk (panels.map expandBelow) with
  | error e => rfl
  | ok contents =>
      cases r with
      | error e => rfl
      | ok more => simp [andThen, markup, bind, Except.bind]

theorem Closed.ends {tasks : List Task} (h : Closed tasks) : Ends f category tasks := by
  rcases tasks with _ | ⟨t, tasks⟩
  · trivial
  · obtain ⟨m, rfl⟩ := h t rfl
    trivial

/-- The front of a list is a run before the rest of the list and a skip. -/
theorem Front.run {rest members others : List NodeId} {tasks : List Task}
    (hfront : Front f category grouped rest members others) (hn : Tabs.divided f category n = true)
    (hclosed : Closed tasks) : Run f category grouped n members (others.map .visit ++ tasks) := by
  refine ⟨hn, hfront.divided, hfront.alone, fun hgrouped => ?_⟩
  rcases others with _ | ⟨k, others⟩
  · exact hclosed.ends
  · exact hfront.longest hgrouped k rfl

/-- A run comes to its group before what the tasks behind it come to. -/
theorem Yields.withRun {members : List NodeId} {tasks : List Task}
    {r : Except TreeFault (List Piece)} (h : Yields f category grouped tasks r)
    {expandBelow : List NodeId → Except TreeFault (List Piece)}
    (hrun : Run f category grouped n members tasks)
    (hpanel : ∀ p : List NodeId, (∀ c ∈ p, ∃ k ∈ n :: members, c ∈ f.children k) →
      YieldsFirst f category grouped p (expandBelow p)) :
    Yields f category grouped (.visit n :: (members.map .visit ++ tasks))
      (andThen (expandGroup f expandBelow (.run (n :: members))) r) := by
  rcases hgather : gather f (n :: members) with e | ⟨labels, panels⟩
  · have hfail : expandGroup f expandBelow (.run (n :: members)) = .error e := by
      simp [expandGroup, hgather, bind, Except.bind]
    rw [hfail]
    exact .fail hrun hgather
  · have hok : expandGroup f expandBelow (.run (n :: members)) = (do
        let contents ← allOk (panels.map expandBelow)
        .ok (markup labels contents)) := by
      simp [expandGroup, hgather, bind, Except.bind]
    rw [hok]
    refine .divide hrun hgather ((h.withDrops members).withLayout (fun p hp => ?_) labels)
    exact hpanel p fun c hc => mem_children_of_gather hgather hp hc

/-- Visits of a list come to its expansion. -/
theorem yieldsFirst_expandWithin (hf : f.WellFormed) (depth : Nat) (list : List NodeId)
    (hdepth : ∀ n ∈ list, f.EnoughFor n depth) :
    YieldsFirst f category grouped list (expandWithin f category grouped depth list) := by
  -- The depth serves what is further down, the length what is left of the list behind a group.
  induction depth generalizing list with
  | zero =>
      intro tasks r _ h
      rcases list with _ | ⟨n, rest⟩
      · show Yields f category grouped tasks (andThen (.ok []) r)
        rwa [ok_nil_andThen]
      · exact absurd (hdepth n List.mem_cons_self).1 (Nat.lt_irrefl 0)
  | succ depth ih =>
      intro tasks r hclosed h
      induction hlength : list.length using Nat.strongRecOn generalizing list with
      | ind length ih_list =>
          subst hlength
          rcases list with _ | ⟨n, rest⟩
          · rw [expandWithin_nil, ok_nil_andThen]
            exact h
          have hn := hdepth n List.mem_cons_self
          by_cases hdivided : divided f category n = true
          · obtain ⟨members, others, hfront, heq⟩ :=
              expandWithin_run grouped depth hdivided rest
            have hshorter : others.length < (n :: rest).length := by
              rw [hfront.rest_eq, List.length_cons, List.length_append]
              omega
            have hothers := ih_list others.length hshorter others
              (fun m hm => hdepth m (by simp [hfront.rest_eq, hm])) rfl
            rw [heq, hfront.rest_eq, List.map_cons, List.map_append, List.cons_append,
              List.append_assoc, andThen_assoc]
            refine hothers.withRun (hfront.run hdivided hclosed) fun p hp => ih p fun c hc => ?_
            obtain ⟨k, hk, hck⟩ := hp c hc
            have hmem : k ∈ n :: rest := by
              rw [hfront.rest_eq]
              rcases List.mem_cons.1 hk with rfl | hk
              · exact List.mem_cons_self
              · exact List.mem_cons_of_mem n (List.mem_append_left others hk)
            exact (hdepth k hmem).child hf hck
          · simp only [Bool.not_eq_true] at hdivided
            have hrest := ih_list rest.length (by simp) rest
              (fun m hm => hdepth m (List.mem_cons_of_mem n hm)) rfl
            have hbelow := ih (f.children n) (fun c hc => hn.child hf hc) [] (.ok [])
              (by simp [Closed])
              .nil
            rw [List.append_nil, andThen_ok_nil] at hbelow
            rw [expandWithin_kept hdivided, andThen_assoc]
            exact .keep hdivided hbelow hrest

/-- Visits of a list come to its expansion. -/
theorem yields_expand (hf : f.WellFormed) (list : List NodeId) :
    Yields f category grouped (list.map .visit) (expand f category grouped list) := by
  have hfirst : YieldsFirst f category grouped list (expand f category grouped list) :=
    yieldsFirst_expandWithin hf (f.size + 1) list fun n _ => .size_succ f n
  have h := hfirst [] (.ok []) (by simp [Closed]) .nil
  rwa [List.append_nil, andThen_ok_nil] at h

/-! ### Steps that tasks take -/

/-- A bound of the steps for a task: a visited child has four for each node of its tree. -/
def Task.cost (f : Forest) : Task → Nat
  | .skip _ | .drop _ => 1
  | .visit n => 4 * (f.preorder n).length

def cost (f : Forest) : List Task → Nat
  | [] => 0
  | t :: tasks => t.cost f + cost f tasks

theorem cost_cons (t : Task) (tasks : List Task) : cost f (t :: tasks) = t.cost f + cost f tasks :=
  rfl

theorem cost_append (tasks more : List Task) :
    cost f (tasks ++ more) = cost f tasks + cost f more := by
  induction tasks with
  | nil => exact (Nat.zero_add _).symm
  | cons t tasks ih => rw [List.cons_append, cost_cons, cost_cons, ih, Nat.add_assoc]

theorem cost_visits (list : List NodeId) :
    cost f (list.map .visit) = 4 * (list.flatMap f.preorder).length := by
  induction list with
  | nil => rfl
  | cons n list ih =>
      rw [List.map_cons, cost_cons, ih, List.flatMap_cons, List.length_append, Task.cost]
      omega

theorem cost_drops (list : List NodeId) : cost f (list.map .drop) = list.length := by
  induction list with
  | nil => rfl
  | cons n list ih =>
      rw [List.map_cons, cost_cons, ih, List.length_cons, Task.cost]
      omega

theorem cost_below (hf : f.WellFormed) (n : NodeId) :
    Task.cost f (.visit n) = 4 + cost f ((f.children n).map .visit) := by
  rw [Task.cost, hf.preorder_eq, cost_visits, List.length_cons]
  omega

theorem cost_buttons (labels : List String) (i : Nat) :
    cost f ((buttons i labels).map Part.task) = labels.length := by
  induction labels generalizing i with
  | nil => rfl
  | cons l labels ih =>
      rw [buttons, List.map_cons, cost_cons, ih, List.length_cons, Part.task, Task.cost]
      omega

theorem cost_panelParts (panels : List (List NodeId)) (i : Nat) :
    cost f ((panelParts i panels).map Part.task) =
      2 * panels.length + 4 * (panels.flatten.flatMap f.preorder).length := by
  induction panels generalizing i with
  | nil => rfl
  | cons p panels ih =>
      have hcontent : (p.map Part.content).map Part.task = p.map .visit := by
        simp [Part.task, Function.comp_def]
      rw [panelParts, List.map_append, List.map_cons, List.map_cons, cost_append, cost_cons,
        cost_cons, ih, hcontent, cost_visits, List.flatten_cons, List.flatMap_append,
        List.length_append, List.length_cons]
      simp only [Part.task, Task.cost]
      omega

theorem cost_layout (labels : List String) (panels : List (List NodeId)) :
    cost f ((layout labels panels).map Part.task) =
      4 + labels.length + 2 * panels.length + 4 * (panels.flatten.flatMap f.preorder).length := by
  simp only [layout, List.map_append, List.map_cons, List.map_nil, cost_append, cost_cons,
    cost_buttons, cost_panelParts, Part.task, Task.cost]
  simp only [cost]
  omega

/-- The children of a node with headings weigh as much as the content, and one for each heading. -/
theorem length_content_le (hf : f.WellFormed) (list : List NodeId) :
    (list.filter (isHeading f)).length +
        ((list.filter (!isHeading f ·)).flatMap f.preorder).length ≤
      (list.flatMap f.preorder).length := by
  induction list with
  | nil => exact Nat.le_refl _
  | cons c list ih =>
      have hc : 1 ≤ (f.preorder c).length := by
        rw [hf.preorder_eq, List.length_cons]
        omega
      by_cases h : isHeading f c = true
      · rw [List.filter_cons_of_pos h, List.filter_cons_of_neg (by simp [h]), List.flatMap_cons,
          List.length_append, List.length_cons]
        omega
      · rw [List.filter_cons_of_neg h, List.filter_cons_of_pos (by simp [h]), List.flatMap_cons,
          List.flatMap_cons, List.length_append, List.length_append]
        omega

theorem length_members_le (hf : f.WellFormed) (members : List NodeId) :
    members.length + (members.flatMap fun n => (f.children n).filter (isHeading f)).length +
        ((members.flatMap (contentOf f)).flatMap f.preorder).length ≤
      (members.flatMap f.preorder).length := by
  induction members with
  | nil => exact Nat.le_refl _
  | cons n members ih =>
      have hn := length_content_le hf (f.children n)
      simp only [List.flatMap_cons, List.flatMap_append, List.length_append, List.length_cons,
        hf.preorder_eq n]
      unfold contentOf at ih ⊢
      omega

/-- Turning divided admonitions into tabs leaves fewer steps than visiting them had. -/
theorem cost_divide (hf : f.WellFormed) {n : NodeId} {members : List NodeId} {tasks : List Task}
    {labels : List String} {panels : List (List NodeId)}
    (hrun : Run f category grouped n members tasks)
    (hgather : gather f (n :: members) = .ok (labels, panels)) :
    1 + cost f ((layout labels panels).map Part.task ++ (members.map .drop ++ tasks)) ≤
      cost f (.visit n :: (members.map .visit ++ tasks)) := by
  have hheading : ∀ k ∈ n :: members, hasHeading f k = true := by
    intro k hk
    have hk' : divided f category k = true := by
      rcases List.mem_cons.1 hk with rfl | hk
      · exact hrun.first
      · exact hrun.divided k hk
    exact (Bool.and_eq_true_iff.1 hk').2
  obtain ⟨hflat, hlength, hcount⟩ := gather_eq hheading hgather
  -- There is a heading, so the headings pay for the markup around the panels.
  have hsome : 1 ≤ labels.length := by
    obtain ⟨c, hc, hch⟩ := List.any_eq_true.1 (hheading n List.mem_cons_self)
    have hmem : c ∈ (f.children n).filter (isHeading f) := List.mem_filter.2 ⟨hc, hch⟩
    rw [hcount, List.flatMap_cons, List.length_append]
    have := List.length_pos_of_mem hmem
    omega
  have hle := length_members_le hf (n :: members)
  rw [← hflat, ← hcount, List.length_cons, List.flatMap_cons, List.length_append] at hle
  rw [cost_append, cost_append, cost_layout, cost_drops, cost_cons, cost_append, cost_visits,
    Task.cost]
  omega

end MarkdownTree.Tabs
