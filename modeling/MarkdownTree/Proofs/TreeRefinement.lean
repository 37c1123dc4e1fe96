import MarkdownTree.Proofs.PassEnds
import MarkdownTree.Proofs.PassRuns
import MarkdownTree.Proofs.TreeRewriting

/-!
A pass does what the plain recursion does. Where the recursion has trees left below a node, the pass
has a place there, behind as many children as the recursion has dealt with; the places further out
belong to the lists that the recursion has yet to come back to. `Tracks` says that a pass follows a
part of the recursion to its end; it has a rule for each way to compose parts.
-/

namespace MarkdownTree.Revision

open Forest Asking

variable {σ ε α β : Type} {visit : Visitor σ ε} {f g : Forest} {c m n p root : NodeId}
  {fuel j k : Nat} {calls : List (Call ε Answer)}

/-! ### Local answers -/

/-- A call that leaves the tree below `root` alone, keeps `root`, and names nothing but the node
that it is about, its children, and detached nodes. -/
structure Local (root : NodeId) (call : Call ε Answer) : Prop where
  wellFormed : call.before.WellFormed → call.after.WellFormed
  size_le : call.before.size ≤ call.after.size
  children_eq : ∀ n, call.before.AtOrAbove root n →
    call.after.children n = call.before.children n
  keep_root : call.node = root → ∀ action, Chose call action → action = .keep
  near : ∀ action, Chose call action → ∀ v ∈ action.values,
    ∃ m < call.after.size, v = .node m ∧ call.after.Near call.node m

/-- All calls that a pass makes from a configuration are local. -/
def Heedful (root : NodeId) (visit : Visitor σ ε) (a : Config (σ × List (Call ε Answer))) : Prop :=
  ∀ steps, AllGood (Local root) (a.run visit.traced steps).2.2

/-! ### Exact numbers of steps -/

section
variable {visit : Visitor σ ε} {a b c : Config σ}

/-- In exactly `n` steps a pass gets from one configuration to another. -/
def Leads (visit : Visitor σ ε) (n : Nat) (a b : Config σ) : Prop :=
  ∀ steps, a.run visit (steps + n) = b.run visit steps

namespace Leads

theorem refl (a : Config σ) : Leads visit 0 a a :=
  fun _ => rfl

theorem trans (hab : Leads visit j a b) (hbc : Leads visit k b c) : Leads visit (k + j) a c := by
  intro steps
  rw [← Nat.add_assoc, hab, hbc]

theorem of_step {place : Frame} {rest : List Frame} (hstack : a.progress.stack = place :: rest)
    (hstep : result (step visit a.progress) a.forest a.state =
      (.ok b.progress, b.forest, b.state)) : Leads visit 1 a b := by
  intro steps
  rw [run_succ hstack, hstep]

end Leads

/-- A run that is not out of steps comes to the same with more of them. -/
theorem run_add_eq (h : (a.run visit j).1 ≠ .error .exhausted) :
    a.run visit (j + k) = a.run visit j :=
  approximates_finish visit j k a.progress a.forest a.state h

theorem run_zero (a : Config σ) : (a.run visit 0).2 = (a.forest, a.state) := by
  rw [Config.run, finish]
  split <;> rfl

theorem run_zero_of_open {place : Frame} {rest : List Frame}
    (hstack : a.progress.stack = place :: rest) :
    a.run visit 0 = (.error .exhausted, a.forest, a.state) := by
  rw [Config.run, finish, hstack]
  rfl

end

/-! ### Following a part of the recursion -/

/-- A pass from configuration `a` does what a part of the recursion came to, which had so much fuel:
it gets to a configuration with the same forest and state; or it stops as the recursion did; or it
takes at least as many steps as there was fuel, and a place is still open. -/
inductive Follows (visit : Visitor σ ε) (fuel : Nat) (a : Config σ) (post : α → Config σ → Prop) :
    Except (Stop ε) α × Forest × σ → Prop
  | done {n : Nat} {b : Config σ} {x : α} (hleads : Leads visit n a b) (hpost : post x b) :
      Follows visit fuel a post (.ok x, b.forest, b.state)
  | stopped {steps : Nat} {stop : Stop ε} {g : Forest} {t : σ} (hstop : stop ≠ .exhausted)
      (hrun : a.run visit steps = (.error stop, g, t)) :
      Follows visit fuel a post (.error stop, g, t)
  | exhausted {n : Nat} {b : Config σ} {place : Frame} {rest : List Frame}
      (hleads : Leads visit n a b) (hfuel : fuel ≤ n) (hopen : b.progress.stack = place :: rest) :
      Follows visit fuel a post (.error .exhausted, b.forest, b.state)

namespace Follows

variable {visit : Visitor σ ε} {a b : Config σ} {post : α → Config σ → Prop}
  {out : Except (Stop ε) α × Forest × σ}

/-- Steps that were taken before count as fuel. -/
theorem after (h : Follows visit fuel b post out) (hleads : Leads visit n a b) :
    Follows visit (fuel + n) a post out := by
  cases h with
  | done hb hpost => exact .done (hleads.trans hb) hpost
  | @stopped steps _ _ _ hstop hrun => exact .stopped hstop ((hleads steps).trans hrun)
  | exhausted hb hfuel hopen =>
      exact .exhausted (hleads.trans hb) (Nat.add_le_add_right hfuel n) hopen

theorem of_le (h : Follows visit k a post out) (hle : j ≤ k) : Follows visit j a post out := by
  cases h with
  | done hleads hpost => exact .done hleads hpost
  | stopped hstop hrun => exact .stopped hstop hrun
  | exhausted hleads hfuel hopen => exact .exhausted hleads (Nat.le_trans hle hfuel) hopen

/-- Whatever the recursion came to, the pass gets to the same forest and state. -/
theorem exists_run (h : Follows visit fuel a post out) :
    ∃ steps, (a.run visit steps).2 = out.2 := by
  cases h with
  | @done n b x hleads hpost =>
      refine ⟨0 + n, ?_⟩
      rw [hleads, run_zero]
  | @stopped steps _ _ _ _ hrun => exact ⟨steps, by rw [hrun]⟩
  | @exhausted n b _ _ hleads _ _ =>
      refine ⟨0 + n, ?_⟩
      rw [hleads, run_zero]

end Follows

/-- A pass with local calls follows a part of the recursion from configuration `a` on. -/
def Tracks (root : NodeId) (visit : Visitor σ ε) (fuel : Nat)
    (a : Config (σ × List (Call ε Answer))) (x : Pass (σ × List (Call ε Answer)) ε α)
    (post : α → Config (σ × List (Call ε Answer)) → Prop) : Prop :=
  Heedful root visit a → Follows visit.traced fuel a post (result x a.forest a.state)

section
variable {a b : Config (σ × List (Call ε Answer))} {x : Pass (σ × List (Call ε Answer)) ε α}
  {post post' : α → Config (σ × List (Call ε Answer)) → Prop}

theorem Heedful.leads (h : Heedful root visit a) (hleads : Leads visit.traced n a b) :
    Heedful root visit b := by
  intro steps
  rw [← hleads]
  exact h (steps + n)

/-- The calls that a single step has noted are local, too. -/
theorem Heedful.step {place : Frame} {rest : List Frame} (h : Heedful root visit a)
    (hstack : a.progress.stack = place :: rest) :
    AllGood (Local root) (result (step visit.traced a.progress) a.forest a.state).2.2 := by
  have hrun := h 1
  rw [run_succ hstack] at hrun
  rcases hstep : result (Revision.step visit.traced a.progress) a.forest a.state with
    ⟨e | progress, g, t⟩ <;> simp only [hstep] at hrun
  · exact hrun
  · rwa [run_zero] at hrun

namespace Tracks

theorem pure {y : α} (hpost : post y a) :
    Tracks root visit fuel a (Pure.pure y : Pass (σ × List (Call ε Answer)) ε α) post :=
  fun _ => .done (.refl a) hpost

theorem bind {next : α → Pass (σ × List (Call ε Answer)) ε β}
    {final : β → Config (σ × List (Call ε Answer)) → Prop} (hx : Tracks root visit fuel a x post)
    (hnext : ∀ y b, post y b → Tracks root visit fuel b (next y) final) :
    Tracks root visit fuel a (x >>= next) final := by
  intro hheedful
  have hfirst := hx hheedful
  rw [result_bind]
  cases hout : result x a.forest a.state with
  | mk r rest =>
      rw [hout] at hfirst
      cases hfirst with
      | @done n b y hleads hpost =>
          exact ((hnext y b hpost (hheedful.leads hleads)).after hleads).of_le
            (Nat.le_add_right _ _)
      | stopped hstop hrun => exact .stopped hstop hrun
      | exhausted hleads hfuel hopen => exact .exhausted hleads hfuel hopen

/-- The pass may take steps of its own as long as it leaves the forest and the state alone. -/
theorem imp_leads (hx : Tracks root visit fuel a x post)
    (hpost : ∀ y b, post y b → ∃ n b', Leads visit.traced n b b' ∧ b'.forest = b.forest ∧
      b'.state = b.state ∧ post' y b') : Tracks root visit fuel a x post' := by
  intro hheedful
  have hfollows := hx hheedful
  cases hout : result x a.forest a.state with
  | mk r rest =>
      rw [hout] at hfollows
      cases hfollows with
      | @done n b y hleads hy =>
          obtain ⟨k, b', hleads', hforest, hstate, hy'⟩ := hpost y b hy
          rw [← hforest, ← hstate]
          exact .done (hleads.trans hleads') hy'
      | stopped hstop hrun => exact .stopped hstop hrun
      | exhausted hleads hfuel hopen => exact .exhausted hleads hfuel hopen

theorem imp (hx : Tracks root visit fuel a x post) (hpost : ∀ y b, post y b → post' y b) :
    Tracks root visit fuel a x post' :=
  hx.imp_leads fun y b hy => ⟨0, b, .refl b, rfl, rfl, hpost y b hy⟩

end Tracks

end

/-! ### Where the pass is -/

/-- The place that is left open at a branch: before the first of the trees to its right. -/
def behind (branch : Branch) : Frame :=
  ⟨branch.node, branch.left.length + 1⟩

/-- The pass has dealt with the trees `left` below `p`, and the trees `right` are left there. The
branches are around the tree of `p`, and what is left of their trees is to the right. -/
structure Matches (root : NodeId) (branches : List Branch) (p : NodeId) (left right : List Tree)
    (marks : Marks) (a : Config σ) : Prop where
  wellFormed : a.forest.WellFormed
  lt_size : root < a.forest.size
  tree : a.forest.tree root = plug branches (.node p (left ++ right))
  progress : a.progress =
    ⟨⟨p, left.length⟩ :: branches.map behind, marks.offered, marks.final⟩

/-- Nothing is left to do below `p`: the trees there are those that were dealt with before and those
that a part of the recursion has answered. -/
def Finishes (root : NodeId) (branches : List Branch) (p : NodeId) (left : List Tree)
    (out : Marks × List Tree) (a : Config σ) : Prop :=
  Matches root branches p (left ++ out.2) [] out.1 a

section
variable {branches : List Branch} {left right rest below : List Tree} {old : Tree} {marks : Marks}
  {a b : Config (σ × List (Call ε Answer))}

namespace Matches

section
variable (h : Matches root branches p left (old :: rest) marks a)

include h

theorem children_eq :
    a.forest.children p = left.map Tree.root ++ old.root :: rest.map Tree.root := by
  rw [children_of_plug h.wellFormed h.tree, List.map_append, List.map_cons]

theorem child_eq : (a.forest.children p)[left.length]? = some old.root := by
  rw [h.children_eq]
  simp

end

/-- A call that leaves the tree alone leaves the pass where it is. -/
theorem call {visited : NodeId} {answer : Except ε Answer} {t : σ × List (Call ε Answer)}
    (h : Matches root branches p left right marks a)
    (hlocal : Local root (⟨visited, a.forest, answer, g⟩ : Call ε Answer)) (offered : List NodeId) :
    Matches root branches p left right { marks with offered }
      ⟨{ a.progress with offered }, g, t⟩ := by
  have hg := hlocal.wellFormed h.wellFormed
  refine ⟨hg, Nat.lt_of_lt_of_le h.lt_size hlocal.size_le, ?_, by rw [h.progress]⟩
  rw [tree_congr h.wellFormed hg hlocal.children_eq, h.tree]

/-- More nodes are offered or final. -/
theorem remark (h : Matches root branches p left right marks a) (marks' : Marks) :
    Matches root branches p left right marks'
      { a with progress := ⟨a.progress.stack, marks'.offered, marks'.final⟩ } :=
  ⟨h.wellFormed, h.lt_size, h.tree, by rw [h.progress]⟩

/-- The first of the trees that are left stays where it is. -/
theorem advance (h : Matches root branches p left (old :: rest) marks a) :
    Matches root branches p (left ++ [old]) rest marks
      { a with progress := { a.progress with
        stack := setNext (left.length + 1) a.progress.stack } } := by
  refine ⟨h.wellFormed, h.lt_size, ?_, ?_⟩
  · rw [h.tree, List.append_assoc]
    rfl
  · simp only [h.progress, setNext, List.length_append, List.length_singleton]

end Matches

/-! ### Exchanging a tree -/

theorem exists_nodes_of_near {values : List Value}
    (h : ∀ v ∈ values, ∃ m < f.size, v = .node m ∧ f.Near c m) :
    ∃ nodes : List NodeId, values = nodes.map .node ∧ (∀ m ∈ nodes, m < f.size) ∧
      ∀ m ∈ nodes, f.Near c m := by
  induction values with
  | nil => exact ⟨[], rfl, by simp, by simp⟩
  | cons v values ih =>
      obtain ⟨m, hlt, rfl, hm⟩ := h v List.mem_cons_self
      obtain ⟨nodes, rfl, hlts, hnear⟩ := ih fun v hv => h v (List.mem_cons_of_mem _ hv)
      exact ⟨m :: nodes, rfl, List.forall_mem_cons.2 ⟨hlt, hlts⟩,
        List.forall_mem_cons.2 ⟨hm, hnear⟩⟩

/-- Nodes from nearby leave no children but those of the node that they take the place of. -/
theorem movedBack_of_near {nodes : List NodeId} {leaving : List (NodeId × Nat)} {frame : Frame}
    (hf : f.WellFormed) (hleaving : departures f c (nodes.map .node) = .ok leaving)
    (hnear : ∀ m ∈ nodes, f.Near c m) (hframe : frame.node ≠ c) :
    frame.movedBack leaving = frame := by
  have hzero : nodes.countP (fun n => n != c &&
      ((f.children frame.node).take frame.next).contains n) = 0 := by
    rw [List.countP_eq_zero]
    intro m hm
    simp only [Bool.and_eq_true, bne_iff_ne, List.contains_iff_mem, not_and]
    intro hmc htake
    have hmem : m ∈ f.children frame.node := List.mem_of_mem_take htake
    rcases hnear m hm with heq | hchild | hnone
    · exact hmc heq
    · exact hframe (hf.parent_unique hmem hchild)
    · rw [hf.parent?_of_mem hmem] at hnone
      cases hnone
  unfold Frame.movedBack
  rw [countP_departures hf hleaving, hzero]
  rfl

namespace Matches

variable {nodes : List NodeId} (h : Matches root branches p left (old :: rest) marks a)
  (hnear : ∀ m ∈ nodes, a.forest.Near old.root m)

include h hnear

/-- No place moves back when nodes from nearby come in. -/
theorem shift_eq : ∃ leaving, departures a.forest old.root (nodes.map .node) = .ok leaving ∧
    shift leaving a.progress.stack = a.progress.stack := by
  have hf := h.wellFormed
  obtain ⟨leaving, hleaving⟩ := exists_departures hf old.root nodes
  refine ⟨leaving, hleaving, ?_⟩
  have hmap : a.progress.stack.map (·.node) = p :: branches.map (·.node) := by
    simp only [h.progress, List.map_cons, List.map_map]
    rfl
  have hnodup : (a.progress.stack.map (·.node)).Nodup := by
    rw [hmap]
    exact nodup_of_plug (t := .node _ _) hf h.tree
  have hmem : old.root ∈ a.forest.children p := by simp [h.children_eq]
  rw [shift_eq_map hnodup]
  refine (List.map_congr_left fun frame hframe => ?_).trans (List.map_id _)
  refine movedBack_of_near hf hleaving hnear fun heq => ?_
  have hover : a.forest.AtOrAbove frame.node p := by
    have hframe' : frame.node ∈ p :: branches.map (·.node) :=
      hmap ▸ List.mem_map_of_mem hframe
    rcases List.mem_cons.1 hframe' with heq | hframe'
    · exact Or.inl heq
    · obtain ⟨branch, hbranch, heq⟩ := List.mem_map.1 hframe'
      exact heq ▸ (over_of_plug (t := .node p _) hf h.tree hbranch).atOrAbove
  exact hf.not_atOrAbove_of_mem hmem hover (heq ▸ .refl _ _)

/-- Nodes from nearby are refused, or they take the place of the tree. -/
theorem outcome_eq (hlt : ∀ m ∈ nodes, m < a.forest.size) :
    (∃ e, outcome (replaceChild p (.node old.root) (nodes.map .node)) a.forest =
      (.error e, a.forest)) ∨
    ∃ g, outcome (replaceChild p (.node old.root) (nodes.map .node)) a.forest =
        (.ok left.length, g) ∧
      Matches root branches p left (nodes.map (a.forest.named old nodes) ++ rest) marks
        { a with forest := g } := by
  have hf := h.wellFormed
  cases hcheck : a.forest.checkReplacement p [] (nodes.map .node) with
  | error e =>
      exact Or.inl ⟨e, outcome_replaceChild_refused (by simp [h.children_eq]) hcheck⟩
  | ok nodes' =>
      obtain ⟨heq, hfit, -⟩ := (checkReplacement_eq_ok_iff hf).1 hcheck
      have hnodes : nodes = nodes' := by rw [← nodesAmong_map nodes, heq, nodesAmong_map]
      subst hnodes
      have hindex : (without (left.map Tree.root) nodes).length = left.length := by
        rw [(without_of_near hf h.children_eq hnear).1, List.length_map]
      have hg := outcome_replaceChild hf h.children_eq hfit hlt
      rw [hindex] at hg
      refine Or.inr ⟨_, hg, hf.replaced h.children_eq hfit hlt, ?_, ?_, h.progress⟩
      · rw [(sameData_replaced a.forest p old.root _ _ nodes).size_eq]
        exact h.lt_size
      · exact tree_replaced hf h.tree hnear hfit hlt

/-- A substitution leaves the places alone. -/
theorem result_substitute :
    result (substitute p old.root (nodes.map .node) a.progress.stack : Pass _ ε (List Frame × Nat))
        a.forest a.state =
      match outcome (replaceChild p (.node old.root) (nodes.map .node)) a.forest with
      | (.ok index, g) => (.ok (a.progress.stack, index), g, a.state)
      | (.error e, g) => (.error (.fault e), g, a.state) := by
  obtain ⟨leaving, hleaving, hshift⟩ := h.shift_eq hnear
  rw [Revision.result_substitute, hleaving]
  rcases outcome (replaceChild p (.node old.root) (nodes.map .node)) a.forest with ⟨e | index, g⟩
  · rfl
  · simp only [hshift]

end Matches

end

/-! ### Rounds of the recursion -/

/-- A step of a pass comes to the same as a round of the recursion: both stop, or the pass follows
the rest of the round. -/
inductive Paired (root : NodeId) (visit : Visitor σ ε) (fuel : Nat)
    (post : α → Config (σ × List (Call ε Answer)) → Prop) :
    Except (Stop ε) Progress × Forest × (σ × List (Call ε Answer)) →
      Except (Stop ε) α × Forest × (σ × List (Call ε Answer)) → Prop
  | stop {stop : Stop ε} {g : Forest} {t : σ × List (Call ε Answer)} (hstop : stop ≠ .exhausted) :
      Paired root visit fuel post (.error stop, g, t) (.error stop, g, t)
  | goOn {b : Config (σ × List (Call ε Answer))} {x : Pass (σ × List (Call ε Answer)) ε α}
      (h : Tracks root visit fuel b x post) :
      Paired root visit fuel post (.ok b.progress, b.forest, b.state) (result x b.forest b.state)

section
variable {branches : List Branch} {left right rest below : List Tree} {old : Tree} {marks : Marks}
  {a b : Config (σ × List (Call ε Answer))} {post : α → Config (σ × List (Call ε Answer)) → Prop}

/-- A step and what follows it take a unit of fuel more. -/
theorem Tracks.of_paired {place : Frame} {frames : List Frame}
    {x : Pass (σ × List (Call ε Answer)) ε α} (hstack : a.progress.stack = place :: frames)
    (h : Heedful root visit a → Paired root visit fuel post
      (result (step visit.traced a.progress) a.forest a.state) (result x a.forest a.state)) :
    Tracks root visit (fuel + 1) a x post := by
  intro hheedful
  have hpaired := h hheedful
  generalize hstep : result (step visit.traced a.progress) a.forest a.state = out at hpaired
  generalize result x a.forest a.state = out' at hpaired ⊢
  cases hpaired with
  | stop hstop =>
      have hrun : a.run visit.traced (0 + 1) = _ := run_succ hstack 0
      rw [hstep] at hrun
      exact .stopped hstop hrun
  | goOn h =>
      have hleads := Leads.of_step hstack hstep
      exact (h (hheedful.leads hleads)).after hleads

/-- The recursion that is left is followed wherever the pass has a place for it. -/
def Followed (root : NodeId) (visit : Visitor σ ε) (fuel : Nat)
    (again : Rewriter (σ × List (Call ε Answer)) ε) : Prop :=
  ∀ {branches p left right marks a}, Matches root branches p left right marks a →
    Tracks root visit fuel a (again p marks right) (Finishes root branches p left)

/-! ### Below a node -/

/-- A place is opened below the last tree that was dealt with. -/
theorem Matches.descend (h : Matches root branches p (left ++ [.node n below]) rest marks b) :
    Matches root (⟨p, left, rest⟩ :: branches) n [] below marks
      { b with progress := { b.progress with stack := ⟨n, 0⟩ :: b.progress.stack } } := by
  refine ⟨h.wellFormed, h.lt_size, ?_, ?_⟩
  · rw [h.tree, List.append_assoc]
    rfl
  · simp only [h.progress, List.map_cons, behind, List.length_append, List.length_singleton,
      List.length_nil]

/-- When nothing is left below a node its place is closed, and it is the last tree that was dealt
with. -/
theorem Matches.ascend {b : Config σ} {visit : Visitor σ ε}
    (h : Matches root (⟨p, left, rest⟩ :: branches) n below [] marks b) :
    ∃ b', Leads visit 1 b b' ∧ b'.forest = b.forest ∧ b'.state = b.state ∧
      Matches root branches p (left ++ [.node n below]) rest marks b' := by
  have hstack : b.progress.stack =
      ⟨n, below.length⟩ :: ⟨p, left.length + 1⟩ :: branches.map behind := by
    rw [h.progress]
    rfl
  have hend : (b.forest.children n)[below.length]? = none := by
    rw [children_of_plug h.wellFormed h.tree]
    simp
  refine ⟨⟨{ b.progress with stack := ⟨p, left.length + 1⟩ :: branches.map behind }, b.forest,
    b.state⟩, .of_step hstack ?_, rfl, rfl, h.wellFormed, h.lt_size, ?_, ?_⟩
  · rw [result_step _ _ hstack]
    simp only [hend]
  · rw [h.tree, List.append_nil, List.append_assoc]
    rfl
  · rw [h.progress, List.length_append]
    rfl

/-- Below a node without children there is nothing to do. -/
theorem tracks_nil {place : Frame} {frames : List Frame}
    (hstack : a.progress.stack = place :: frames) (n : NodeId) (marks : Marks) :
    Tracks root visit fuel a (rewriteList visit.traced fuel n marks [])
      fun out b => out = (marks, []) ∧ b = a := by
  cases fuel with
  | zero => exact fun _ => .exhausted (.refl a) (Nat.le_refl 0) hstack
  | succ fuel => exact .pure ⟨rfl, rfl⟩

theorem tracks_rewriteBelow
    (hagain : Followed root visit fuel (rewriteList visit.traced fuel))
    (h : Matches root branches p (left ++ [.node n below]) rest marks b) (descend : Bool) :
    Tracks root visit fuel
      { b with progress := { b.progress with
        stack := if descend then descendInto b.forest n b.progress.stack else b.progress.stack } }
      (rewriteBelow (rewriteList visit.traced fuel) n descend marks below)
      fun out b' => Matches root branches p (left ++ [.node n out.2]) rest out.1 b' := by
  cases descend with
  | false => exact .pure h
  | true =>
      have hchildren : b.forest.children n = below.map Tree.root := by
        have htree := tree_of_mem_plug (t := .node n below) h.wellFormed h.tree (by simp)
        rw [Tree.root_node, h.wellFormed.tree_eq, Tree.node.injEq] at htree
        rw [← htree.2, map_root_map_tree]
      simp only [if_true, descendInto, hchildren, rewriteBelow]
      cases below with
      | nil =>
          have hstack : b.progress.stack =
              ⟨p, (left ++ [Tree.node n []]).length⟩ :: branches.map behind := by
            rw [h.progress]
          refine (tracks_nil hstack n marks).imp ?_
          rintro out b' ⟨rfl, rfl⟩
          exact h
      | cons t below =>
          refine (hagain h.descend).imp_leads fun out b' hfinishes => ?_
          obtain ⟨b'', hleads, hforest, hstate, hmatches⟩ := Matches.ascend hfinishes
          exact ⟨1, b'', hleads, hforest, hstate, hmatches⟩

theorem tracks_goOn (hagain : Followed root visit fuel (rewriteList visit.traced fuel))
    (h : Matches root branches p (left ++ [.node n below]) rest marks b) (descend : Bool) :
    Tracks root visit fuel
      { b with progress := { b.progress with
        stack := if descend then descendInto b.forest n b.progress.stack else b.progress.stack } }
      (goOn (rewriteList visit.traced fuel) p n descend marks below rest)
      (Finishes root branches p left) := by
  refine (tracks_rewriteBelow hagain h descend).bind fun out b' hbelow => ?_
  refine (hagain hbelow).bind fun out' b'' hrest => .pure ?_
  unfold Finishes at hrest ⊢
  rwa [List.append_assoc] at hrest

/-! ### Decisions -/

/-- What a pass does about a child comes to the same as what the recursion does about its tree. -/
theorem paired_decided (hagain : Followed root visit fuel (rewriteList visit.traced fuel))
    (h : Matches root branches p left (old :: rest) marks a) {action : Action}
    (hnear : ∀ v ∈ action.values,
      ∃ m < a.forest.size, v = .node m ∧ a.forest.Near old.root m) :
    Paired root visit fuel (Finishes root branches p left)
      (result (carryOut a.progress ⟨p, left.length⟩ old.root action) a.forest a.state)
      (result (decided (rewriteList visit.traced fuel) p old rest marks action)
        a.forest a.state) := by
  obtain ⟨nodes, hvalues, hlt, hnear⟩ := exists_nodes_of_near hnear
  have hsubstitute := h.result_substitute (ε := ε) hnear
  have houtcome := h.outcome_eq hnear hlt
  rw [← hvalues] at hsubstitute houtcome
  have hoffered : a.progress.offered = marks.offered := by rw [h.progress]
  have hfinal : a.progress.final = marks.final := by rw [h.progress]
  have hstays : setNext left.length a.progress.stack = a.progress.stack := by rw [h.progress]; rfl
  -- Such nodes are exchanged on both sides, or both sides stop with the same fault.
  cases action with
  | keep =>
      cases old with
      | node n below => exact .goOn (tracks_goOn hagain h.advance true)
  | replace v descend =>
      obtain ⟨m, rfl, rfl⟩ : ∃ m, nodes = [m] ∧ v = .node m := by
        obtain ⟨m, hm, hrest⟩ := List.map_eq_singleton_iff.1 hvalues.symm
        exact ⟨m, hm, hrest.symm⟩
      simp only [Action.values] at hsubstitute houtcome
      simp only [carryOut, decided, result_bind, hsubstitute, result_exchange]
      rcases houtcome with ⟨e, he⟩ | ⟨g, hg, hmatches⟩
      · simp only [he]
        exact .stop (by simp)
      · simp only [hg, result_forest, result_pure]
        have hput : [m].map (a.forest.named old [m]) ++ rest =
            .node m (a.forest.named old [m] m).children :: rest := by
          rw [List.map_singleton, List.singleton_append, ← Tree.node_root_children
            (a.forest.named old [m] m), root_named, Tree.children_node]
        rw [hput] at hmatches
        have hadvance := (hmatches.remark { marks with offered := m :: marks.offered }).advance
        have htracks := tracks_goOn hagain hadvance descend
        simp only [hoffered, hfinal]
        exact .goOn htracks
  | splice values final =>
      simp only [Action.values] at hsubstitute houtcome
      simp only [carryOut, decided, result_bind, hsubstitute, result_exchange]
      rcases houtcome with ⟨e, he⟩ | ⟨g, hg, hmatches⟩
      · simp only [he]
        exact .stop (by simp)
      · simp only [hg, result_pure]
        have hnodes : nodesAmong values = nodes := by
          rw [← nodesAmong_map nodes, ← hvalues]
          rfl
        have htracks := hagain (hmatches.remark { marks with
          final := nodes.filter (final.nodes values).contains ++ marks.final })
        simp only [hoffered, hfinal, hstays, hnodes]
        exact .goOn htracks
  | delete =>
      simp only [Action.values] at houtcome
      simp only [result_delete, decided, result_bind, result_exchange]
      rcases houtcome with ⟨e, he⟩ | ⟨g, hg, hmatches⟩
      · simp only [he]
        exact .stop (by simp)
      · simp only [hg]
        have hnone : nodes = [] := List.map_eq_nil_iff.1 hvalues.symm
        rw [hnone] at hmatches
        have htracks := hagain hmatches
        simp only [hstays]
        exact .goOn htracks

/-- The recursion is followed to its end, or for as many steps as it has fuel. -/
theorem followed_rewriteList (root : NodeId) (visit : Visitor σ ε) (fuel : Nat) :
    Followed root visit fuel (rewriteList visit.traced fuel) := by
  induction fuel with
  | zero =>
      intro branches p left right marks a h
      have hstack : a.progress.stack = ⟨p, left.length⟩ :: branches.map behind := by rw [h.progress]
      exact fun _ => .exhausted (.refl a) (Nat.le_refl 0) hstack
  | succ fuel ih =>
      intro branches p left right marks a h
      cases right with
      | nil =>
          refine .pure ?_
          unfold Finishes
          rwa [List.append_nil]
      | cons old rest =>
          obtain ⟨progress, f, s⟩ := a
          obtain rfl : progress = _ := h.progress
          refine .of_paired rfl fun hheedful => ?_
          have hcalls := hheedful.step rfl
          rw [result_step _ _ rfl, h.child_eq] at hcalls ⊢
          simp only [result_handleChild, result_rewriteList_cons] at hcalls ⊢
          -- A final child, one that was offered, and a new one: the recursion tells them apart too.
          by_cases hfinal : old.root ∈ marks.final
          · simp only [hfinal, if_true]
            cases old with
            | node n below => exact .goOn (tracks_goOn ih h.advance false)
          by_cases hoffered : old.root ∈ marks.offered
          · simp only [hfinal, hoffered, if_true, if_false]
            exact paired_decided ih h fun v hv => absurd hv List.not_mem_nil
          simp only [hfinal, hoffered, if_false] at hcalls ⊢
          rcases hvisit : visit old.root f s.1 with ⟨e | answer, g, t⟩
          · rw [traced_eq hvisit]
            exact .stop (by simp)
          · rw [traced_eq hvisit] at hcalls ⊢
            simp only at hcalls ⊢
            cases haction : answer.toAction old.root with
            | error e => exact .stop (by simp)
            | ok action =>
                simp only [haction] at hcalls ⊢
                have hlocal : Local root (⟨old.root, f, .ok answer, g⟩ : Call ε Answer) := by
                  generalize hout : result (carryOut _ _ old.root action) g _ = out at hcalls
                  obtain ⟨r, g', t'⟩ := out
                  cases state_carryOut _ hout
                  exact hcalls _ (List.mem_append_right _ List.mem_cons_self)
                have hasked := h.call (t := (t, s.2 ++ [⟨old.root, f, .ok answer, g⟩])) hlocal
                  (old.root :: marks.offered)
                exact paired_decided ih hasked (hlocal.near action (chose_ok_iff.2 haction))

end

/-! ### Ends -/

/-- What a pass below `root` comes to, with the tree that is left there. -/
def withTree (root : NodeId) :
    Except (Stop ε) Unit × Forest × σ → Except (Stop ε) Tree × Forest × σ
  | (.ok _, f, s) => (.ok (f.tree root), f, s)
  | (.error stop, f, s) => (.error stop, f, s)

/-- What the recursion below `root` comes to, with the tree that it makes. -/
def underRoot (root : NodeId) :
    Except (Stop ε) (Marks × List Tree) × Forest × σ → Except (Stop ε) Tree × Forest × σ
  | (.ok (_, below), f, s) => (.ok (.node root below), f, s)
  | (.error stop, f, s) => (.error stop, f, s)

section
variable {visit : Visitor σ ε} {a : Config σ}

theorem withTree_eq_exhausted {out : Except (Stop ε) Unit × Forest × σ} :
    (withTree root out).1 = .error .exhausted ↔ out.1 = .error .exhausted := by
  rcases out with ⟨stop | u, g, t⟩ <;> simp [withTree]

theorem underRoot_eq_exhausted {out : Except (Stop ε) (Marks × List Tree) × Forest × σ} :
    (underRoot root out).1 = .error .exhausted ↔ out.1 = .error .exhausted := by
  rcases out with ⟨stop | ⟨marks, below⟩, g, t⟩ <;> simp [underRoot]

/-- Runs that are not out of steps come to the same. -/
theorem run_eq_run (hj : (a.run visit j).1 ≠ .error .exhausted)
    (hk : (a.run visit k).1 ≠ .error .exhausted) : a.run visit j = a.run visit k := by
  rw [← run_add_eq (k := k) hj, ← run_add_eq (k := j) hk, Nat.add_comm]

/-- The recursion below the root has fuel enough for a pass of any number of steps. -/
theorem Follows.agrees {out : Except (Stop ε) (Marks × List Tree) × Forest × σ}
    (h : Follows visit fuel a (Finishes root [] root []) out) :
    out.1 = .error .exhausted ∧ (a.run visit fuel).1 = .error .exhausted ∨
      out.1 ≠ .error .exhausted ∧
        ∃ steps, withTree root (a.run visit steps) = underRoot root out := by
  cases h with
  | @done n b x hleads hfinishes =>
      obtain ⟨marks, trees⟩ := x
      obtain ⟨hf, -, htree, hprogress⟩ := hfinishes
      have hstack : b.progress.stack = [⟨root, trees.length⟩] := by rw [hprogress]; rfl
      have htree : b.forest.tree root = .node root trees := by
        rw [htree, List.append_nil]
        rfl
      have hend : (b.forest.children root)[trees.length]? = none := by
        have hplug : b.forest.tree root = plug [] (.node root trees) := htree
        rw [children_of_plug hf hplug]
        simp
      refine Or.inr ⟨nofun, 0 + 1 + n, ?_⟩
      rw [hleads, run_succ hstack, result_step _ _ hstack]
      simp only [hend]
      rw [Config.run, finish]
      simp only [List.isEmpty_nil, if_true, result_pure, withTree, underRoot, htree]
  | @stopped steps stop _ _ hstop hrun =>
      refine Or.inr ⟨fun he => hstop (Except.error.inj he), steps, ?_⟩
      rw [hrun]
      rfl
  | @exhausted n b place rest hleads hfuel hopen =>
      refine Or.inl ⟨rfl, ?_⟩
      -- A run that has ended stays the same with more steps, but here a place is still open.
      by_contra hne
      obtain ⟨more, rfl⟩ := Nat.exists_eq_add_of_le hfuel
      rw [← run_add_eq (k := more) hne, ← Nat.zero_add (fuel + more), hleads,
        run_zero_of_open hopen] at hne
      exact hne rfl

theorem agree_iff {out : Nat → Except (Stop ε) (Marks × List Tree) × Forest × σ}
    (h : ∀ fuel, Follows visit fuel a (Finishes root [] root []) (out fuel))
    {last : Except (Stop ε) Tree × Forest × σ} (hlast : last.1 ≠ .error .exhausted) :
    (∃ steps, withTree root (a.run visit steps) = last) ↔
      ∃ fuel, underRoot root (out fuel) = last := by
  constructor
  · rintro ⟨steps, rfl⟩
    have hsteps : (a.run visit steps).1 ≠ .error .exhausted :=
      fun he => hlast (withTree_eq_exhausted.2 he)
    rcases (h steps).agrees with ⟨-, he⟩ | ⟨hout, steps', hagree⟩
    · exact absurd he hsteps
    · refine ⟨steps, ?_⟩
      rw [← hagree, run_eq_run (fun he => hout ?_) hsteps]
      rw [← underRoot_eq_exhausted, ← hagree]
      exact withTree_eq_exhausted.2 he
  · rintro ⟨fuel, rfl⟩
    rcases (h fuel).agrees with ⟨he, -⟩ | ⟨-, hagree⟩
    · exact absurd (underRoot_eq_exhausted.2 he) hlast
    · exact hagree

end

/-! ### Whole passes -/

/-- Revises the tree below `root` in at most so many steps, and answers the tree of the result. -/
def reviseTree (visit : Visitor σ ε) (steps : Nat) (root : NodeId) : Pass σ ε Tree := do
  let top ← revise visit steps root
  pure ((← Asking.forest).tree top)

/-- Where a pass is when it has asked about the root and is to keep it. -/
def kept (root : NodeId) (f : Forest) (s : σ) : Config σ :=
  ⟨⟨[⟨root, 0⟩], [root], []⟩, f, s⟩

section
variable {s : σ} {t : σ}

/-- The first call of a pass is about its root. -/
theorem mem_passCalls {answer : Except ε Answer} (hvisit : visit root f s = (answer, g, t))
    (steps : Nat) : (⟨root, f, answer, g⟩ : Call ε Answer) ∈ passCalls visit steps root f s := by
  have hmem : (⟨root, f, answer, g⟩ : Call ε Answer) ∈ [(⟨root, f, answer, g⟩ : Call ε Answer)] :=
    List.mem_cons_self
  rw [passCalls, Asking.calls, result_revise, traced_eq hvisit, List.nil_append]
  cases answer with
  | error e => exact hmem
  | ok a =>
      simp only
      cases a.toAction root with
      | error e => exact hmem
      | ok action =>
          simp only
          rcases rootAction g root action with e | ⟨v, descend⟩
          · exact hmem
          cases v with
          | node new =>
              obtain ⟨more, hmore⟩ := mirrors_reviseAt visit steps root new descend [root] g t
                [⟨root, f, .ok a, g⟩]
              simp only [hmore]
              exact List.mem_append_left more hmem
          | _ => exact hmem

section
variable {a : Answer} (hvisit : visit root f s = (.ok a, g, t))
  (hkeep : a.toAction root = .ok .keep)

include hvisit hkeep

theorem result_revise_of_keep (steps : Nat) :
    result (revise visit.traced steps root) f (s, []) =
      match (kept root g (t, [(⟨root, f, .ok a, g⟩ : Call ε Answer)])).run visit.traced steps with
      | (.ok _, h, u) => (.ok root, h, u)
      | (.error stop, h, u) => (.error stop, h, u) := by
  rw [result_revise, traced_eq hvisit, List.nil_append]
  have htake : result (takePlace root root [root] : Pass _ ε (List NodeId)) g
      (t, [(⟨root, f, .ok a, g⟩ : Call ε Answer)]) =
      (.ok [root], g, (t, [⟨root, f, .ok a, g⟩])) := by
    rw [takePlace, if_pos rfl]
    rfl
  simp only [hkeep, rootAction, result_reviseAt _ _ htake, if_true, Config.run, kept]
  rcases result (finish visit.traced steps ⟨[⟨root, 0⟩], [root], []⟩) g
    (t, [(⟨root, f, .ok a, g⟩ : Call ε Answer)]) with ⟨_ | _, _, _⟩ <;> rfl

theorem result_reviseTree (steps : Nat) :
    result (reviseTree visit.traced steps root) f (s, []) =
      withTree root
        ((kept root g (t, [(⟨root, f, .ok a, g⟩ : Call ε Answer)])).run visit.traced steps) := by
  simp only [reviseTree, result_bind, result_revise_of_keep hvisit hkeep]
  rcases (kept root g (t, [(⟨root, f, .ok a, g⟩ : Call ε Answer)])).run visit.traced steps with
    ⟨_ | _, _, _⟩ <;> rfl

theorem passCalls_eq (steps : Nat) :
    passCalls visit steps root f s = ((kept root g
      (t, [(⟨root, f, .ok a, g⟩ : Call ε Answer)])).run visit.traced steps).2.2.2 := by
  rw [passCalls, Asking.calls, result_revise_of_keep hvisit hkeep]
  rcases (kept root g (t, [(⟨root, f, .ok a, g⟩ : Call ε Answer)])).run visit.traced steps with
    ⟨_ | _, _, _⟩ <;> rfl

theorem result_rewriteTree_keep (fuel : Nat) :
    result (rewriteTree visit.traced fuel (f.tree root)) f (s, []) =
      underRoot root (result (rewriteList visit.traced fuel root ⟨[root], []⟩
        (f.tree root).children) g (t, [(⟨root, f, .ok a, g⟩ : Call ε Answer)])) := by
  rw [result_rewriteTree, root_tree, traced_eq hvisit, List.nil_append]
  simp only [hkeep]
  rcases result (rewriteList visit.traced fuel root ⟨[root], []⟩ (f.tree root).children) g
    (t, [(⟨root, f, .ok a, g⟩ : Call ε Answer)]) with ⟨_ | ⟨_, _⟩, _, _⟩ <;> rfl

/-- The pass follows the recursion below the root. -/
theorem follows_below (hf : f.WellFormed) (hroot : root < f.size)
    (hlocal : ∀ steps, ∀ call ∈ passCalls visit steps root f s, Local root call) (fuel : Nat) :
    Follows visit.traced fuel (kept root g (t, [(⟨root, f, .ok a, g⟩ : Call ε Answer)]))
      (Finishes root [] root [])
      (result (rewriteList visit.traced fuel root ⟨[root], []⟩ (f.tree root).children) g
        (t, [⟨root, f, .ok a, g⟩])) := by
  have hcall := hlocal 0 _ (mem_passCalls hvisit 0)
  have hg := hcall.wellFormed hf
  have htree : g.tree root = f.tree root := tree_congr hf hg hcall.children_eq
  have hmatches : Matches root [] root [] (f.tree root).children ⟨[root], []⟩
      (kept root g (t, [(⟨root, f, .ok a, g⟩ : Call ε Answer)])) := by
    refine ⟨hg, Nat.lt_of_lt_of_le hroot hcall.size_le, ?_, rfl⟩
    rw [kept, htree, List.nil_append]
    exact (Tree.node_root_children (f.tree root)).symm
  refine followed_rewriteList root visit fuel hmatches fun steps => ?_
  rw [AllGood, ← passCalls_eq hvisit hkeep]
  exact hlocal steps

/-- If the visitor keeps every node, it is asked about the nodes of the tree in pre-order. -/
theorem visits_preorder (hf : f.WellFormed) (hroot : root < f.size)
    (hlocal : ∀ steps, ∀ call ∈ passCalls visit steps root f s, Local root call)
    (hkeeps : ∀ steps, ∀ call ∈ passCalls visit steps root f s, Chose call .keep) :
    ∃ enough, ∀ steps ≥ enough, ∃ h u calls,
      result (reviseTree visit.traced steps root) f (s, []) =
        (.ok (f.tree root), h, (u, calls)) ∧ calls.map (·.node) = f.preorder root := by
  have hnodes : f.preorder root = root :: Tree.preorders (f.tree root).children := by
    rw [← hf.preorder_tree, ← Tree.node_root_children (f.tree root)]
    rfl
  have hnodup := hf.nodup_preorder root
  rw [hnodes, List.nodup_cons] at hnodup
  -- A recursion that keeps all nodes needs no more fuel than there are nodes below the root.
  have hfollows := follows_below hvisit hkeep hf hroot hlocal
    ((Tree.preorders (f.tree root).children).length + 1)
  rcases hout : result (rewriteList visit.traced
    ((Tree.preorders (f.tree root).children).length + 1) root ⟨[root], []⟩ (f.tree root).children) g
    (t, [⟨root, f, .ok a, g⟩]) with ⟨r, h, u, calls⟩
  rw [hout] at hfollows
  have hcalls : AllGood (Chose · .keep) (u, calls) := by
    obtain ⟨steps, hrun⟩ := hfollows.exists_run
    have hmade := hkeeps steps
    rw [passCalls_eq hvisit hkeep, hrun] at hmade
    exact hmade
  have hnew : ∀ n ∈ Tree.preorders (f.tree root).children, n ∉ [root] := by
    intro n hn hmem
    rw [List.mem_singleton.1 hmem] at hn
    exact hnodup.1 hn
  obtain ⟨offered, rfl, -, hcalled⟩ :=
    kept_rewriteList hcalls (Nat.lt_succ_self _) hnodup.2 hnew hout
  rcases hfollows.agrees with ⟨he, -⟩ | ⟨-, enough, hagree⟩
  · cases he
  refine ⟨enough, fun steps hsteps => ⟨h, u, calls, ?_, ?_⟩⟩
  · obtain ⟨more, rfl⟩ := Nat.exists_eq_add_of_le hsteps
    have hne : ((kept root g (t, [(⟨root, f, .ok a, g⟩ : Call ε Answer)])).run visit.traced
        enough).1 ≠ .error .exhausted := by
      rw [ne_eq, ← withTree_eq_exhausted, hagree]
      exact nofun
    rw [result_reviseTree hvisit hkeep, run_add_eq hne, hagree, underRoot]
    rfl
  · rw [hcalled, hnodes]
    rfl

end

end

/-! ### Calls that are local -/

/-- A document with a quotation of a paragraph and two more paragraphs, and a paragraph apart. -/
def quoteFirst : Forest where
  nodes := #[⟨0, some 1, [], 0⟩, ⟨1, some 4, [0], 1⟩, ⟨2, some 4, [], 2⟩, ⟨3, some 4, [], 3⟩,
    ⟨4, none, [1, 2, 3], 4⟩, ⟨5, none, [], 5⟩]
  elements := #[.ofFields .paragraph [], .ofFields .blockQuote [], .ofFields .paragraph [],
    .ofFields .paragraph [], .ofFields .document [], .ofFields .paragraph []]
  records := #[[], [], [], [], [], []]

theorem wellFormed_quoteFirst : quoteFirst.WellFormed := by
  have hfirst := wellFormed_newNode wellFormed_empty (.ofFields .paragraph []) [] (by simp)
  have hquote := wellFormed_newNode hfirst (.ofFields .blockQuote []) [0] (by decide)
  have hsecond := wellFormed_newNode hquote (.ofFields .paragraph []) [] (by simp)
  have hthird := wellFormed_newNode hsecond (.ofFields .paragraph []) [] (by simp)
  have hdocument := wellFormed_newNode hthird (.ofFields .document []) [1, 2, 3] (by decide)
  exact wellFormed_newNode hdocument (.ofFields .paragraph []) [] (by simp)

/-- A call that leaves the forest as it is. -/
theorem local_of_same {a : Answer} (hkeep : n = root → a.toAction n = .ok .keep)
    (hnear : ∀ action, a.toAction n = .ok action → ∀ v ∈ action.values,
      ∃ m < f.size, v = .node m ∧ f.Near n m) : Local root (⟨n, f, .ok a, f⟩ : Call ε Answer) where
  wellFormed := id
  size_le := Nat.le_refl _
  children_eq _ _ := rfl
  keep_root hroot action hchose := by
    have haction := chose_ok_iff.1 hchose
    rw [hkeep hroot] at haction
    exact (Except.ok.inj haction).symm
  near action hchose := hnear action (chose_ok_iff.1 hchose)

theorem toAction_same (n : NodeId) : (Answer.value (.node n)).toAction n = .ok .keep :=
  congrArg Except.ok (if_pos rfl)

theorem local_of_keep (root n : NodeId) (f : Forest) :
    Local root (⟨n, f, .ok (.value (.node n)), f⟩ : Call ε Answer) := by
  refine local_of_same (fun _ => toAction_same n) fun action haction v hv => ?_
  rw [toAction_same] at haction
  cases haction
  exact absurd hv List.not_mem_nil

/-- A pass whose visitor keeps the root, leaves the tree alone, and names nothing but the node it is
asked about, the children of that node, and detached nodes does what the plain recursion does: it
makes the same calls in the same order and comes to the same tree, or stops in the same way. If the
visitor keeps every node, the calls are about the nodes of the tree in pre-order, and the tree stays
as it is. -/
theorem revise_refines_recursion (visit : Visitor σ ε) (root : NodeId) (f : Forest) (s : σ)
    (hf : f.WellFormed) (hroot : root < f.size)
    (hlocal : ∀ steps, ∀ call ∈ passCalls visit steps root f s, Local root call) :
    (∀ last : Except (Stop ε) Tree × Forest × (σ × List (Call ε Answer)),
      last.1 ≠ .error .exhausted →
        ((∃ steps, result (reviseTree visit.traced steps root) f (s, []) = last) ↔
          ∃ fuel, result (rewriteTree visit.traced fuel (f.tree root)) f (s, []) = last)) ∧
      ((∀ steps, ∀ call ∈ passCalls visit steps root f s, Chose call .keep) →
        ∃ enough, ∀ steps ≥ enough, ∃ g t calls,
          result (reviseTree visit.traced steps root) f (s, []) =
            (.ok (f.tree root), g, (t, calls)) ∧ calls.map (·.node) = f.preorder root) := by
  rcases hvisit : visit root f s with ⟨answer, g, t⟩
  have hcall := mem_passCalls hvisit
  -- If nothing comes of the call about the root, both stop there; otherwise it keeps the root.
  cases answer with
  | error e =>
      have hrevise (steps : Nat) : result (reviseTree visit.traced steps root) f (s, []) =
          (.error (.visitor e), g, (t, [⟨root, f, .error e, g⟩])) := by
        simp only [reviseTree, result_bind, result_revise, traced_eq hvisit, List.nil_append]
      have hrewrite (fuel : Nat) : result (rewriteTree visit.traced fuel (f.tree root)) f (s, []) =
          (.error (.visitor e), g, (t, [⟨root, f, .error e, g⟩])) := by
        simp only [result_rewriteTree, root_tree, traced_eq hvisit, List.nil_append]
      refine ⟨fun last _ => by simp only [hrevise, hrewrite, exists_const], fun hkeep => ?_⟩
      obtain ⟨a, ha, -⟩ := hkeep 0 _ (hcall 0)
      cases ha
  | ok a =>
      cases haction : a.toAction root with
      | error e =>
          have hrevise (steps : Nat) : result (reviseTree visit.traced steps root) f (s, []) =
              (.error (.fault e), g, (t, [⟨root, f, .ok a, g⟩])) := by
            simp only [reviseTree, result_bind, result_revise, traced_eq hvisit, List.nil_append,
              haction]
          have hrewrite (fuel : Nat) :
              result (rewriteTree visit.traced fuel (f.tree root)) f (s, []) =
                (.error (.fault e), g, (t, [⟨root, f, .ok a, g⟩])) := by
            simp only [result_rewriteTree, root_tree, traced_eq hvisit, List.nil_append, haction]
          refine ⟨fun last _ => by simp only [hrevise, hrewrite, exists_const], fun hkeep => ?_⟩
          have hkept := chose_ok_iff.1 (hkeep 0 _ (hcall 0))
          rw [haction] at hkept
          cases hkept
      | ok action =>
          have hkept := (hlocal 0 _ (hcall 0)).keep_root rfl action (chose_ok_iff.2 haction)
          rw [hkept] at haction
          refine ⟨fun last hlast => ?_, visits_preorder hvisit haction hf hroot hlocal⟩
          simp only [result_reviseTree hvisit haction, result_rewriteTree_keep hvisit haction]
          exact agree_iff (follows_below hvisit haction hf hroot hlocal) hlast

end MarkdownTree.Revision
