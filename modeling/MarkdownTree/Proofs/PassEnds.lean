import Mathlib.Algebra.GroupWithZero.Nat
import Mathlib.Data.List.Flatten
import MarkdownTree.Proofs.PassSteps

/-!
Passes end. A quiet visitor that names no node but those that exist when the pass starts, in
whatever order and however often, is asked at most once about each of them. Between two questions
the pass walks on over a tree that does not change. So each step pays from a potential: it counts
the nodes that were not offered yet, each as much as the longest walk, and the walk that is left.
-/

namespace MarkdownTree.Revision

open Forest Asking

variable {σ ε α : Type} {visit : Visitor σ ε} {f g : Forest} {bound c k m n new p root top : NodeId}
  {calls calls' : List (Call ε Answer)} {progress progress' : Progress} {place : Frame}
  {rest stack : List Frame} {steps : Nat}

/-! ### More steps -/

/-- One part of a pass comes to what another comes to, unless its steps run out. -/
def Approximates (x y : Pass σ ε α) : Prop :=
  ∀ f s, (result x f s).1 ≠ .error .exhausted → result y f s = result x f s

namespace Approximates

theorem refl (x : Pass σ ε α) : Approximates x x :=
  fun _ _ _ => rfl

theorem bind {β : Type} {x y : Pass σ ε α} {next next' : α → Pass σ ε β} (hx : Approximates x y)
    (hnext : ∀ a, Approximates (next a) (next' a)) : Approximates (x >>= next) (y >>= next') := by
  intro f s hres
  have hfirst := hx f s
  rw [result_bind] at hres
  rw [result_bind, result_bind]
  rcases hx : result x f s with ⟨e | a, g, t⟩ <;> rw [hx] at hres hfirst
  · rw [hfirst fun he => hres (congrArg Except.error (Except.error.inj he))]
  · rw [hfirst nofun]
    exact hnext a g t hres

end Approximates

theorem approximates_finish (visit : Visitor σ ε) (steps k : Nat) (progress : Progress) :
    Approximates (finish visit steps progress) (finish visit (steps + k) progress) := by
  induction steps generalizing progress with
  | zero =>
      intro f s hres
      unfold finish at hres ⊢
      split at hres
      · rename_i hempty
        cases 0 + k <;> simp [hempty]
      · exact absurd rfl hres
  | succ steps ih =>
      rw [Nat.succ_add]
      unfold finish
      split
      · exact .refl _
      · exact .bind (.refl _) fun progress' => ih progress'

theorem approximates_revise (visit : Visitor σ ε) (steps k : Nat) (root : NodeId) :
    Approximates (revise visit steps root) (revise visit (steps + k) root) := by
  refine .bind (.refl _) fun answer => .bind (.refl _) fun f => .bind (.refl _) fun chosen => ?_
  obtain ⟨v, descend⟩ := chosen
  cases v with
  | node new =>
      refine .bind (.refl _) fun offered => ?_
      cases descend with
      | true => exact .bind (approximates_finish visit steps k _) fun _ => .refl _
      | false => exact .refl _
  | _ => exact .refl _

/-! ### Nodes that exist at the start -/

/-- The answer of a call names no nodes but those with numbers below a bound. -/
def NamesBelow (bound : Nat) (call : Call ε Answer) : Prop :=
  ∀ action, Chose call action → ∀ n, .node n ∈ action.values → n < bound

/-- A pass has not left the nodes below a bound: below these there are no others. -/
structure Confined (bound : Nat) (top : NodeId) (progress : Progress) (f : Forest) : Prop where
  standing : Standing top progress f
  top_lt : top < bound
  le_size : bound ≤ f.size
  closed : ∀ p < bound, ∀ c ∈ f.children p, c < bound

namespace Confined

variable (h : Confined bound top progress f)

include h

theorem lt_bound (hn : n < bound) (hm : f.AtOrAbove n m) : m < bound := by
  rcases hm with rfl | hm
  · exact hn
  · induction hm with
    | parent hp => exact h.closed _ hn _ (h.standing.wellFormed.mem_of_parent? hp)
    | above hp _ ih => exact h.closed _ ih _ (h.standing.wellFormed.mem_of_parent? hp)

theorem place_lt (hn : n ∈ progress.stack.map (·.node)) : n < bound :=
  h.lt_bound h.top_lt (h.standing.chain.top_over hn)

theorem length_preorder_le (hn : n < bound) : (f.preorder n).length ≤ bound := by
  have hf := h.standing.wellFormed
  have hsub : f.preorder n ⊆ List.range bound := fun m hm =>
    List.mem_range.2 (h.lt_bound hn (hf.mem_preorder_iff.1 hm))
  simpa using (List.subperm_of_subset (hf.nodup_preorder n) hsub).length_le

theorem length_stack_le : progress.stack.length ≤ bound := by
  have hsub : progress.stack.map (·.node) ⊆ List.range bound := fun n hn =>
    List.mem_range.2 (h.place_lt hn)
  simpa using (List.subperm_of_subset (h.standing.chain.nodup h.standing.wellFormed) hsub).length_le

end Confined

/-! ### The walk that is left -/

/-- A bound of the steps that are left at a place if nothing changes: two for each node that is
still to come, and one to close the place. -/
def placeWalk (f : Forest) (place : Frame) : Nat :=
  1 + 2 * ((pending f place).flatMap f.preorder).length

/-- A bound of the steps that are left if nothing changes. -/
def walk (f : Forest) (stack : List Frame) : Nat :=
  (stack.map (placeWalk f)).sum

theorem walk_cons (f : Forest) (place : Frame) (rest : List Frame) :
    walk f (place :: rest) = placeWalk f place + walk f rest := rfl

/-- To pass a child saves two steps for each node at or below it. -/
theorem placeWalk_eq (hc : (f.children place.node)[place.next]? = some c) :
    placeWalk f place =
      2 * (f.preorder c).length + placeWalk f { place with next := place.next + 1 } := by
  unfold placeWalk
  rw [pending_eq_cons hc, List.flatMap_cons, List.length_append]
  omega

theorem length_preorder_eq (hf : f.WellFormed) (n : NodeId) :
    (f.preorder n).length = 1 + ((f.children n).flatMap f.preorder).length := by
  rw [hf.preorder_eq, List.length_cons, Nat.add_comm]

/-- To go on below a child takes a step less than was saved by passing it. -/
theorem walk_descendInto_lt (hf : f.WellFormed)
    (hc : (f.children place.node)[place.next]? = some c) (rest : List Frame) :
    walk f (descendInto f c ({ place with next := place.next + 1 } :: rest)) <
      walk f (place :: rest) := by
  have hpre := length_preorder_eq hf c
  have hbelow : placeWalk f ⟨c, 0⟩ = 1 + 2 * ((f.children c).flatMap f.preorder).length := rfl
  rw [walk_cons, placeWalk_eq hc]
  unfold descendInto
  split
  · rw [walk_cons]
    omega
  · rw [walk_cons, walk_cons]
    omega

theorem placeWalk_le (hf : f.WellFormed) (place : Frame) :
    placeWalk f place ≤ 2 * (f.preorder place.node).length := by
  have hsub : ((pending f place).flatMap f.preorder).length ≤
      ((f.children place.node).flatMap f.preorder).length :=
    (List.Sublist.flatMap (List.drop_sublist _ _) f.preorder).length_le
  have hpre := length_preorder_eq hf place.node
  unfold placeWalk
  omega

theorem walk_le_of_forall {most : Nat} (h : ∀ place ∈ stack, placeWalk f place ≤ most) :
    walk f stack ≤ stack.length * most := by
  induction stack with
  | nil => exact Nat.zero_le _
  | cons place rest ih =>
      have hplace := h place List.mem_cons_self
      have hrest := ih fun other hother => h other (List.mem_cons_of_mem place hother)
      rw [walk_cons, List.length_cons, Nat.succ_mul]
      omega

theorem Confined.walk_le (h : Confined bound top progress f) :
    walk f progress.stack ≤ 2 * bound * bound := by
  have hplace : ∀ place ∈ progress.stack, placeWalk f place ≤ 2 * bound := by
    intro place hmem
    have hlt := h.place_lt (List.mem_map_of_mem hmem)
    have hle := h.length_preorder_le hlt
    have hwalk := placeWalk_le h.standing.wellFormed place
    omega
  calc walk f progress.stack ≤ progress.stack.length * (2 * bound) := walk_le_of_forall hplace
    _ ≤ bound * (2 * bound) := Nat.mul_le_mul_right _ h.length_stack_le
    _ = 2 * bound * bound := Nat.mul_comm _ _

/-! ### Steps pay from a potential -/

/-- How many of the nodes below a bound were not offered yet. -/
def Progress.unoffered (progress : Progress) (bound : Nat) : Nat :=
  (List.range bound).countP (!progress.offered.contains ·)

/-- A node that is not offered yet weighs as much as the longest walk. -/
def potential (bound : Nat) (progress : Progress) (f : Forest) : Nat :=
  progress.unoffered bound * (2 * bound * bound + 1) + walk f progress.stack

theorem unoffered_lt (hc : c < bound) (hno : c ∉ progress.offered)
    (hsub : c :: progress.offered ⊆ progress'.offered) :
    progress'.unoffered bound < progress.unoffered bound := by
  have hfilter : (List.range bound).filter (!progress'.offered.contains ·) =
      ((List.range bound).filter (!progress.offered.contains ·)).filter
        (!progress'.offered.contains ·) := by
    rw [List.filter_filter]
    refine List.filter_congr fun n _ => ?_
    have hmore : n ∈ progress.offered → n ∈ progress'.offered := fun hn =>
      hsub (List.mem_cons_of_mem c hn)
    by_cases hn : n ∈ progress.offered
    · simp [hn, hmore hn]
    · simp [hn]
  have hc' : c ∈ progress'.offered := hsub List.mem_cons_self
  unfold Progress.unoffered
  rw [List.countP_eq_length_filter, List.countP_eq_length_filter, hfilter]
  refine List.length_filter_lt_length_iff_exists.2 ⟨c, ?_, by simpa using hc'⟩
  exact List.mem_filter.2 ⟨List.mem_range.2 hc, by simpa using hno⟩

/-- Nodes below a bound that come in do not lead beyond it. -/
theorem Changed.closed {action : Action} (hchanged : Changed p c f action g) (hf : f.WellFormed)
    (hclosed : ∀ p < bound, ∀ c ∈ f.children p, c < bound)
    (hnamed : ∀ n, .node n ∈ action.values → n < bound) :
    ∀ p < bound, ∀ c ∈ g.children p, c < bound := by
  cases hchanged with
  | keep => exact hclosed
  | @put _ before after nodes _ hvalues hlist _ _ =>
      intro q hq k hk
      rw [children_replaced hf hlist] at hk
      split at hk
      · rename_i hqp
        have hold : ∀ k ∈ before ++ c :: after, k < bound := by
          rw [← hlist, ← hqp]
          exact hclosed q hq
        rcases List.mem_append.1 hk with hk | hk
        · rcases List.mem_append.1 hk with hk | hk
          · exact hold k (List.mem_append_left _ (mem_without.1 hk).1)
          · exact hnamed k (hvalues ▸ List.mem_map_of_mem hk)
        · exact hold k (List.mem_append_right _ (List.mem_cons_of_mem c (mem_without.1 hk).1))
      · exact hclosed q hq k (mem_without.1 hk).1

theorem Changed.le_size {action : Action} (hchanged : Changed p c f action g)
    (hsize : bound ≤ f.size) : bound ≤ g.size := by
  cases hchanged with
  | keep => exact hsize
  | put _ _ _ _ _ => rwa [(sameData_replaced f p c _ _ _).size_eq]

/-- After an action fewer nodes below the bound are left to offer, which outweighs any walk. -/
theorem Confined.act {place : Frame} {rest : List Frame} {a : Answer} {action : Action}
    {f' : Forest} (h : Confined bound top progress f) (hstanding : Standing top progress' g)
    (hstack : progress.stack = place :: rest)
    (hc : (f.children place.node)[place.next]? = some c) (hoffered : c ∉ progress.offered)
    (hquiet : Quiet (⟨c, f, .ok a, f'⟩ : Call ε Answer))
    (hcarried : Carried { progress with offered := c :: progress.offered } place rest c f' action
      progress' g) (hnamed : ∀ n, .node n ∈ action.values → n < bound) :
    Confined bound top progress' g ∧ potential bound progress' g < potential bound progress f := by
  have hplace : place.node < bound := h.place_lt (by simp [hstack])
  have hf' := hquiet.wellFormed h.standing.wellFormed
  have hclosed : ∀ p < bound, ∀ c ∈ f'.children p, c < bound := by
    intro p hp c hc
    rw [hquiet.children_eq p (Nat.lt_of_lt_of_le hp h.le_size)] at hc
    exact h.closed p hp c hc
  have hsize : bound ≤ f'.size := Nat.le_trans h.le_size hquiet.size_le
  have hconfined : Confined bound top progress' g :=
    ⟨hstanding, h.top_lt, hcarried.changed.le_size hsize,
      hcarried.changed.closed hf' hclosed hnamed⟩
  have hoffers := unoffered_lt (h.closed _ hplace c (List.mem_of_getElem? hc)) hoffered
    (hcarried.recorded hstack).offered
  have hweight := Nat.mul_le_mul_right (2 * bound * bound + 1) (Nat.succ_le_of_lt hoffers)
  rw [Nat.succ_mul] at hweight
  have hwalk := hconfined.walk_le
  refine ⟨hconfined, ?_⟩
  unfold potential
  omega

theorem Confined.step (h : Confined bound top progress f)
    (hmoves : Moves progress f calls progress' g calls')
    (hnames : ∀ call ∈ calls', NamesBelow bound call) :
    Confined bound top progress' g ∧ potential bound progress' g < potential bound progress f := by
  have hstanding := h.standing.step hmoves
  have hf := h.standing.wellFormed
  cases hmoves with
  | @close place rest hstack hend =>
      refine ⟨⟨hstanding, h.top_lt, h.le_size, h.closed⟩, ?_⟩
      have hless : walk f rest < walk f (place :: rest) := by
        rw [walk_cons, placeWalk]
        omega
      unfold potential
      rw [hstack]
      exact Nat.add_lt_add_left hless _
  | @passOver place rest c hstack hc hfinal =>
      refine ⟨⟨hstanding, h.top_lt, h.le_size, h.closed⟩, ?_⟩
      have hless : walk f ({ place with next := place.next + 1 } :: rest) <
          walk f (place :: rest) := by
        have hpre := length_preorder_eq hf c
        rw [walk_cons, walk_cons, placeWalk_eq hc]
        omega
      unfold potential
      rw [hstack]
      exact Nat.add_lt_add_left hless _
  | @meet place rest c hstack hc hfinal hoffered =>
      refine ⟨⟨hstanding, h.top_lt, h.le_size, h.closed⟩, ?_⟩
      have hless := walk_descendInto_lt hf hc rest
      unfold potential
      rw [hstack]
      exact Nat.add_lt_add_left hless _
  | @act place rest c a action f' _ _ hstack hc hfinal hoffered hquiet haction hcarried =>
      exact h.act hstanding hstack hc hoffered hquiet hcarried
        (hnames _ (List.mem_append_right _ List.mem_cons_self) action ⟨a, rfl, haction⟩)

/-! ### Runs end -/

theorem ne_exhausted_carryOut {place : Frame} {action : Action} {s : σ} :
    (result (carryOut progress place c action : Pass σ ε Progress) f s).1 ≠
      .error .exhausted := by
  obtain ⟨r, g, hres, -⟩ := exists_result_carryOut (ε := ε) progress place c action f
  rw [hres]
  cases r with
  | error e => exact fun he => by cases he
  | ok progress' => exact fun he => by cases he

/-- A step stops for a fault or a failure of the visitor, not because steps run out. -/
theorem ne_exhausted_step {s : σ} (hstack : progress.stack = place :: rest) :
    (result (step visit progress) f s).1 ≠ .error .exhausted := by
  rw [result_step _ _ hstack]
  cases (f.children place.node)[place.next]? with
  | none => exact nofun
  | some c =>
      simp only [result_handleChild]
      split
      · exact nofun
      split
      · exact nofun
      rcases visit c f s with ⟨e | a, g, t⟩
      · exact nofun
      · simp only
        cases a.toAction c with
        | error e => exact nofun
        | ok action => exact ne_exhausted_carryOut

theorem walk_pos (f : Forest) (place : Frame) (rest : List Frame) : 0 < walk f (place :: rest) := by
  rw [walk_cons, placeWalk]
  omega

theorem Confined.finish {s t : σ × List (Call ε Answer)} {r : Except (Stop ε) Unit}
    (h : Confined bound top progress f) (hsteps : potential bound progress f ≤ steps)
    (hquiet : AllGood Quiet t) (hnames : AllGood (NamesBelow bound) t)
    (hres : result (finish visit.traced steps progress) f s = (r, g, t)) :
    r ≠ .error .exhausted := by
  induction steps generalizing progress f s with
  | zero =>
      unfold Revision.finish at hres
      split at hres
      · cases hres
        simp
      · rename_i hopen
        obtain ⟨place, rest, hstack⟩ := List.exists_cons_of_ne_nil fun hnil =>
          hopen (List.isEmpty_iff.2 hnil)
        have hpos := walk_pos f place rest
        rw [potential, hstack] at hsteps
        omega
  | succ steps ih =>
      unfold Revision.finish at hres
      split at hres
      · cases hres
        simp
      · rename_i hopen
        obtain ⟨place, rest, hstack⟩ := List.exists_cons_of_ne_nil fun hnil =>
          hopen (List.isEmpty_iff.2 hnil)
        rw [result_bind] at hres
        rcases hstep : result (Revision.step visit.traced progress) f s with ⟨e | progress₁, f₁, s₁⟩
        · have hne : (result (Revision.step visit.traced progress) f s).1 ≠ .error .exhausted :=
            ne_exhausted_step hstack
          rw [hstep] at hres hne
          cases hres
          exact fun he => hne (congrArg Except.error (Except.error.inj he))
        -- A step uses up some of the potential, and the steps that are left pay for the rest.
        · rw [hstep] at hres
          have hmirror := mirrors_finish visit steps progress₁
          have hmoves := h.standing.moves hstack (hmirror.allGood hres hquiet) hstep
          obtain ⟨hconfined, hless⟩ := h.step hmoves (hmirror.allGood hres hnames)
          exact ih hconfined (by omega) hres

/-! ### Whole passes -/

/-- So many steps are enough for a pass over a forest of `n` nodes: each node is paid for with the
longest walk, and there is the walk at the start. -/
def stepBound (n : Nat) : Nat :=
  (n + 1) * (2 * n * n + 1)

theorem potential_le_stepBound (h : Confined bound top progress f) :
    potential bound progress f ≤ stepBound bound := by
  have hcount : progress.unoffered bound ≤ bound := by
    have hle := List.countP_le_length (p := (!progress.offered.contains ·)) (l := List.range bound)
    rwa [List.length_range] at hle
  calc potential bound progress f
      ≤ bound * (2 * bound * bound + 1) + 2 * bound * bound :=
        Nat.add_le_add (Nat.mul_le_mul_right _ hcount) h.walk_le
    _ ≤ bound * (2 * bound * bound + 1) + (2 * bound * bound + 1) := Nat.le_succ _
    _ = stepBound bound := (Nat.succ_mul _ _).symm

/-- The nodes below a bound stay confined when one of them takes the place of the root. -/
theorem Confined.start (hf : f.WellFormed) (hnew : new < bound) (hsize : bound ≤ f.size)
    (hclosed : ∀ p < bound, ∀ c ∈ f.children p, c < bound) :
    Confined bound new (begun root new) (rootPlaced f root new) := by
  refine ⟨⟨wellFormed_rootPlaced hf root new, rfl⟩, hnew, ?_, fun p hp c hc => ?_⟩
  · unfold rootPlaced
    split
    · exact hsize
    · rwa [(sameData_detach f new).size_eq]
  · refine hclosed p hp c ?_
    unfold rootPlaced at hc
    split at hc
    · exact hc
    · rw [children_detach hf] at hc
      exact (List.mem_filter.1 hc).1

theorem ne_exhausted_revise {s : σ} {t : σ × List (Call ε Answer)} {r : Except (Stop ε) NodeId}
    (hf : f.WellFormed) (hroot : root < f.size) (hquiet : AllGood Quiet t)
    (hnames : AllGood (NamesBelow f.size) t)
    (hres : result (revise visit.traced (stepBound f.size) root) f (s, []) = (r, g, t)) :
    r ≠ .error .exhausted := by
  obtain ⟨call, hcall, -, hbefore, hbegins⟩ :=
    begins_revise hf (fun call hc => (hquiet call hc).wellFormed) hres
  have hq := hquiet call hcall
  have hafter := hq.wellFormed (hbefore ▸ hf)
  cases hbegins with
  | stop hstop => exact fun he => hstop (Except.error.inj he)
  | done _ _ => exact nofun
  | @goOn action new _ r _ _ hchose haction hfinish =>
      have hnew : new < f.size := by
        rcases rootAction_node haction with rfl | hvalue
        · exact hroot
        · exact hnames call hcall action hchose new hvalue
      have hclosed : ∀ p < f.size, ∀ c ∈ call.after.children p, c < f.size := by
        intro p hp c hc
        rw [hq.children_eq p (hbefore ▸ hp), hbefore] at hc
        exact hf.lt_size_of_mem hc
      have hstart : Confined f.size new (begun root new) (rootPlaced call.after root new) :=
        .start hafter hnew (hbefore ▸ hq.size_le) hclosed
      have hne := hstart.finish (potential_le_stepBound hstart) hquiet hnames hfinish
      cases r with
      | ok u => exact nofun
      | error stop => exact fun he => hne (congrArg Except.error (Except.error.inj he))

/-! ### Paragraphs that are put in place again and again -/

/-- Puts all three paragraphs in the place of each of them, the last one first. -/
def reversing : Visitor Unit Empty := fun n f s =>
  (.ok (.value (if n = 3 then .node 3 else .list [.node 2, .node 1, .node 0])), f, s)

/-- The document after the first paragraph was offered, and ever after. -/
def reversedParagraphs : Forest :=
  { threeParagraphs with nodes := #[⟨0, some 3, [], 0⟩, ⟨1, some 3, [], 1⟩, ⟨2, some 3, [], 2⟩,
      ⟨3, none, [2, 1, 0], 3⟩] }

theorem passCalls_reversing :
    passCalls reversing (stepBound 4) 3 threeParagraphs () = [
      ⟨3, threeParagraphs, .ok (.value (.node 3)), threeParagraphs⟩,
      ⟨0, threeParagraphs, .ok (.value (.list [.node 2, .node 1, .node 0])), threeParagraphs⟩,
      ⟨2, reversedParagraphs, .ok (.value (.list [.node 2, .node 1, .node 0])),
        reversedParagraphs⟩,
      ⟨1, reversedParagraphs, .ok (.value (.list [.node 2, .node 1, .node 0])),
        reversedParagraphs⟩] := rfl

theorem namesBelow_kept (n : NodeId) (f : Forest) (bound : Nat) :
    NamesBelow bound (⟨n, f, .ok (.value (.node n)), f⟩ : Call ε Answer) := by
  rintro action ⟨a, ha, haction⟩ m hm
  cases ha
  simp only [Answer.toAction, if_true, Except.ok.injEq] at haction
  subst haction
  exact absurd hm List.not_mem_nil

theorem quiet_reversing :
    ∀ call ∈ passCalls reversing (stepBound 4) 3 threeParagraphs (),
      Quiet call ∧ NamesBelow threeParagraphs.size call := by
  have hsplice (n : NodeId) {f : Forest} (hsize : f.size = 4) :
      Quiet (⟨n, f, .ok (.value (.list [.node 2, .node 1, .node 0])), f⟩ : Call Empty Answer) ∧
        NamesBelow 4 (⟨n, f, .ok (.value (.list [.node 2, .node 1, .node 0])), f⟩ :
          Call Empty Answer) := by
    have hlt : ∀ action, (Answer.value (.list [.node 2, .node 1, .node 0])).toAction n =
        .ok action → ∀ m, .node m ∈ action.values → m < 4 := by
      intro action haction m hm
      cases haction
      simp only [Action.values, List.mem_cons, Value.node.injEq, List.not_mem_nil, or_false] at hm
      rcases hm with rfl | rfl | rfl <;> decide
    refine ⟨quiet_of_same fun action haction v hv c hc => ?_, ?_⟩
    · rw [hsize]
      exact hlt action haction c (hc ▸ hv)
    · rintro action ⟨a, ha, haction⟩
      cases ha
      exact hlt action haction
  have hsize : threeParagraphs.size = 4 := rfl
  have hsize' : reversedParagraphs.size = 4 := rfl
  rw [passCalls_reversing, hsize]
  simp [quiet_kept, namesBelow_kept, hsplice _ hsize, hsplice _ hsize']

/-- A pass ends when its visitor is quiet and names no nodes but those that exist at the start: a
number of steps that depends on the size of the forest alone is enough, and more steps come to the
same. -/
theorem pass_ends (visit : Visitor σ ε) (root : NodeId) (f : Forest) (s : σ) (hf : f.WellFormed)
    (hroot : root < f.size)
    (hcalls : ∀ call ∈ passCalls visit (stepBound f.size) root f s,
      Quiet call ∧ NamesBelow f.size call) :
    (result (revise visit (stepBound f.size) root) f s).1 ≠ .error .exhausted ∧
      ∀ steps ≥ stepBound f.size, result (revise visit steps root) f s =
        result (revise visit (stepBound f.size) root) f s := by
  obtain ⟨calls, hres⟩ := mirrors_revise visit (stepBound f.size) root f s []
  have hmade : passCalls visit (stepBound f.size) root f s = calls := by
    rw [passCalls, Asking.calls, hres]
    rfl
  rw [hmade] at hcalls
  have hends := ne_exhausted_revise (t := (_, calls)) hf hroot (fun call hc => (hcalls call hc).1)
    (fun call hc => (hcalls call hc).2) hres
  refine ⟨hends, fun steps hsteps => ?_⟩
  obtain ⟨k, rfl⟩ := Nat.exists_eq_add_of_le hsteps
  exact approximates_revise visit _ k root f s hends

end MarkdownTree.Revision
