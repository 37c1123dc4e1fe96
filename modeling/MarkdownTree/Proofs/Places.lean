import MarkdownTree.Proofs.Passes

/-!
The places of a pass while nodes leave. What a step of a pass does is written out for each action.
Nodes that are taken out of the children of a node on the stack move its place back by as many as
stood before it, so the children that are still to come are the same, less those that left.
-/

namespace MarkdownTree.Revision

open Forest Asking

variable {σ ε : Type} {f : Forest} {c n p q : NodeId} {nodes list : List NodeId} {i index : Nat}
  {left : List (NodeId × Nat)} {stack : List Frame}

/-! ### Single steps -/

section
variable (visit : Visitor σ ε) (s : σ)

theorem result_attempt {α : Type} (r : Except TreeFault α) (f : Forest) :
    result (attempt r : Pass σ ε α) f s =
      match r with
      | .ok a => (.ok a, f, s)
      | .error e => (.error (.fault e), f, s) := by
  cases r <;> rfl

theorem result_substitute (p c : NodeId) (values : List Value) (stack : List Frame) (f : Forest) :
    result (substitute p c values stack : Pass σ ε (List Frame × Nat)) f s =
      match departures f c values with
      | .error e => (.error (.fault e), f, s)
      | .ok left =>
        match outcome (replaceChild p (.node c) values) f with
        | (.ok index, g) => (.ok (shift left stack, index), g, s)
        | (.error e, g) => (.error (.fault e), g, s) := by
  simp only [substitute, result_bind, result_forest, result_attempt]
  cases departures f c values with
  | error e => rfl
  | ok left =>
      simp only [result_edit]
      rcases outcome (replaceChild p (.node c) values) f with ⟨_ | _, _⟩ <;> rfl

theorem result_consult (n : NodeId) (offered : List NodeId) (f : Forest) :
    result (consult visit n offered) f s =
      if n ∈ offered then (.ok (.keep, offered), f, s)
      else
        match visit n f s with
        | (.error e, g, t) => (.error (.visitor e), g, t)
        | (.ok a, g, t) =>
          match a.toAction n with
          | .error e => (.error (.fault e), g, t)
          | .ok action => (.ok (action, n :: offered), g, t) := by
  unfold consult
  by_cases hoffered : n ∈ offered
  · simp [hoffered]
  · simp only [List.contains_eq_mem, hoffered, decide_false, Bool.false_eq_true, if_false,
      result_bind, result_ask]
    rcases visit n f s with ⟨e | a, g, t⟩
    · rfl
    · simp only [result_attempt]
      cases a.toAction n <;> rfl

/-- A child is passed over, or met again, or the visitor is asked and its decision is carried
out. -/
theorem result_handleChild (p : Progress) (place : Frame) (c : NodeId) (f : Forest) :
    result (handleChild visit p place c) f s =
      if c ∈ p.final then (.ok { p with stack := setNext (place.next + 1) p.stack }, f, s)
      else if c ∈ p.offered then result (carryOut p place c .keep) f s
      else
        match visit c f s with
        | (.error e, g, t) => (.error (.visitor e), g, t)
        | (.ok a, g, t) =>
          match a.toAction c with
          | .error e => (.error (.fault e), g, t)
          | .ok action =>
            result (carryOut { p with offered := c :: p.offered } place c action) g t := by
  unfold handleChild
  by_cases hfinal : c ∈ p.final
  · simp [hfinal]
  · simp only [List.contains_eq_mem, hfinal, decide_false, Bool.false_eq_true, if_false,
      result_bind, result_consult]
    by_cases hoffered : c ∈ p.offered
    · simp [hoffered]
    · simp only [hoffered, if_false]
      rcases visit c f s with ⟨e | a, g, t⟩
      · rfl
      · simp only
        cases a.toAction c <;> rfl

theorem result_step {p : Progress} {place : Frame} {rest : List Frame}
    (hstack : p.stack = place :: rest) (f : Forest) :
    result (step visit p) f s =
      match (f.children place.node)[place.next]? with
      | none => (.ok { p with stack := rest }, f, s)
      | some c => result (handleChild visit p place c) f s := by
  simp only [step, hstack, result_bind, result_forest]
  cases (f.children place.node)[place.next]? <;> rfl

theorem result_keep (p : Progress) (place : Frame) (c : NodeId) (f : Forest) :
    result (carryOut p place c .keep : Pass σ ε Progress) f s =
      (.ok { p with stack := descendInto f c (setNext (place.next + 1) p.stack) }, f, s) := rfl

theorem result_delete (p : Progress) (place : Frame) (c : NodeId) (f : Forest) :
    result (carryOut p place c .delete : Pass σ ε Progress) f s =
      match outcome (replaceChild place.node (.node c) []) f with
      | (.ok index, g) => (.ok { p with stack := setNext index p.stack }, g, s)
      | (.error e, g) => (.error (.fault e), g, s) := by
  simp only [carryOut, result_bind, result_edit]
  rcases outcome (replaceChild place.node (.node c) []) f with ⟨_ | _, _⟩ <;> rfl

/-- Carrying out an action ends with a fault or with further places. It does not concern the
visitor, whatever its state, and no node is offered less than before. -/
theorem exists_result_carryOut (p : Progress) (place : Frame) (c : NodeId) (action : Action)
    (f : Forest) : ∃ (r : Except TreeFault Progress) (g : Forest),
      (∀ {τ : Type} (s : τ), result (carryOut p place c action : Pass τ ε Progress) f s =
        (r.mapError .fault, g, s)) ∧
      ∀ progress', r = .ok progress' → p.offered ⊆ progress'.offered := by
  have hsubstitute (values : List Value)
      (next : ∀ {τ : Type}, List Frame × Nat → Pass τ ε Progress)
      (hnext : ∀ a h, ∃ progress', (∀ {τ : Type} (s : τ), result (next a) h s =
        (.ok progress', h, s)) ∧ p.offered ⊆ progress'.offered) :
      ∃ (r : Except TreeFault Progress) (g : Forest),
        (∀ {τ : Type} (s : τ), result (substitute place.node c values p.stack >>= next) f s =
          (r.mapError .fault, g, s)) ∧
        ∀ progress', r = .ok progress' → p.offered ⊆ progress'.offered := by
    simp only [result_bind, result_substitute]
    cases departures f c values with
    | error e => exact ⟨.error e, f, fun _ => rfl, fun _ hr => by cases hr⟩
    | ok left =>
        rcases outcome (replaceChild place.node (.node c) values) f with ⟨e | i, h⟩
        · exact ⟨.error e, h, fun _ => rfl, fun _ hr => by cases hr⟩
        · obtain ⟨progress', hnext, hsub⟩ := hnext (shift left p.stack, i) h
          exact ⟨.ok progress', h, hnext, fun _ hr => Except.ok.inj hr ▸ hsub⟩
  cases action with
  | keep => exact ⟨.ok _, f, fun _ => rfl, fun _ hr => Except.ok.inj hr ▸ List.Subset.refl _⟩
  | replace v descend =>
      exact hsubstitute [v] _ fun a h => ⟨_, fun _ => rfl, List.subset_append_right _ _⟩
  | splice values final =>
      exact hsubstitute values _ fun a h => ⟨_, fun _ => rfl, List.Subset.refl _⟩
  | delete =>
      simp only [result_delete]
      rcases outcome (replaceChild place.node (.node c) []) f with ⟨e | i, h⟩
      · exact ⟨.error e, h, fun _ => rfl, fun _ hr => by cases hr⟩
      · exact ⟨.ok _, h, fun _ => rfl, fun _ hr => Except.ok.inj hr ▸ List.Subset.refl _⟩

theorem state_carryOut {p : Progress} {place : Frame} {c : NodeId} {action : Action}
    {f g : Forest} {t : σ} {r : Except (Stop ε) Progress}
    (hres : result (carryOut p place c action : Pass σ ε Progress) f s = (r, g, t)) : t = s := by
  obtain ⟨r', g', hres', -⟩ := exists_result_carryOut (ε := ε) p place c action f
  rw [hres'] at hres
  cases hres
  rfl

/-- To put a node in the place of the root does not concern the visitor, whatever its state, and no
node is offered less than before. -/
theorem exists_result_takePlace (root new : NodeId) (offered : List NodeId) (f : Forest) :
    ∃ (r : Except TreeFault (List NodeId)) (g : Forest),
      (∀ {τ : Type} (s : τ), result (takePlace root new offered : Pass τ ε (List NodeId)) f s =
        (r.mapError .fault, g, s)) ∧
      ∀ offered', r = .ok offered' → offered ⊆ offered' := by
  unfold takePlace
  split
  · exact ⟨.ok offered, f, fun _ => rfl, fun _ hr => Except.ok.inj hr ▸ List.Subset.refl _⟩
  · simp only [result_bind, result_edit]
    rcases outcome (unlink new) f with ⟨e | _, h⟩
    · exact ⟨.error e, h, fun _ => rfl, fun _ hr => by cases hr⟩
    · exact ⟨.ok _, h, fun _ => rfl, fun _ hr => Except.ok.inj hr ▸ List.subset_cons_self _ _⟩

theorem result_takePlace {f : Forest} (hf : f.WellFormed) (root new : NodeId)
    (offered : List NodeId) :
    result (takePlace root new offered : Pass σ ε (List NodeId)) f s =
      if new = root then (.ok offered, f, s) else (.ok (new :: offered), f.detach new, s) := by
  unfold takePlace
  split
  · rfl
  · simp only [result_bind, result_edit, outcome_unlink hf]
    rfl

theorem result_reviseAt {f g : Forest} {root new : NodeId} {offered offered' : List NodeId}
    (htake : result (takePlace root new offered : Pass σ ε (List NodeId)) f s =
      (.ok offered', g, s)) (steps : Nat) (descend : Bool) :
    result (reviseAt visit steps root new descend offered) f s =
      if descend then
        match result (finish visit steps ⟨[⟨new, 0⟩], offered', []⟩) g s with
        | (.ok _, h, t) => (.ok new, h, t)
        | (.error e, h, t) => (.error e, h, t)
      else (.ok new, g, s) := by
  unfold reviseAt
  rw [result_bind, htake]
  cases descend with
  | false => rfl
  | true =>
      simp only [if_true, result_bind]
      rcases result (finish visit steps ⟨[⟨new, 0⟩], offered', []⟩) g s with ⟨_ | _, _, _⟩ <;> rfl

theorem result_revise (steps : Nat) (root : NodeId) (f : Forest) :
    result (revise visit steps root) f s =
      match visit root f s with
      | (.error e, g, t) => (.error (.visitor e), g, t)
      | (.ok a, g, t) =>
        match a.toAction root with
        | .error e => (.error (.fault e), g, t)
        | .ok action =>
          match rootAction g root action with
          | .error e => (.error (.fault e), g, t)
          | .ok (.node new, descend) =>
            result (reviseAt visit steps root new descend [root]) g t
          | .ok (v, _) => (.error (.fault (.noMember v.typeName "unlink")), g, t) := by
  simp only [revise, result_bind, result_consult, List.not_mem_nil, if_false]
  rcases visit root f s with ⟨e | a, g, t⟩
  · rfl
  · simp only
    cases a.toAction root with
    | error e => rfl
    | ok action =>
        simp only [result_forest, result_attempt]
        rcases rootAction g root action with e | ⟨v, descend⟩
        · rfl
        · cases v <;> rfl

end

/-! ### Nodes that leave -/

theorem indexOf_lt_iff (h : indexOf list n = .ok index) : index < i ↔ n ∈ list.take i := by
  obtain ⟨before, after, rfl, hbefore⟩ := List.eq_append_cons_of_mem (mem_of_indexOf h)
  rw [indexOf_append hbefore] at h
  cases h
  rw [List.take_append, List.mem_append]
  constructor
  · intro hlt
    obtain ⟨k, hk⟩ : ∃ k, i - before.length = k + 1 := ⟨i - before.length - 1, by omega⟩
    rw [hk, List.take_succ_cons]
    exact Or.inr List.mem_cons_self
  · rintro (hn | hn)
    · exact absurd (List.mem_of_mem_take hn) hbefore
    · by_contra hge
      rw [show i - before.length = 0 by omega] at hn
      simp at hn

theorem exists_departures (hf : f.WellFormed) (c : NodeId) (nodes : List NodeId) :
    ∃ left, departures f c (nodes.map .node) = .ok left := by
  induction nodes with
  | nil => exact ⟨[], rfl⟩
  | cons n nodes ih =>
      obtain ⟨left, hleft⟩ := ih
      rw [List.map_cons, departures]
      by_cases hn : n = c
      · exact ⟨left, by rw [if_pos hn, hleft]⟩
      · rw [if_neg hn]
        cases hp : f.parent? n with
        | none => exact ⟨left, hleft⟩
        | some p =>
            obtain ⟨k, hk⟩ := exists_indexOf (hf.mem_of_parent? hp)
            exact ⟨(p, k) :: left, by simp [hk, hleft, bind, Except.bind]⟩

/-- The departures from before a place at `q` are the nodes that stand there, other than `c`. -/
theorem countP_departures (hf : f.WellFormed)
    (h : departures f c (nodes.map .node) = .ok left) (q : NodeId) (i : Nat) :
    left.countP (fun (n, index) => n == q && index < i) =
      nodes.countP fun n => n != c && ((f.children q).take i).contains n := by
  induction nodes generalizing left with
  | nil =>
      cases h
      rfl
  | cons n nodes ih =>
      rw [List.map_cons, departures] at h
      rw [List.countP_cons]
      by_cases hn : n = c
      · rw [if_pos hn] at h
        simp [ih h, hn]
      · rw [if_neg hn] at h
        have habsent (hq : f.parent? n ≠ some q) : n ∉ (f.children q).take i := fun hmem =>
          hq (hf.parent?_of_mem (List.mem_of_mem_take hmem))
        cases hp : f.parent? n with
        | none =>
            rw [hp] at h
            simp [ih h, habsent (by simp [hp])]
        | some p =>
            simp only [hp] at h
            obtain ⟨k, hk, h⟩ := bind_eq_ok_iff.1 h
            obtain ⟨rest, hrest, h⟩ := bind_eq_ok_iff.1 h
            cases h
            rw [List.countP_cons, ih hrest]
            -- Only a child of `q` itself counts, and then its index decides.
            by_cases hpq : p = q
            · subst hpq
              have hiff := indexOf_lt_iff (i := i) hk
              simp [hn, ← hiff]
            · have hno := habsent (by simpa [hp] using hpq)
              simp [hpq, hno]

/-- The children after a place, when nodes leave and the place moves back by as many as stood before
it. -/
theorem drop_without (list nodes : List NodeId) (i : Nat) :
    (without list nodes).drop (i - (list.take i).countP nodes.contains) =
      without (list.drop i) nodes := by
  have hlength : (without (list.take i) nodes).length =
      (list.take i).length - (list.take i).countP nodes.contains := by
    have hcount := List.length_eq_countP_add_countP nodes.contains (l := list.take i)
    rw [without, ← List.countP_eq_length_filter]
    simp only [Bool.not_eq_true, Bool.decide_eq_false] at hcount
    omega
  have hsplit : without list nodes =
      without (list.take i) nodes ++ without (list.drop i) nodes := by
    rw [without, without, without, ← List.filter_append, List.take_append_drop]
  rcases Nat.le_total i list.length with hi | hi
  · rw [List.length_take, Nat.min_eq_left hi] at hlength
    rw [hsplit, List.drop_left' hlength]
  · rw [List.take_of_length_le hi] at hlength ⊢
    rw [List.drop_of_length_le hi, List.drop_of_length_le (by omega)]
    rfl

/-- As many nodes leave from before a place as are taken out of the children before it. -/
theorem countP_take (hf : f.WellFormed) (hnodes : nodes.Nodup) (hc : c ∉ f.children q) (i : Nat) :
    (nodes.countP fun n => n != c && ((f.children q).take i).contains n) =
      ((f.children q).take i).countP nodes.contains := by
  have htake : ((f.children q).take i).Nodup :=
    (hf.nodup_children q).sublist (List.take_sublist i _)
  rw [List.countP_eq_length_filter, List.countP_eq_length_filter]
  refine List.Perm.length_eq ((List.perm_ext_iff_of_nodup (hnodes.filter _) (htake.filter _)).2 ?_)
  intro m
  simp only [List.mem_filter, List.contains_eq_mem, Bool.and_eq_true, bne_iff_ne,
    decide_eq_true_eq]
  constructor
  · rintro ⟨hm, -, htm⟩
    exact ⟨htm, hm⟩
  · rintro ⟨htm, hm⟩
    refine ⟨hm, fun hmc => hc ?_, htm⟩
    rw [← hmc]
    exact List.mem_of_mem_take htm

/-! ### Places that move back -/

def Frame.movedBack (left : List (NodeId × Nat)) (frame : Frame) : Frame :=
  { frame with
    next := frame.next - left.countP fun (n, index) => n == frame.node && index < frame.next }

theorem shiftOutward_eq_map (h : (stack.map (·.node)).Nodup) :
    shiftOutward left stack = stack.map (Frame.movedBack left) := by
  induction stack generalizing left with
  | nil => rfl
  | cons frame rest ih =>
      rw [List.map_cons, List.nodup_cons] at h
      rw [shiftOutward, ih h.2, List.map_cons]
      congr 1
      refine List.map_congr_left fun other hother => ?_
      have hne : other.node ≠ frame.node := fun heq => h.1 (heq ▸ List.mem_map_of_mem hother)
      unfold Frame.movedBack
      rw [List.countP_filter]
      congr 2
      refine List.countP_congr fun departure _ => ?_
      simp only [Bool.and_eq_true, beq_iff_eq, decide_eq_true_eq, bne_iff_ne]
      constructor
      · exact fun hboth => hboth.1
      · exact fun hhere => ⟨hhere, fun heq => hne (hhere.1.symm.trans heq)⟩

/-- The places of different nodes move back independently. -/
theorem shift_eq_map (h : (stack.map (·.node)).Nodup) :
    shift left stack = stack.map (Frame.movedBack left) := by
  have hreverse : (stack.reverse.map (·.node)).Nodup := by
    rw [List.map_reverse]
    exact List.nodup_reverse.2 h
  rw [shift, shiftOutward_eq_map hreverse, List.map_reverse, List.reverse_reverse]

theorem shiftOutward_nil (stack : List Frame) : shiftOutward [] stack = stack := by
  induction stack with
  | nil => rfl
  | cons frame rest ih =>
      rw [shiftOutward, List.filter_nil, ih]
      rfl

theorem shift_nil (stack : List Frame) : shift [] stack = stack := by
  rw [shift, shiftOutward_nil, List.reverse_reverse]

def pending (f : Forest) (frame : Frame) : List NodeId :=
  (f.children frame.node).drop frame.next

theorem getElem?_of_eq_append {before after : List NodeId} (h : list = before ++ c :: after)
    {i : Nat} (hi : before.length = i) : list[i]? = some c := by
  rw [h, ← hi, List.getElem?_append_right (Nat.le_refl _), Nat.sub_self]
  rfl

theorem take_succ_of_eq_append {before after : List NodeId} (h : list = before ++ c :: after)
    {i : Nat} (hi : before.length = i) : list.take (i + 1) = list.take i ++ [c] := by
  rw [List.take_add_one, getElem?_of_eq_append h hi]
  rfl

theorem exists_before_after {place : Frame}
    (hc : (f.children place.node)[place.next]? = some c) :
    ∃ before after, f.children place.node = before ++ c :: after ∧ before.length = place.next := by
  obtain ⟨hnext, hchild⟩ := List.getElem?_eq_some_iff.1 hc
  refine ⟨(f.children place.node).take place.next, (f.children place.node).drop (place.next + 1),
    ?_, ?_⟩
  · rw [← hchild, ← List.drop_eq_getElem_cons hnext, List.take_append_drop]
  · rw [List.length_take, Nat.min_eq_left (Nat.le_of_lt hnext)]

/-- A place before the nodes that came in. -/
theorem pending_replaced (hf : f.WellFormed) {before after : List NodeId}
    (h : f.children p = before ++ c :: after) :
    pending (f.replaced p c before after nodes) ⟨p, (without before nodes).length⟩ =
      nodes ++ without after nodes := by
  unfold pending
  rw [children_replaced hf h, if_pos rfl, List.append_assoc, List.drop_left]

/-- A place that moves back still comes before the same children, less those that left. -/
theorem pending_movedBack (hf : f.WellFormed) {before after : List NodeId}
    (h : f.children p = before ++ c :: after) (hnodes : nodes.Nodup)
    (hleft : departures f c (nodes.map .node) = .ok left) {frame : Frame} (hp : frame.node ≠ p) :
    pending (f.replaced p c before after nodes) (frame.movedBack left) =
      without (pending f frame) nodes := by
  have hc : c ∉ f.children frame.node := fun hmem => hp (hf.parent_unique hmem (by simp [h]))
  unfold pending Frame.movedBack
  rw [children_replaced hf h, if_neg hp, countP_departures hf hleft, countP_take hf hnodes hc,
    drop_without]

/-- A place after which nothing left stays. -/
theorem movedBack_of_absent {frame : Frame} (h : ∀ departure ∈ left, departure.1 ≠ frame.node) :
    frame.movedBack left = frame := by
  have hzero : (left.countP fun (n, index) => n == frame.node && index < frame.next) = 0 := by
    rw [List.countP_eq_zero]
    intro departure hd
    simp [h departure hd]
  unfold Frame.movedBack
  rw [hzero]
  rfl

/-! ### Substitutions that succeed -/

theorem nodesAmong_map (nodes : List NodeId) : nodesAmong (nodes.map .node) = nodes := by
  induction nodes with
  | nil => rfl
  | cons n nodes ih =>
      change n :: nodesAmong (nodes.map .node) = n :: nodes
      rw [ih]

theorem substitute_ok {g : Forest} {s t : σ} {before after : List NodeId} {values : List Value}
    {stack' : List Frame} (hf : f.WellFormed) (h : f.children p = before ++ c :: after)
    (hknown : ∀ v ∈ values, f.Known v)
    (hres : result (substitute p c values stack : Pass σ ε (List Frame × Nat)) f s =
      (.ok (stack', index), g, t)) :
    ∃ nodes left, values = nodes.map .node ∧ f.AllFit p nodes ∧ (∀ k ∈ nodes, k < f.size) ∧
      departures f c (nodes.map .node) = .ok left ∧ g = f.replaced p c before after nodes ∧
      index = (without before nodes).length ∧ stack' = shift left stack ∧ t = s := by
  rw [result_substitute] at hres
  cases hleft : departures f c values with
  | error e => simp [hleft] at hres
  | ok left =>
      rw [hleft] at hres
      rcases hout : outcome (replaceChild p (.node c) values) f with ⟨e | i, g'⟩
      · simp only [hout] at hres
        cases hres
      · simp only [hout] at hres
        cases hres
        obtain ⟨nodes, rfl, hfit, hlt, rfl, rfl⟩ := replaceChild_ok hf h hknown hout
        exact ⟨nodes, left, rfl, hfit, hlt, hleft, rfl, rfl, rfl, rfl⟩

/-! ### What carrying out an action comes to -/

/-- Nodes that fit in the place of the child `c` between the children `before` and `after`, and
where they leave from. -/
structure Fitting (f : Forest) (p c : NodeId) (before after nodes : List NodeId)
    (left : List (NodeId × Nat)) : Prop where
  list : f.children p = before ++ c :: after
  fit : f.AllFit p nodes
  lt_size : ∀ k ∈ nodes, k < f.size
  departures : departures f c (nodes.map .node) = .ok left

/-- The places after nodes came in at the innermost one, which goes on at the index `next`. -/
def placesAfter (left : List (NodeId × Nat)) (p : NodeId) (next : Nat) (rest : List Frame) :
    List Frame :=
  ⟨p, next⟩ :: rest.map (Frame.movedBack left)

/-- All that carrying out an action about a child of the innermost place can come to. -/
inductive Carried (progress : Progress) (place : Frame) (rest : List Frame) (c : NodeId)
    (f : Forest) : Action → Progress → Forest → Prop
  | keep : Carried progress place rest c f .keep
      { progress with stack := descendInto f c ({ place with next := place.next + 1 } :: rest) } f
  | replace {before after : List NodeId} {n : NodeId} {descend : Bool} {left : List (NodeId × Nat)}
      {stack : List Frame} (h : Fitting f place.node c before after [n] left)
      (hstack : stack = placesAfter left place.node ((without before [n]).length + 1) rest) :
      Carried progress place rest c f (.replace (.node n) descend)
        { progress with
          offered := n :: progress.offered
          stack := if descend then
              descendInto (f.replaced place.node c before after [n]) n stack
            else stack }
        (f.replaced place.node c before after [n])
  | splice {before after nodes : List NodeId} {final : Finality} {left : List (NodeId × Nat)}
      (h : Fitting f place.node c before after nodes left) :
      Carried progress place rest c f (.splice (nodes.map .node) final)
        { progress with
          final := nodes.filter (final.nodes (nodes.map .node)).contains ++ progress.final
          stack := placesAfter left place.node (without before nodes).length rest }
        (f.replaced place.node c before after nodes)
  | delete {before after : List NodeId} (h : Fitting f place.node c before after [] []) :
      Carried progress place rest c f .delete
        { progress with stack := placesAfter [] place.node (without before []).length rest }
        (f.replaced place.node c before after [])

theorem setNext_shift {place : Frame} {rest : List Frame}
    (hnodup : ((place :: rest).map (·.node)).Nodup) (left : List (NodeId × Nat)) (next : Nat) :
    setNext next (shift left (place :: rest)) = placesAfter left place.node next rest := by
  rw [shift_eq_map hnodup]
  rfl

theorem placesAfter_nil (p : NodeId) (next : Nat) (rest : List Frame) :
    placesAfter [] p next rest = ⟨p, next⟩ :: rest := by
  unfold placesAfter
  congr 1
  exact List.map_id'' (fun frame => movedBack_of_absent (by simp)) rest

theorem carried_of_ok {g : Forest} {s t : σ} {progress progress' : Progress} {place : Frame}
    {rest : List Frame} {action : Action} (hf : f.WellFormed)
    (hstack : progress.stack = place :: rest) (hnodup : ((place :: rest).map (·.node)).Nodup)
    (hmem : c ∈ f.children place.node) (hknown : action.KnownIn f)
    (hres : result (carryOut progress place c action : Pass σ ε Progress) f s =
      (.ok progress', g, t)) : Carried progress place rest c f action progress' g := by
  obtain ⟨before, after, hlist⟩ := List.append_of_mem hmem
  cases action with
  | keep =>
      rw [result_keep, hstack] at hres
      cases hres
      exact .keep
  | replace v descend =>
      obtain ⟨⟨stack', index⟩, g', t', hsub, hrest⟩ := result_bind_eq_ok_iff.1 hres
      obtain ⟨nodes, left, hnodes, hfit, hlt, hleft, rfl, rfl, rfl, rfl⟩ :=
        substitute_ok hf hlist hknown hsub
      obtain ⟨n, rfl, rfl⟩ : ∃ n, nodes = [n] ∧ v = .node n := by
        obtain ⟨n, hn, hrest⟩ := List.map_eq_singleton_iff.1 hnodes.symm
        exact ⟨n, hn, hrest.symm⟩
      have hnews : nodesAmong [.node n] = [n] := rfl
      simp only [hstack, hnews, List.foldr_cons, List.foldr_nil, List.singleton_append, result_bind,
        result_forest, result_pure] at hrest
      cases hrest
      exact .replace ⟨hlist, hfit, hlt, hleft⟩ (setNext_shift hnodup left _)
  | splice values final =>
      obtain ⟨⟨stack', index⟩, g', t', hsub, hrest⟩ := result_bind_eq_ok_iff.1 hres
      obtain ⟨nodes, left, rfl, hfit, hlt, hleft, rfl, rfl, rfl, rfl⟩ :=
        substitute_ok hf hlist hknown hsub
      cases hrest
      rw [hstack, setNext_shift hnodup, nodesAmong_map]
      exact .splice ⟨hlist, hfit, hlt, hleft⟩
  | delete =>
      rw [result_delete, outcome_replaceChild_nil hf hlist, hstack] at hres
      cases hres
      have hplaces : setNext before.length (place :: rest) =
          placesAfter [] place.node (without before []).length rest := by
        rw [placesAfter_nil, without_nil]
        rfl
      rw [hplaces]
      exact .delete ⟨hlist, allFit_nil f place.node, fun _ hk => absurd hk List.not_mem_nil, rfl⟩

/-- A splice of nodes that fit puts them in place, and the first of them is next. -/
theorem result_splice {p : Progress} {place : Frame} {before after : List NodeId} (final : Finality)
    (s : σ) (hf : f.WellFormed) (h : f.children place.node = before ++ c :: after)
    (hfit : f.AllFit place.node nodes) (hlt : ∀ k ∈ nodes, k < f.size)
    (hleft : departures f c (nodes.map .node) = .ok left) :
    result (carryOut p place c (.splice (nodes.map .node) final) : Pass σ ε Progress) f s =
      (.ok { p with
          final := nodes.filter (final.nodes (nodes.map .node)).contains ++ p.final
          stack := setNext (without before nodes).length (shift left p.stack) },
        f.replaced place.node c before after nodes, s) := by
  simp only [carryOut, result_bind, result_substitute, hleft,
    outcome_replaceChild hf h hfit hlt, nodesAmong_map]
  rfl

end MarkdownTree.Revision
