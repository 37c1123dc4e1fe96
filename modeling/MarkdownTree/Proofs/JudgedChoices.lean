import MarkdownTree.Proofs.LinkedForests

/-!
What a copy with chosen elements asks, and what follows from the answers. The nodes of a tree are
asked about in pre-order until an answer is refused. Whether it is depends on the kind that was
chosen for the parent, and not on the kind that the parent has.
-/

namespace MarkdownTree.Forest

variable {ε : Type} {f : Forest} {n root : NodeId} {above : Option Kind} {call : Call ε Payload}
  {calls rest : List (Call ε Payload)} {todo more : List (Option Kind × NodeId)} {e : CopyFailure ε}
  {r : Except (CopyFailure ε) Unit}

/-- Whether an element of a kind may stand below one of the given kind, if there is one above. -/
def fits (above : Option Kind) (kind : Kind) : Except (CopyFailure ε) Unit :=
  match above with
  | none => .ok ()
  | some k => if k.canContain kind then .ok () else .error (.fault (.illegalChild k kind))

/-- Whether the copy goes on after a call, below an element of the given kind, or why it fails. -/
def judge (f : Forest) (above : Option Kind) (call : Call ε Payload) :
    Except (CopyFailure ε) Unit :=
  match call.answer with
  | .error e => .error (.choice e)
  | .ok (.invalid type) => .error (.fault (.mappedToValue type))
  | .ok .shared => fits above (f.kind call.node)
  | .ok (.own element) => fits above element.kind

def chosenKind? (f : Forest) (call : Call ε Payload) : Option Kind :=
  match call.answer with
  | .ok .shared => some (f.kind call.node)
  | .ok (.own element) => some element.kind
  | _ => none

/-- The kind that was chosen for the parent of a node below `root`; nothing is above `root`. -/
def kindAbove (f : Forest) (root : NodeId) (calls : List (Call ε Payload)) (n : NodeId) :
    Option Kind :=
  if n = root then none
  else (f.parent? n).bind fun p => (calls.find? (·.node = p)).bind f.chosenKind?

/-- What follows from one of the calls that are made about the nodes of the tree below `root`. -/
def verdict (f : Forest) (root : NodeId) (calls : List (Call ε Payload)) (call : Call ε Payload) :
    Except (CopyFailure ε) Unit :=
  f.judge (f.kindAbove root calls call.node) call

/-- `Asked f todo calls r` says that the calls are made when the trees below some nodes are copied
one after the other, each below a chosen kind if there is one, and that the result is `r`. -/
inductive Asked (f : Forest) : List (Option Kind × NodeId) → List (Call ε Payload) →
    Except (CopyFailure ε) Unit → Prop
  | done : Asked f [] [] (.ok ())
  | refused {above : Option Kind} {call : Call ε Payload} {todo : List (Option Kind × NodeId)}
      {e : CopyFailure ε} (h : f.judge above call = .error e) :
      Asked f ((above, call.node) :: todo) [call] (.error e)
  | accepted {above : Option Kind} {call : Call ε Payload} {todo : List (Option Kind × NodeId)}
      {rest : List (Call ε Payload)} {r : Except (CopyFailure ε) Unit}
      (h : f.judge above call = .ok ())
      (hrest : Asked f ((f.children call.node).map (f.chosenKind? call, ·) ++ todo) rest r) :
      Asked f ((above, call.node) :: todo) (call :: rest) r

namespace Asked

theorem append (h : f.Asked todo calls (.ok ())) (hmore : f.Asked more rest r) :
    f.Asked (todo ++ more) (calls ++ rest) r := by
  generalize hr : (Except.ok () : Except (CopyFailure ε) Unit) = r' at h
  induction h with
  | done => exact hmore
  | refused _ => cases hr
  | accepted hok _ ih =>
      have hrest := ih hr
      rw [List.append_assoc] at hrest
      exact .accepted hok hrest

/-- Once an answer is refused, nothing is asked about what comes later. -/
theorem stop (h : f.Asked todo calls (.error e)) (more : List (Option Kind × NodeId)) :
    f.Asked (todo ++ more) calls (.error e) := by
  generalize hr : (Except.error e : Except (CopyFailure ε) Unit) = r' at h
  induction h with
  | done => cases hr
  | refused h =>
      cases hr
      exact .refused h
  | accepted hok _ ih =>
      have hrest := ih hr
      rw [List.append_assoc] at hrest
      exact .accepted hok hrest

theorem nodes_begin (hf : f.Linked) (h : f.Asked todo calls r) :
    calls.map (·.node) <+: todo.flatMap (f.preorder ·.2) ∧
      (r = .ok () → calls.map (·.node) = todo.flatMap (f.preorder ·.2)) := by
  induction h with
  | done => exact ⟨List.prefix_refl _, fun _ => rfl⟩
  | @refused above call todo e h =>
      rw [List.flatMap_cons, hf.preorder_eq]
      exact ⟨⟨_, rfl⟩, nofun⟩
  | @accepted above call todo rest r h hrest ih =>
      have horder : ((f.children call.node).map (f.chosenKind? call, ·) ++ todo).flatMap
          (f.preorder ·.2) =
          (f.children call.node).flatMap f.preorder ++ todo.flatMap (f.preorder ·.2) := by
        rw [List.flatMap_append, List.flatMap_map]
      rw [horder] at ih
      rw [List.flatMap_cons, hf.preorder_eq, List.cons_append, List.map_cons,
        List.prefix_cons_inj, List.cons.injEq]
      exact ⟨ih.1, fun hr => ⟨rfl, ih.2 hr⟩⟩

end Asked

/-- Where the kind comes from below which a call was judged: from what was to do at first, or from
the call about the parent. -/
def Placed (f : Forest) (todo : List (Option Kind × NodeId)) (calls : List (Call ε Payload))
    (call : Call ε Payload) (above : Option Kind) : Prop :=
  (above, call.node) ∈ todo ∨
    ∃ upper ∈ calls, f.parent? call.node = some upper.node ∧ above = f.chosenKind? upper

theorem Placed.cons (hf : f.Linked) {upper : Call ε Payload}
    (h : f.Placed ((f.children upper.node).map (f.chosenKind? upper, ·) ++ todo) calls call above)
    (head : Option Kind × NodeId) : f.Placed (head :: todo) (upper :: calls) call above := by
  rcases h with hmem | ⟨other, hother, hparent, habove⟩
  · rcases List.mem_append.1 hmem with hmem | hmem
    · obtain ⟨c, hc, heq⟩ := List.mem_map.1 hmem
      cases heq
      exact Or.inr ⟨upper, List.mem_cons_self, hf.parent?_of_mem hc, rfl⟩
    · exact Or.inl (List.mem_cons_of_mem head hmem)
  · exact Or.inr ⟨other, List.mem_cons_of_mem upper hother, hparent, habove⟩

/-- All answers but the last are accepted, and the result is what follows from the last one. -/
theorem Asked.judged (hf : f.Linked) (h : f.Asked todo calls r) :
    ∃ earlier, (∀ call ∈ earlier, ∃ above, f.Placed todo calls call above ∧
        f.judge above call = .ok ()) ∧
      (r = .ok () ∧ calls = earlier ∨ ∃ e last above, r = .error e ∧ calls = earlier ++ [last] ∧
        f.Placed todo calls last above ∧ f.judge above last = .error e) := by
  induction h with
  | done => exact ⟨[], nofun, Or.inl ⟨rfl, rfl⟩⟩
  | @refused above call todo e h =>
      exact ⟨[], nofun, Or.inr ⟨e, call, above, rfl, rfl, Or.inl List.mem_cons_self, h⟩⟩
  | @accepted above call todo rest r h hrest ih =>
      obtain ⟨earlier, hearlier, hend⟩ := ih
      refine ⟨call :: earlier, fun other hother => ?_, ?_⟩
      · rcases List.mem_cons.1 hother with rfl | hother
        · exact ⟨above, Or.inl List.mem_cons_self, h⟩
        · obtain ⟨kind, hplaced, hok⟩ := hearlier other hother
          exact ⟨kind, hplaced.cons hf _, hok⟩
      · rcases hend with ⟨hr, rfl⟩ | ⟨e, last, kind, hr, rfl, hplaced, herror⟩
        · exact Or.inl ⟨hr, rfl⟩
        · exact Or.inr ⟨e, last, kind, hr, rfl, hplaced.cons hf _, herror⟩

theorem Linked.parent?_root_ne (hf : f.Linked) (hn : n ∈ f.preorder root) :
    f.parent? root ≠ some n := by
  intro hp
  have hmem : n ∈ f.quoted.preorder root := by rwa [(alike_quoted f).preorder_eq]
  have hupper := hf.quoted.mem_preorder_iff.1 hmem
  have hunder : f.quoted.Ancestor n root := .parent hp
  exact hf.quoted.not_ancestor_self root (hupper.trans_ancestor hunder)

/-- If no node is asked about twice, the call about the parent is the one that is found. -/
theorem Placed.kindAbove_eq (hf : f.Linked) (hnodes : calls.map (·.node) <+: f.preorder root)
    (h : f.Placed [(none, root)] calls call above) :
    f.kindAbove root calls call.node = above := by
  rcases h with hmem | ⟨upper, hupper, hparent, rfl⟩
  · cases List.mem_singleton.1 hmem
    exact if_pos rfl
  · have hin : upper.node ∈ f.preorder root := hnodes.subset (List.mem_map_of_mem hupper)
    have hne : call.node ≠ root := by
      rintro heq
      exact hf.parent?_root_ne hin (heq ▸ hparent)
    have hnodup : (calls.map (·.node)).Nodup := hnodes.sublist.nodup (hf.nodup_preorder root)
    have hfind : calls.find? (·.node = upper.node) = some upper := by
      have hsome : (calls.find? (·.node = upper.node)).isSome :=
        List.find?_isSome.2 ⟨upper, hupper, by simp⟩
      obtain ⟨found, hfound⟩ := Option.isSome_iff_exists.1 hsome
      have hsame : found.node = upper.node := by simpa using List.find?_some hfound
      rw [hfound, List.inj_on_of_nodup_map hnodup (List.mem_of_find?_eq_some hfound) hupper hsame]
    rw [kindAbove, if_neg hne, hparent, Option.bind_some, hfind, Option.bind_some]

/-- What the calls about a tree come to. -/
theorem Asked.verdicts (hf : f.Linked) (h : f.Asked [(none, root)] calls r) :
    (r = .ok () → calls.map (·.node) = f.preorder root ∧
      ∀ call ∈ calls, f.verdict root calls call = .ok ()) ∧
    ∀ e, r = .error e → ∃ earlier last, calls = earlier ++ [last] ∧
      (∀ call ∈ earlier, f.verdict root calls call = .ok ()) ∧
      f.verdict root calls last = .error e := by
  obtain ⟨hnodes, hall⟩ := h.nodes_begin hf
  rw [List.flatMap_singleton] at hnodes hall
  have hverdict {call : Call ε Payload} {above : Option Kind}
      (hplaced : f.Placed [(none, root)] calls call above) :
      f.verdict root calls call = f.judge above call := by
    rw [verdict, hplaced.kindAbove_eq hf hnodes]
  obtain ⟨earlier, hearlier, hend⟩ := h.judged hf
  have hok : ∀ call ∈ earlier, f.verdict root calls call = .ok () := by
    intro call hcall
    obtain ⟨above, hplaced, hjudge⟩ := hearlier call hcall
    rw [hverdict hplaced, hjudge]
  rcases hend with ⟨rfl, rfl⟩ | ⟨e, last, above, rfl, hcalls, hplaced, herror⟩
  · exact ⟨fun _ => ⟨hall rfl, hok⟩, fun _ he => by cases he⟩
  · refine ⟨nofun, fun e' he => ?_⟩
    cases he
    exact ⟨earlier, last, hcalls, hok, (hverdict hplaced).trans herror⟩

end MarkdownTree.Forest
