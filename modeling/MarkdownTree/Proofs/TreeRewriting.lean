import MarkdownTree.Proofs.OfferedOnce
import MarkdownTree.Proofs.Trees

/-!
Rewriting a tree by plain recursion over the lists of trees below each node. The recursion takes and
answers trees as values, and threads the nodes that were offered and those that are final. A forest
is kept up with it only for the visitor to look at, to refuse what may not stand where it is put,
and to tell which tree a detached node stands for.
-/

namespace MarkdownTree.Revision

open Forest Asking

variable {σ ε : Type}

/-- The nodes that were offered so far, and those that are final. -/
structure Marks where
  offered : List NodeId
  final : List NodeId

/-- Rewrites the trees that are left below a node. -/
abbrev Rewriter (σ ε : Type) := NodeId → Marks → List Tree → Pass σ ε (Marks × List Tree)

/-- Puts values in the place of a tree below `p`, and answers which tree each node stands for
then. -/
def exchange (p : NodeId) (old : Tree) (values : List Value) : Pass σ ε (NodeId → Tree) := do
  let f ← Asking.forest
  let _ ← edit (Forest.replaceChild p (.node old.root) values)
  pure (f.named old (nodesAmong values))

def rewriteBelow (again : Rewriter σ ε) (n : NodeId) (descend : Bool) (marks : Marks)
    (below : List Tree) : Pass σ ε (Marks × List Tree) :=
  if descend then again n marks below else pure (marks, below)

/-- Leaves `n` below `p`, rewrites the trees below it if that is wanted, and then the rest of the
trees below `p`. -/
def goOn (again : Rewriter σ ε) (p n : NodeId) (descend : Bool) (marks : Marks)
    (below rest : List Tree) : Pass σ ε (Marks × List Tree) := do
  let (marks, below) ← rewriteBelow again n descend marks below
  let (marks, rest) ← again p marks rest
  pure (marks, .node n below :: rest)

/-- Does what was decided about the first of the trees that are left below `p`. -/
def decided (again : Rewriter σ ε) (p : NodeId) (old : Tree) (rest : List Tree) (marks : Marks) :
    Action → Pass σ ε (Marks × List Tree)
  | .keep => goOn again p old.root true marks old.children rest
  | .replace (.node m) descend => do
    let tree ← exchange p old [.node m]
    goOn again p m descend { marks with offered := m :: marks.offered } (tree m).children rest
  | .replace v _ => throw (.fault (.noMember v.typeName "parent"))
  | .splice values final => do
    let tree ← exchange p old values
    let nodes := nodesAmong values
    let finals := nodes.filter (final.nodes values).contains
    again p { marks with final := finals ++ marks.final } (nodes.map tree ++ rest)
  | .delete => do
    let _ ← exchange p old []
    again p marks rest

/-- Rewrites the trees that are left below a node, one after the other: a final node stays with all
that is below it; about any other the visitor is asked, unless it was offered already, and what it
decides is done. -/
def rewriteList (visit : Visitor σ ε) : Nat → Rewriter σ ε
  | 0, _, _, _ => throw .exhausted
  | _ + 1, _, marks, [] => pure (marks, [])
  | fuel + 1, p, marks, old :: rest => do
    if marks.final.contains old.root then
      goOn (rewriteList visit fuel) p old.root false marks old.children rest
    else
      let (action, offered) ← consult visit old.root marks.offered
      decided (rewriteList visit fuel) p old rest { marks with offered } action

def rewriteTree (visit : Visitor σ ε) (fuel : Nat) (t : Tree) : Pass σ ε Tree := do
  let (_, offered) ← consult visit t.root []
  let (_, below) ← rewriteList visit fuel t.root ⟨offered, []⟩ t.children
  pure (.node t.root below)

section
variable (visit : Visitor σ ε) (f : Forest) (s : σ)

theorem result_exchange (p : NodeId) (old : Tree) (values : List Value) :
    result (exchange p old values : Pass σ ε (NodeId → Tree)) f s =
      match outcome (replaceChild p (.node old.root) values) f with
      | (.ok _, g) => (.ok (f.named old (nodesAmong values)), g, s)
      | (.error e, g) => (.error (.fault e), g, s) := by
  simp only [exchange, result_bind, result_forest, result_edit]
  rcases outcome (replaceChild p (.node old.root) values) f with ⟨_ | _, _⟩ <;> rfl

theorem result_goOn (again : Rewriter σ ε) (p n : NodeId) (descend : Bool) (marks : Marks)
    (below rest : List Tree) :
    result (goOn again p n descend marks below rest) f s =
      match result (rewriteBelow again n descend marks below) f s with
      | (.error e, g, t) => (.error e, g, t)
      | (.ok (marks, below), g, t) =>
        match result (again p marks rest) g t with
        | (.error e, h, u) => (.error e, h, u)
        | (.ok (marks, rest), h, u) => (.ok (marks, .node n below :: rest), h, u) := by
  simp only [goOn, result_bind]
  rcases result (rewriteBelow again n descend marks below) f s with ⟨e | ⟨marks, below⟩, g, t⟩
  · rfl
  · simp only
    rcases result (again p marks rest) g t with ⟨e | ⟨marks, rest⟩, h, u⟩ <;> rfl

theorem result_rewriteList_cons (fuel : Nat) (p : NodeId) (marks : Marks) (old : Tree)
    (rest : List Tree) :
    result (rewriteList visit (fuel + 1) p marks (old :: rest)) f s =
      if old.root ∈ marks.final then
        result (goOn (rewriteList visit fuel) p old.root false marks old.children rest) f s
      else if old.root ∈ marks.offered then
        result (decided (rewriteList visit fuel) p old rest marks .keep) f s
      else
        match visit old.root f s with
        | (.error e, g, t) => (.error (.visitor e), g, t)
        | (.ok a, g, t) =>
          match a.toAction old.root with
          | .error e => (.error (.fault e), g, t)
          | .ok action =>
            result (decided (rewriteList visit fuel) p old rest
              { marks with offered := old.root :: marks.offered } action) g t := by
  rw [rewriteList]
  by_cases hfinal : old.root ∈ marks.final
  · simp [hfinal]
  · simp only [List.contains_eq_mem, hfinal, decide_false, Bool.false_eq_true, if_false,
      result_bind, result_consult]
    by_cases hoffered : old.root ∈ marks.offered
    · simp [hoffered]
    · simp only [hoffered, if_false]
      rcases visit old.root f s with ⟨e | a, g, t⟩
      · rfl
      · simp only
        cases a.toAction old.root <;> rfl

theorem result_rewriteTree (fuel : Nat) (t : Tree) :
    result (rewriteTree visit fuel t) f s =
      match visit t.root f s with
      | (.error e, g, u) => (.error (.visitor e), g, u)
      | (.ok a, g, u) =>
        match a.toAction t.root with
        | .error e => (.error (.fault e), g, u)
        | .ok _ =>
          match result (rewriteList visit fuel t.root ⟨[t.root], []⟩ t.children) g u with
          | (.ok (_, below), h, v) => (.ok (.node t.root below), h, v)
          | (.error e, h, v) => (.error e, h, v) := by
  simp only [rewriteTree, result_bind, result_consult, List.not_mem_nil, if_false]
  rcases visit t.root f s with ⟨e | a, g, u⟩
  · rfl
  · simp only
    cases a.toAction t.root with
    | error e => rfl
    | ok action =>
        simp only
        rcases result (rewriteList visit fuel t.root ⟨[t.root], []⟩ t.children) g u with
          ⟨_ | _, _, _⟩ <;> rfl

end

section
variable {again' : Rewriter (σ × List (Call ε Answer)) ε} {again : Rewriter σ ε}
  (hagain : ∀ p marks trees, Mirrors (again' p marks trees) (again p marks trees))

theorem mirrors_exchange (p : NodeId) (old : Tree) (values : List Value) :
    Mirrors (exchange p old values : Pass (σ × List (Call ε Answer)) ε (NodeId → Tree))
      (exchange p old values) :=
  .bind .forest fun _ => .bind (mirrors_edit _) fun _ => .pure _

include hagain

theorem mirrors_goOn (p n : NodeId) (descend : Bool) (marks : Marks) (below rest : List Tree) :
    Mirrors (goOn again' p n descend marks below rest)
      (goOn again p n descend marks below rest) := by
  have hbelow : Mirrors (rewriteBelow again' n descend marks below)
      (rewriteBelow again n descend marks below) := by
    cases descend with
    | true => exact hagain n marks below
    | false => exact .pure (marks, below)
  refine .bind hbelow fun r => ?_
  exact .bind (hagain p r.1 rest) fun r' => .pure (r'.1, .node n r.2 :: r'.2)

/-- The calls that were noted below a node are good if all are at the end. -/
theorem allGood_rewriteBelow {good : Call ε Answer → Prop} {p n : NodeId} {descend : Bool}
    {marks : Marks} {below rest : List Tree} {f g : Forest} {s t : σ × List (Call ε Answer)}
    {r : Except (Stop ε) (Marks × List Tree)}
    (hres : result (goOn again' p n descend marks below rest) f s = (r, g, t))
    (ht : AllGood good t) :
    AllGood good (result (rewriteBelow again' n descend marks below) f s).2.2 := by
  rw [result_goOn] at hres
  rcases hbelow : result (rewriteBelow again' n descend marks below) f s with
    ⟨e | ⟨marks₁, below₁⟩, g₁, s₁⟩
  · rw [hbelow] at hres
    cases hres
    exact ht
  · simp only [hbelow] at hres
    have hrest := hagain p marks₁ rest
    rcases hagain' : result (again' p marks₁ rest) g₁ s₁ with ⟨e | ⟨marks₂, rest₂⟩, g₂, s₂⟩ <;>
    · rw [hagain'] at hres
      cases hres
      exact hrest.allGood hagain' ht

theorem mirrors_decided (p : NodeId) (old : Tree) (rest : List Tree) (marks : Marks)
    (action : Action) :
    Mirrors (decided again' p old rest marks action) (decided again p old rest marks action) := by
  cases action with
  | keep => exact mirrors_goOn hagain p old.root true marks old.children rest
  | replace v descend =>
      cases v with
      | node m =>
          exact .bind (mirrors_exchange p old [.node m]) fun tree =>
            mirrors_goOn hagain p m descend _ (tree m).children rest
      | _ => exact .throw _
  | splice values final => exact .bind (mirrors_exchange p old values) fun _ => hagain p _ _
  | delete => exact .bind (mirrors_exchange p old []) fun _ => hagain p marks rest

end

theorem mirrors_rewriteList (visit : Visitor σ ε) (fuel : Nat) (p : NodeId) (marks : Marks)
    (trees : List Tree) :
    Mirrors (rewriteList visit.traced fuel p marks trees)
      (rewriteList visit fuel p marks trees) := by
  induction fuel generalizing p marks trees with
  | zero => exact .throw _
  | succ fuel ih =>
      cases trees with
      | nil => exact .pure _
      | cons old rest =>
          unfold rewriteList
          split
          · exact mirrors_goOn ih p old.root false marks old.children rest
          · exact .bind (mirrors_consult visit old.root marks.offered) fun answer =>
              mirrors_decided ih p old rest { marks with offered := answer.2 } answer.1

/-- What comes of trees if every answer is to keep: they stay as they are, and the visitor was asked
about their nodes one after the other, each before those below it. -/
def Kept (offered : List NodeId) (trees : List Tree) (s t : σ × List (Call ε Answer))
    (r : Except (Stop ε) (Marks × List Tree)) : Prop :=
  ∃ offered', r = .ok (⟨offered', []⟩, trees) ∧
    (∀ n ∈ offered', n ∈ offered ∨ n ∈ Tree.preorders trees) ∧
    t.2.map (·.node) = s.2.map (·.node) ++ Tree.preorders trees

/-- The first of the trees is asked about and kept, so the recursion goes on below it. -/
theorem exists_goOn {visit : Visitor σ ε} {fuel : Nat} {p n : NodeId} {offered : List NodeId}
    {below rest : List Tree} {f g : Forest} {s t : σ × List (Call ε Answer)}
    {r : Except (Stop ε) (Marks × List Tree)} (hno : n ∉ offered)
    (hkeep : AllGood (Chose · .keep) t)
    (hres : result (rewriteList visit.traced (fuel + 1) p ⟨offered, []⟩ (.node n below :: rest))
      f s = (r, g, t)) :
    ∃ f' s', s'.2.map (·.node) = s.2.map (·.node) ++ [n] ∧
      result (goOn (rewriteList visit.traced fuel) p n true ⟨n :: offered, []⟩ below rest) f' s' =
        (r, g, t) := by
  simp only [result_rewriteList_cons, Tree.root_node, List.not_mem_nil, if_false, hno] at hres
  rcases hvisit : visit n f s.1 with ⟨a, f', s'⟩
  rw [traced_eq hvisit] at hres
  have hcall : (⟨n, f, a, f'⟩ : Call ε Answer) ∈ s.2 ++ [⟨n, f, a, f'⟩] :=
    List.mem_append_right _ List.mem_cons_self
  cases a with
  | error e =>
      cases hres
      obtain ⟨a, ha, -⟩ := hkeep _ hcall
      cases ha
  | ok a =>
      have hasked : AllGood (Chose · .keep) (s', s.2 ++ [(⟨n, f, .ok a, f'⟩ : Call ε Answer)]) := by
        cases haction : a.toAction n with
        | error e =>
            simp only [haction] at hres
            cases hres
            exact hkeep
        | ok action =>
            simp only [haction] at hres
            exact (mirrors_decided (mirrors_rewriteList visit fuel) p _ rest _ action).allGood
              hres hkeep
      simp only [chose_ok_iff.1 (hasked _ hcall), decided, Tree.root_node, Tree.children_node]
        at hres
      exact ⟨f', (s', s.2 ++ [⟨n, f, .ok a, f'⟩]), by simp, hres⟩

theorem kept_rewriteList {visit : Visitor σ ε} {fuel : Nat} {p : NodeId} {offered : List NodeId}
    {trees : List Tree} {f g : Forest} {s t : σ × List (Call ε Answer)}
    {r : Except (Stop ε) (Marks × List Tree)} (hkeep : AllGood (Chose · .keep) t)
    (hfuel : (Tree.preorders trees).length < fuel) (hnodup : (Tree.preorders trees).Nodup)
    (hnew : ∀ n ∈ Tree.preorders trees, n ∉ offered)
    (hres : result (rewriteList visit.traced fuel p ⟨offered, []⟩ trees) f s = (r, g, t)) :
    Kept offered trees s t r := by
  induction fuel generalizing p offered trees f g s t r with
  | zero => exact absurd hfuel (Nat.not_lt_zero _)
  | succ fuel ih =>
      rcases trees with _ | ⟨⟨n, below⟩, rest⟩
      · cases hres
        exact ⟨offered, rfl, fun n hn => Or.inl hn, (List.append_nil _).symm⟩
      have hnodes : Tree.preorders (.node n below :: rest) =
          n :: (Tree.preorders below ++ Tree.preorders rest) := rfl
      unfold Kept
      rw [hnodes] at hfuel hnodup hnew ⊢
      obtain ⟨hn, hnodup⟩ := List.nodup_cons.1 hnodup
      obtain ⟨hbelow, hrest, hapart⟩ := List.nodup_append.1 hnodup
      rw [List.length_cons, List.length_append] at hfuel
      obtain ⟨f', s', hcalls', hres⟩ := exists_goOn (hnew n List.mem_cons_self) hkeep hres
      -- First come the trees below the node, then those to its right.
      have hkeep₁ := allGood_rewriteBelow (mirrors_rewriteList visit fuel) hres hkeep
      rw [result_goOn] at hres
      rcases hfirst : result (rewriteBelow (rewriteList visit.traced fuel) n true
        ⟨n :: offered, []⟩ below) f' s' with ⟨r₁, f₁, s₁⟩
      rw [hfirst] at hkeep₁
      have hnew₁ : ∀ m ∈ Tree.preorders below, m ∉ n :: offered := by
        intro m hm hmem
        rcases List.mem_cons.1 hmem with rfl | hmem
        · exact hn (List.mem_append_left _ hm)
        · exact hnew m (List.mem_cons_of_mem n (List.mem_append_left _ hm)) hmem
      obtain ⟨offered₁, rfl, hsub₁, hcalls₁⟩ := ih hkeep₁ (by omega) hbelow hnew₁ hfirst
      simp only [hfirst] at hres
      rcases hsecond : result (rewriteList visit.traced fuel p ⟨offered₁, []⟩ rest) f₁ s₁ with
        ⟨r₂, f₂, s₂⟩
      have hlast : s₂ = t := by
        rw [hsecond] at hres
        rcases r₂ with _ | ⟨_, _⟩ <;>
        · cases hres
          rfl
      have hnew₂ : ∀ m ∈ Tree.preorders rest, m ∉ offered₁ := by
        intro m hm hmem
        rcases hsub₁ m hmem with hmem | hmem
        · rcases List.mem_cons.1 hmem with rfl | hmem
          · exact hn (List.mem_append_right _ hm)
          · exact hnew m (List.mem_cons_of_mem n (List.mem_append_right _ hm)) hmem
        · exact hapart m hmem m hm rfl
      obtain ⟨offered₂, rfl, hsub₂, hcalls₂⟩ :=
        ih (hlast ▸ hkeep) (by omega) hrest hnew₂ hsecond
      rw [hsecond] at hres
      cases hres
      refine ⟨offered₂, rfl, fun m hm => ?_, ?_⟩
      · rcases hsub₂ m hm with hm | hm
        · rcases hsub₁ m hm with hm | hm
          · rcases List.mem_cons.1 hm with rfl | hm
            · exact Or.inr List.mem_cons_self
            · exact Or.inl hm
          · exact Or.inr (List.mem_cons_of_mem n (List.mem_append_left _ hm))
        · exact Or.inr (List.mem_cons_of_mem n (List.mem_append_right _ hm))
      · rw [hcalls₂, hcalls₁, hcalls']
        simp

end MarkdownTree.Revision
