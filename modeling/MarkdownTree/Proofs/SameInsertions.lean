import MarkdownTree.Proofs.AlikeExpansions
import MarkdownTree.Proofs.TabsContent

/-!
Insertions of markup into trees of one shape. They are the same if the trees that result have one
shape again: in each place there are nodes that were counterparts before, or pieces of markup on
both sides, with the same delimiters. Tabs that are written between their content are inserted so.
-/

namespace MarkdownTree.Tabs

open Forest Markup

variable {f f' g g' : Forest} {category : Value} {a b m m' n n' root root' top top' : NodeId}
  {nodes nodes' : List NodeId} {pieces pieces' : List Piece} {i : Nat}

/-- What stands in one place of two trees: nodes that were there before, counterparts and still the
same, or markup that was made, with the same delimiters. -/
inductive StandsLike (f f' g g' : Forest) (root root' m m' : NodeId) : Prop
  | kept (hold : m < f.size) (hold' : m' < f'.size) (helement : g.element m = f.element m)
      (helement' : g'.element m' = f'.element m') (hm : Counterpart f f' root root' m m')
  | inserted {s s' : String} (hnew : f.size ≤ m) (hnew' : f'.size ≤ m')
      (helement : g.element m = Element.html s) (helement' : g'.element m' = Element.html s')
      (hskeleton : skeleton s = skeleton s')

/-- The trees at `top` and `top'` are those at `root` and `root'` with markup inserted, as many
pieces in the same places. -/
structure SameInsertions (f f' g g' : Forest) (root root' top top' : NodeId) : Prop where
  standsLike (m m' : NodeId) (hm : Counterpart g g' top top' m m') :
    StandsLike f f' g g' root root' m m'
  length_children (m m' : NodeId) (hm : Counterpart g g' top top' m m') :
    (g'.children m').length = (g.children m).length
  countP_eq : (g'.preorder top').countP (f'.size ≤ ·) = (g.preorder top).countP (f.size ≤ ·)

/-- Two runs of a pass, from trees at `root` and `root'`, come to the same: both fail, or both
insert the same. -/
inductive EndsAlike (f f' : Forest) (root root' : NodeId) :
    Except TreeFault NodeId × List Log.Message × Forest →
      Except TreeFault NodeId × List Log.Message × Forest → Prop
  | inserted {top top' : NodeId} {messages messages' : List Log.Message} {g g' : Forest}
      (h : SameInsertions f f' g g' root root' top top') :
      EndsAlike f f' root root' (.ok top, messages, g) (.ok top', messages', g')
  | failed {e e' : TreeFault} {messages messages' : List Log.Message} {g g' : Forest} :
      EndsAlike f f' root root' (.error e, messages, g) (.error e', messages', g')

/-- The trees of two lists of nodes are alike: the same stands in the same places, down to the
leaves. -/
inductive Likewise (f f' g g' : Forest) (root root' : NodeId) : List NodeId → List NodeId → Prop
  | nil : Likewise f f' g g' root root' [] []
  | cons {m m' : NodeId} {nodes nodes' : List NodeId} (hm : StandsLike f f' g g' root root' m m')
      (hbelow : Likewise f f' g g' root root' (g.children m) (g'.children m'))
      (hrest : Likewise f f' g g' root root' nodes nodes') :
      Likewise f f' g g' root root' (m :: nodes) (m' :: nodes')

theorem StandsLike.new_iff (h : StandsLike f f' g g' root root' m m') :
    f'.size ≤ m' ↔ f.size ≤ m := by
  cases h with
  | kept hold hold' => exact iff_of_false (Nat.not_le.2 hold') (Nat.not_le.2 hold)
  | inserted hnew hnew' => exact iff_of_true hnew' hnew

namespace Likewise

theorem length_eq (h : Likewise f f' g g' root root' nodes nodes') :
    nodes'.length = nodes.length := by
  induction h with
  | nil => rfl
  | cons _ _ _ _ ih => rw [List.length_cons, List.length_cons, ih]

/-- Trees that are alike one by one are alike together. -/
theorem of_forall₂
    (h : List.Forall₂ (fun m m' => Likewise f f' g g' root root' [m] [m']) nodes nodes') :
    Likewise f f' g g' root root' nodes nodes' := by
  induction h with
  | nil => exact .nil
  | cons hm _ ih =>
      cases hm with
      | cons hm hbelow _ => exact .cons hm hbelow ih

theorem descend (h : Likewise f f' g g' root root' nodes nodes') (ha : nodes[i]? = some a)
    (hb : nodes'[i]? = some b) : StandsLike f f' g g' root root' a b ∧
      Likewise f f' g g' root root' (g.children a) (g'.children b) := by
  induction h generalizing i with
  | nil => simp at ha
  | cons hm hbelow _ _ ih =>
      cases i with
      | zero =>
          cases ha
          cases hb
          exact ⟨hm, hbelow⟩
      | succ i => exact ih ha hb

/-- In trees that are alike the same stands in all places. -/
theorem counterpart (h : Likewise f f' g g' root root' [top] [top'])
    (hm : Counterpart g g' top top' m m') : StandsLike f f' g g' root root' m m' ∧
      Likewise f f' g g' root root' (g.children m) (g'.children m') := by
  induction hm with
  | root => exact h.descend (i := 0) rfl rfl
  | child _ ha hb ih => exact ih.2.descend ha hb

/-- In trees that are alike there are as many new nodes. -/
theorem countP_eq (hg : g.WellFormed) (hg' : g'.WellFormed)
    (h : Likewise f f' g g' root root' nodes nodes') :
    (nodes'.flatMap g'.preorder).countP (f'.size ≤ ·) =
      (nodes.flatMap g.preorder).countP (f.size ≤ ·) := by
  induction h with
  | nil => rfl
  | @cons m m' nodes nodes' hm _ _ ihbelow ih =>
      have hself : decide (f'.size ≤ m') = decide (f.size ≤ m) := decide_eq_decide.2 hm.new_iff
      rw [List.flatMap_cons, List.flatMap_cons, List.countP_append, List.countP_append, ih,
        hg.preorder_eq, hg'.preorder_eq, List.countP_cons, List.countP_cons, ihbelow, hself]

theorem sameInsertions (hg : g.WellFormed) (hg' : g'.WellFormed)
    (h : Likewise f f' g g' root root' [top] [top']) :
    SameInsertions f f' g g' root root' top top' where
  standsLike m m' hm := (h.counterpart hm).1
  length_children m m' hm := (h.counterpart hm).2.length_eq
  countP_eq := by
    have hcount := h.countP_eq hg hg'
    rwa [List.flatMap_singleton, List.flatMap_singleton] at hcount

/-- Nodes that stand for pieces that are alike are alike. -/
theorem of_shown (h : PiecesAlike f f' root root' pieces pieces') (hshown : Shown f g pieces nodes)
    (hshown' : Shown f' g' pieces' nodes') : Likewise f f' g g' root root' nodes nodes' := by
  induction h generalizing nodes nodes' with
  | nil =>
      cases hshown
      cases hshown'
      exact .nil
  | marker hm _ ih =>
      cases hshown with
      | marker hnew helement _ hchildren hrest =>
          cases hshown' with
          | marker hnew' helement' _ hchildren' hrest' =>
              refine .cons (.inserted hnew hnew' helement helement' hm) ?_ (ih hrest hrest')
              rw [hchildren, hchildren']
              exact .nil
  | node hn _ _ ihbelow ih =>
      cases hshown with
      | node hold helement _ hbelow hrest =>
          cases hshown' with
          | node hold' helement' _ hbelow' hrest' =>
              exact .cons (.kept hold hold' helement helement' hn) (ihbelow hbelow hbelow')
                (ih hrest hrest')

end Likewise

theorem EndsAlike.of_errors {run run' : Except TreeFault NodeId × List Log.Message × Forest}
    {e e' : TreeFault} (h : run.1 = .error e) (h' : run'.1 = .error e') :
    EndsAlike f f' root root' run run' := by
  obtain ⟨_, messages, g⟩ := run
  obtain ⟨_, messages', g'⟩ := run'
  cases h
  cases h'
  exact .failed

/-- The pass that writes tabs between their content inserts the same into trees of one shape. -/
theorem interleave_endsAlike (h : SameShape f f' root root') (hf : f.WellFormed)
    (hf' : f'.WellFormed) (hlt : root < f.size) (hlt' : root' < f'.size) (category : Value)
    (grouped : Bool) :
    EndsAlike f f' root root' (interleave category grouped root f)
      (interleave category grouped root' f') := by
  have hsame := h.divided_eq category .root
  -- Over a divided root both passes fail; over any other both write what the children expand to.
  cases hroot : divided f category root with
  | true =>
      rw [hroot] at hsame
      obtain ⟨e, he⟩ : ∃ e, (interleave category grouped root f).1 = .error e :=
        interleave_fails hf hroot
      obtain ⟨e', he'⟩ : ∃ e', (interleave category grouped root' f').1 = .error e' :=
        interleave_fails hf' hsame
      exact .of_errors he he'
  | false =>
      rw [hroot] at hsame
      have hcomes := interleave_comes grouped hf hlt hroot
      have hcomes' := interleave_comes grouped hf' hlt' hsame
      have hexpand := expand_alongside h hf hf' category grouped (h.children .root)
      generalize expand f category grouped (f.children root) = r,
        expand f' category grouped (f'.children root') = r' at hcomes hcomes' hexpand
      cases hexpand with
      | error e e' => exact .of_errors hcomes hcomes'
      | ok hpieces =>
          obtain ⟨g, hexpanded, heq⟩ := hcomes
          obtain ⟨g', hexpanded', heq'⟩ := hcomes'
          rcases hrun : interleave category grouped root f with ⟨r, messages, g⟩
          rcases hrun' : interleave category grouped root' f' with ⟨r', messages', g'⟩
          rw [hrun] at heq
          rw [hrun'] at heq'
          cases heq
          cases heq'
          exact .inserted ((Likewise.of_shown (.node .root hpieces .nil) hexpanded.shown
            hexpanded'.shown).sameInsertions hexpanded.wellFormed hexpanded'.wellFormed)

end MarkdownTree.Tabs
