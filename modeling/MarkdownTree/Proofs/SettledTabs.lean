import MarkdownTree.Proofs.ExpandedNodes
import MarkdownTree.Proofs.KeepingPasses

/-!
Trees in which no tabs are left to be made. The pass over tabs leaves such a tree, since what it
puts in the place of tabs was expanded itself; and over such a tree it changes nothing and says
nothing but that some admonitions have no headings.
-/

namespace MarkdownTree.Tabs

open Forest Revision Asking

variable {f g : Forest} {category : Value} {grouped : Bool} {n root : NodeId}

namespace Interleaved

theorem foldl_noteKept (f : Forest) (category : Value) (nodes : List NodeId) (s : State) :
    nodes.foldl (noteKept f category) s =
      { s with messages := s.messages ++ unchangedMessages f category nodes } := by
  induction nodes generalizing s with
  | nil => simp [unchangedMessages]
  | cons n nodes ih =>
      have hboth : unchangedMessages f category (n :: nodes) =
          unchangedMessages f category [n] ++ unchangedMessages f category nodes := by
        rw [unchangedMessages, ← List.singleton_append, List.filter_append, List.map_append]
        rfl
      rw [List.foldl_cons, ih, noteKept_eq, hboth, List.append_assoc]

/-- Below a root where nothing is divided, the visitor keeps all. -/
theorem keepsAll_visit (grouped : Bool)
    (hsettled : ∀ n, f.AtOrAbove root n → divided f category n = false) :
    KeepsAll (visit category grouped) (·.absorbed = []) (noteKept f category) f root where
  visit_eq n s hn hs := by
    have habsorbed : n ∉ s.absorbed := by
      rw [hs]
      exact List.not_mem_nil
    exact visit_kept habsorbed (hsettled n hn)
  good_note n s hs := by rw [absorbed_noteKept, hs]

end Interleaved

open Interleaved

theorem interleave_of_revise {new : NodeId} {t : State}
    (h : result (revise (visit category grouped) (stepLimit f) root) f .start = (.ok new, g, t)) :
    interleave category grouped root f = (.ok new, t.messages ++ summary t, g) := by
  unfold result at h
  unfold interleave
  dsimp only
  rw [h]

/-- A pass over a tree without tabs to be made leaves everything as it is, and reports the
admonitions without headings. -/
theorem interleave_of_settled (grouped : Bool) (hf : f.WellFormed) (hlt : root < f.size)
    (hsettled : ∀ n, f.AtOrAbove root n → divided f category n = false) :
    interleave category grouped root f =
      (.ok root, unchangedMessages f category (f.preorder root), f) := by
  have hsteps : 2 * (f.preorder root).length ≤ stepLimit f := by
    have hlength := hf.length_preorder_le hlt
    have hsquare : f.size + 1 ≤ (f.size + 1) * (f.size + 1) :=
      Nat.le_mul_of_pos_right _ (Nat.succ_pos _)
    unfold stepLimit
    omega
  have hrevise : result (revise (visit category grouped) (stepLimit f) root) f .start = _ :=
    result_revise_keepsAll hf (keepsAll_visit grouped hsettled) hsteps rfl
  rw [interleave_of_revise hrevise, foldl_noteKept]
  simp [State.start, summary]

/-- After a pass that succeeds there are no tabs left to be made, and any further pass with the same
category, merged or not, leaves every node as it is and says nothing but which admonitions have no
headings. -/
theorem interleave_settles (category : Value) (grouped : Bool) (root new : NodeId) (f g : Forest)
    (messages : List Log.Message) (hf : f.WellFormed) (hlt : root < f.size)
    (h : interleave category grouped root f = (.ok new, messages, g)) :
    (∀ n ∈ g.preorder new, divided g category n = false) ∧
      ∀ again, interleave category again new g =
        (.ok new, unchangedMessages g category (g.preorder new), g) := by
  obtain ⟨pieces, hroot, hexpand, hexpanded, rfl⟩ := expanded_of_interleave hf hlt h
  have hg := hexpanded.wellFormed
  have hsettled (n : NodeId) (hn : n ∈ g.preorder new) : divided g category n = false :=
    (hexpanded.standsAfter hf hroot hexpand hn).undivided hf
  have hcarry := carriesOn_interleave hf category grouped new
  rw [h] at hcarry
  refine ⟨hsettled, fun again => ?_⟩
  apply interleave_of_settled again hg (Nat.lt_of_lt_of_le hlt hcarry.size_le)
  exact fun n hn => hsettled n (hg.mem_preorder_iff.2 hn)

/-- In one pass both sets of tabs are made, and any pass after it reports the admonition without a
heading only. -/
theorem interleave_settles_tabsWithin : ∃ messages g,
    interleave (.str "tabs") true 6 tabsWithin = (.ok 6, messages, g) ∧
      (∀ n ∈ g.preorder 6, divided g (.str "tabs") n = false) ∧
        ∀ again, interleave (.str "tabs") again 6 g =
          (.ok 6, unchangedMessages g (.str "tabs") (g.preorder 6), g) := by
  have hf := wellFormed_tabsWithin
  have hlt : 6 < tabsWithin.size := by decide
  obtain ⟨messages, g, h⟩ : ∃ messages g,
      interleave (.str "tabs") true 6 tabsWithin = (.ok 6, messages, g) :=
    interleave_returns true hf hlt (by decide) textual_tabsWithin
  exact ⟨messages, g, h, interleave_settles (.str "tabs") true 6 6 tabsWithin g messages hf hlt h⟩

end MarkdownTree.Tabs
