import MarkdownTree.Proofs.PassRuns
import MarkdownTree.Proofs.Subtrees

/-!
Passes that keep every node. A visitor that keeps what it is asked about is asked about each node of
the tree once, in document order, and the forest stays as it is; all that remains of the pass is
what the visitor has noted on its way.
-/

namespace MarkdownTree.Revision

open Forest Asking

variable {σ ε : Type} {visit : Visitor σ ε} {good : σ → Prop} {note : σ → NodeId → σ} {f : Forest}
  {c p root : NodeId} {i : Nat} {list offered : List NodeId} {rest stack : List Frame} {s : σ}

/-- In a good state the visitor keeps every node of a tree, leaves the forest alone, and takes a
note, which leads to a good state again. -/
structure KeepsAll (visit : Visitor σ ε) (good : σ → Prop) (note : σ → NodeId → σ) (f : Forest)
    (root : NodeId) : Prop where
  visit_eq (n : NodeId) (s : σ) (hn : f.AtOrAbove root n) (hs : good s) :
    visit n f s = (.ok (.action .keep), f, note s n)
  good_note (n : NodeId) (s : σ) (hs : good s) : good (note s n)

namespace KeepsAll

variable (h : KeepsAll visit good note f root)

include h

theorem below (hc : f.AtOrAbove root c) : KeepsAll visit good note f c where
  visit_eq n s hn hs := h.visit_eq n s (hc.trans hn) hs
  good_note := h.good_note

theorem good_notes (hs : good s) (nodes : List NodeId) : good (nodes.foldl note s) := by
  induction nodes generalizing s with
  | nil => exact hs
  | cons n nodes ih => exact ih (h.good_note n s hs)

end KeepsAll

/-- A pass in which no node is final, with its places and the nodes that were offered. -/
def openAt (f : Forest) (stack : List Frame) (offered : List NodeId) (s : σ) : Config σ :=
  ⟨⟨stack, offered, []⟩, f, s⟩

/-- All trees of a list were gone through, and the pass is where it was before. -/
def WalksOver (visit : Visitor σ ε) (good : σ → Prop) (note : σ → NodeId → σ) (f : Forest)
    (list : List NodeId) (stack rest : List Frame) : Prop :=
  ∀ offered s, (list.flatMap f.preorder ++ offered).Nodup → good s →
    Reaches visit (2 * (list.flatMap f.preorder).length + 1) (openAt f stack offered s)
      (openAt f rest ((list.flatMap f.preorder).reverse ++ offered)
        ((list.flatMap f.preorder).foldl note s))

theorem reaches_close (hend : (f.children p)[i]? = none) :
    Reaches visit 1 (openAt f (⟨p, i⟩ :: rest) offered s) (openAt f rest offered s) := by
  apply Reaches.of_step (show (openAt f (⟨p, i⟩ :: rest) offered s).progress.stack = _ from rfl)
  show result (step visit ⟨⟨p, i⟩ :: rest, offered, []⟩) f s = (.ok ⟨rest, offered, []⟩, f, s)
  rw [result_step visit s rfl]
  simp only [hend]

theorem reaches_kept (hc : (f.children p)[i]? = some c)
    (hvisit : visit c f s = (.ok (.action .keep), f, note s c)) (hnew : c ∉ offered) :
    Reaches visit 1 (openAt f (⟨p, i⟩ :: rest) offered s)
      (openAt f (descendInto f c (⟨p, i + 1⟩ :: rest)) (c :: offered) (note s c)) := by
  apply Reaches.of_step (show (openAt f (⟨p, i⟩ :: rest) offered s).progress.stack = _ from rfl)
  show result (step visit ⟨⟨p, i⟩ :: rest, offered, []⟩) f s =
    (.ok ⟨descendInto f c (⟨p, i + 1⟩ :: rest), c :: offered, []⟩, f, note s c)
  rw [result_step visit s rfl]
  simp only [hc, result_handleChild, List.not_mem_nil, if_false, hnew, hvisit, Answer.toAction,
    result_keep, setNext]

theorem walksOver_nil (hend : (f.children p)[i]? = none) :
    WalksOver visit good note f [] (⟨p, i⟩ :: rest) rest :=
  fun _ _ _ _ => reaches_close hend

/-- A place is opened at a kept child only if there is anything to go through. -/
theorem WalksOver.descendInto
    (h : WalksOver visit good note f (f.children c) (⟨c, 0⟩ :: stack) stack) :
    WalksOver visit good note f (f.children c) (descendInto f c stack) stack := by
  unfold Revision.descendInto
  split
  · rename_i hempty
    intro offered s _ _
    rw [List.isEmpty_iff.1 hempty]
    exact (Reaches.refl _).mono (Nat.zero_le _)
  · exact h

/-- While a child, what is below it and what is behind it are still to come, none of the nodes that
were offered comes again, whichever of them were offered by then. -/
theorem nodup_later {below behind : List NodeId}
    (h : (c :: (below ++ behind) ++ offered).Nodup) :
    c ∉ offered ∧ (below ++ c :: offered).Nodup ∧
      (behind ++ (below.reverse ++ c :: offered)).Nodup := by
  have hswap : List.Perm (below ++ behind) (behind ++ below.reverse) :=
    List.perm_append_comm.trans ((List.reverse_perm below).symm.append_left behind)
  have hsub : List.Sublist (c :: (below ++ offered)) (c :: (below ++ behind ++ offered)) :=
    ((List.sublist_append_left below behind).append_right offered).cons_cons c
  refine ⟨fun hc => ?_, ?_, ?_⟩
  · exact (List.nodup_cons.1 h).1 (List.mem_append_right _ hc)
  · exact List.perm_middle.symm.nodup_iff.1 (h.sublist hsub)
  · rw [← List.append_assoc]
    exact (((hswap.append_right offered).cons c).trans List.perm_middle.symm).nodup_iff.1 h

/-- A child is kept, its tree is gone through, and then the trees of the siblings behind it. -/
theorem walksOver_cons (hf : f.WellFormed) (hkeeps : KeepsAll visit good note f c)
    (hc : (f.children p)[i]? = some c)
    (hbelow : ∀ stack, WalksOver visit good note f (f.children c) (⟨c, 0⟩ :: stack) stack)
    (hlist : WalksOver visit good note f list (⟨p, i + 1⟩ :: rest) rest) :
    WalksOver visit good note f (c :: list) (⟨p, i⟩ :: rest) rest := by
  intro offered s hnodup hs
  have hnodes : (c :: list).flatMap f.preorder =
      c :: ((f.children c).flatMap f.preorder ++ list.flatMap f.preorder) := by
    rw [List.flatMap_cons, hf.preorder_eq, List.cons_append]
  rw [hnodes] at hnodup ⊢
  obtain ⟨hnew, hdown, hon⟩ := nodup_later hnodup
  have hs₁ : good (note s c) := hkeeps.good_note c s hs
  have hkept : Reaches visit 1 (openAt f (⟨p, i⟩ :: rest) offered s)
      (openAt f (descendInto f c (⟨p, i + 1⟩ :: rest)) (c :: offered) (note s c)) :=
    reaches_kept hc (hkeeps.visit_eq c s (.refl f c) hs) hnew
  have hchildren := (hbelow (⟨p, i + 1⟩ :: rest)).descendInto (c :: offered) (note s c) hdown hs₁
  have hsiblings := hlist _ _ hon (hkeeps.good_notes hs₁ ((f.children c).flatMap f.preorder))
  have hall := (hkept.trans (hchildren.trans hsiblings)).mono
    (k := 2 * (c :: ((f.children c).flatMap f.preorder ++ list.flatMap f.preorder)).length + 1) (by
      simp only [List.length_cons, List.length_append]
      omega)
  simpa [List.foldl_append] using hall

/-- The children of a node are gone through, and the place is closed. -/
theorem walksOver_children (hf : f.WellFormed) (hkeeps : KeepsAll visit good note f root)
    (hp : f.AtOrAbove root p) (rest : List Frame) :
    WalksOver visit good note f (f.children p) (⟨p, 0⟩ :: rest) rest := by
  induction p using hf.down_induction generalizing rest with
  | h p ih =>
      have hfrom (list : List NodeId) (i : Nat) (hlist : (f.children p).drop i = list) :
          WalksOver visit good note f list (⟨p, i⟩ :: rest) rest := by
        induction list generalizing i with
        | nil => exact walksOver_nil (List.getElem?_eq_none (List.drop_eq_nil_iff.1 hlist))
        | cons c list ih_list =>
            have hc : (f.children p)[i]? = some c := by
              rw [← List.head?_drop, hlist, List.head?_cons]
            have hmem := List.mem_of_getElem? hc
            have hover := hp.trans (hf.ancestor_of_mem hmem).atOrAbove
            have hlist' : (f.children p).drop (i + 1) = list := by
              rw [← List.tail_drop, hlist, List.tail_cons]
            exact walksOver_cons hf (hkeeps.below hover) hc (fun stack => ih c hmem hover stack)
              (ih_list (i + 1) hlist')
      exact hfrom (f.children p) 0 rfl

/-- A pass whose visitor keeps every node of the tree succeeds and changes nothing; the notes are
those about the nodes in document order. -/
theorem result_revise_keepsAll (hf : f.WellFormed) (hkeeps : KeepsAll visit good note f root)
    {steps : Nat} (hsteps : 2 * (f.preorder root).length ≤ steps) (hs : good s) :
    result (revise visit steps root) f s =
      (.ok root, f, (f.preorder root).foldl note s) := by
  have hnodup : ((f.children root).flatMap f.preorder ++ [root]).Nodup := by
    rw [List.nodup_append_comm, List.singleton_append, ← hf.preorder_eq]
    exact hf.nodup_preorder root
  have hwalk := walksOver_children hf hkeeps (.refl f root) [] [root] (note s root) hnodup
    (hkeeps.good_note root s hs)
  rw [result_revise_keep (hkeeps.visit_eq root s (.refl f root) hs)]
  rw [hf.preorder_eq, List.length_cons] at hsteps
  have hrun := hwalk.run_eq rfl (Nat.le_trans (by omega) hsteps)
  rw [openAt] at hrun
  rw [hrun, hf.preorder_eq, List.foldl_cons]
  rfl

end MarkdownTree.Revision
