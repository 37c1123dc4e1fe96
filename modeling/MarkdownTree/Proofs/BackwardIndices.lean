import Mathlib.Data.List.Basic
import MarkdownTree.Proofs.Destinations

/-!
Indices that count from the end of a list of children. For a node that comes from elsewhere such an
index means the place that the corresponding index from the start means. For a child that moves it
does not: an index from the start is moved back when the child leaves from before it, while an index
that counts back is never moved, so it counts in the list without the child. The two agree where the
child stands before the place that is meant, and at the very first place.
-/

namespace MarkdownTree.Forest

variable {f : Forest} {c p : NodeId} {before after before' after' : List NodeId} {k : Nat}

/-- No child stands before an index that counts back. -/
theorem indexWithout_neg (hf : f.WellFormed) (p c : NodeId) (hk : 0 < k) :
    f.indexWithout p c (-k) = .ok (-k : Int) := by
  unfold indexWithout
  split
  · rename_i hp
    obtain ⟨old, hold⟩ := exists_indexOf (hf.mem_of_parent? hp)
    have hnot : ¬ ((old : Int) < -k) := by omega
    simp [hold, bind, Except.bind, hnot]
  · rfl

/-- Counted back, an index leaves so many nodes behind it as far as there are any. -/
theorem insertAt_neg (list : List NodeId) (c : NodeId) (hk : 0 < k) :
    insertAt list (-k) c = list.take (list.length - k) ++ c :: list.drop (list.length - k) := by
  obtain ⟨m, hm⟩ : ∃ m, m = list.length - k := ⟨_, rfl⟩
  have hlength : (list.take m).length = m := by
    rw [List.length_take]
    omega
  have hplace : position ((list.take m).length + (list.drop m).length) (-k : Int) =
      (list.take m).length := by
    rw [hlength, List.length_drop]
    unfold position
    split_ifs <;> omega
  have hinsert := insertAt_append (list.take m) (list.drop m) c hplace
  rwa [List.take_append_drop, hm] at hinsert

/-- Two ways to put an item into one list agree if they put it behind equally many. -/
theorem append_cons_eq_iff_length (hsame : before ++ after = before' ++ after')
    (hb : c ∉ before) (hb' : c ∉ before') :
    before ++ c :: after = before' ++ c :: after' ↔ before.length = before'.length := by
  constructor
  · intro h
    have hindex := congrArg (List.idxOf c) h
    simpa [List.idxOf_append_of_notMem hb, List.idxOf_append_of_notMem hb'] using hindex
  · intro hlength
    obtain ⟨rfl, rfl⟩ := List.append_inj hsame hlength
    rfl

/-- An index that counts back and one from the start put a node at the same place among the children
if equally many of the others are before it. -/
theorem insertAt_neg_eq_movedTo_iff (list : List NodeId) (c : NodeId) (hk : 0 < k) (m : Nat) :
    insertAt (list.filter (· != c)) (-k) c = movedTo list m c ↔
      (list.filter (· != c)).length - k = ((list.take m).filter (· != c)).length := by
  have hothers : (list.take m).filter (· != c) ++ (list.drop m).filter (· != c) =
      list.filter (· != c) := by
    rw [← List.filter_append, List.take_append_drop]
  have hgone (front : List NodeId) : c ∉ front.filter (· != c) := by simp
  have hsame := append_cons_eq_iff_length (c := c)
    ((List.take_append_drop ((list.filter (· != c)).length - k) _).trans hothers.symm)
    (fun hmem => hgone list (List.mem_of_mem_take hmem)) (hgone (list.take m))
  rw [insertAt_neg _ c hk, movedTo, hsame, List.length_take,
    Nat.min_eq_left (Nat.sub_le _ _)]

/-- The corresponding index from the start means the same place unless a child stands at or behind
that place and moves; the very first place is the same for every node. -/
theorem insertAt_neg_eq_iff {list : List NodeId} (hnodup : list.Nodup) (c : NodeId) (hk : 0 < k)
    (hle : k ≤ list.length) :
    insertAt (list.filter (· != c)) (-k) c = movedTo list (list.length - k) c ↔
      (c ∈ list → k = list.length ∨ c ∈ list.take (list.length - k)) := by
  have hfront := length_filter_ne (hnodup.sublist (List.take_sublist (list.length - k) _)) c
  have hall := length_filter_ne hnodup c
  rw [insertAt_neg_eq_movedTo_iff list c hk, hall, hfront, List.length_take]
  by_cases hc : c ∈ list
  · by_cases hbefore : c ∈ list.take (list.length - k)
    · rw [if_pos hc, if_pos hbefore]
      exact iff_of_true (by omega) fun _ => Or.inr hbefore
    · rw [if_pos hc, if_neg hbefore]
      constructor
      · exact fun hlength _ => Or.inl (by omega)
      · intro h
        have hfirst := (h hc).resolve_right hbefore
        omega
  · have hnot : c ∉ list.take (list.length - k) := fun hmem => hc (List.mem_of_mem_take hmem)
    rw [if_neg hc, if_neg hnot]
    exact iff_of_true (by omega) fun hmem => absurd hmem hc

/-- For a child at or behind the place the index that counts back means one place less. -/
theorem insertAt_neg_eq_pred {list : List NodeId} (hnodup : list.Nodup) (hk : 0 < k)
    (hle : k ≤ list.length) (hc : c ∈ list) (hbehind : c ∉ list.take (list.length - k)) :
    insertAt (list.filter (· != c)) (-k) c = movedTo list (list.length - k - 1) c := by
  have hnot : c ∉ list.take (list.length - k - 1) := fun hmem =>
    hbehind ((List.take_subset_take_left _ (Nat.sub_le _ 1)) hmem)
  have hfront := length_filter_ne (hnodup.sublist (List.take_sublist (list.length - k - 1) _)) c
  rw [insertAt_neg_eq_movedTo_iff list c hk, length_filter_ne hnodup, hfront, if_pos hc,
    if_neg hnot, List.length_take]
  omega

/-- An index that lists take is one also after it was moved for a child that leaves. -/
theorem isIndex_of_indexWithout {i : Nat} {j : Int} (hj : f.indexWithout p c i = .ok j)
    (hi : isIndex i = true) : isIndex j = true := by
  have hnear : j = i ∨ j = i - 1 := (indexWithout_cases hj).imp_right And.left
  simp only [isIndex, Bool.and_eq_true, decide_eq_true_eq] at hi ⊢
  omega

/-- The forest after `c` was attached below `p` with the children in a given order. -/
def withChildren (f : Forest) (p c : NodeId) (list : List NodeId) : Forest :=
  (f.detach c).attach p [c] list

theorem placed_eq_withChildren (hf : f.WellFormed) (p c : NodeId) (j : Int) :
    f.placed p c j = f.withChildren p c (insertAt ((f.children p).filter (· != c)) j c) := by
  rw [placed, withChildren, children_detach hf]

theorem withChildren_inj (hp : p < f.size) :
    f.withChildren p c before = f.withChildren p c after ↔ before = after := by
  refine ⟨fun h => ?_, fun h => h ▸ rfl⟩
  have hlt : p < (f.detach c).size := by rwa [(sameData_detach f c).size_eq]
  have hlist := congrArg (fun g : Forest => g.children p) h
  simpa only [withChildren, children_attach hlt, if_pos] using hlist

section
variable (hf : f.WellFormed) (hfit : f.Fits p c)

include hf hfit

theorem outcome_insertChild_neg (hk : 0 < k) (hindex : isIndex (-k) = true) :
    outcome (insertChild p (-k) (.node c)) f =
      (.ok (), f.withChildren p c (insertAt ((f.children p).filter (· != c)) (-k) c)) := by
  have hcheck := (checkAttach_eq_ok_iff hf).2 ⟨rfl, hfit⟩
  rw [insertChild, outcome_attachAt hf hcheck (indexWithout_neg hf p c hk), if_pos hindex,
    placed_eq_withChildren hf]

theorem outcome_insertChild_nat {i : Nat} (hle : i ≤ (f.children p).length)
    (hindex : isIndex i = true) :
    outcome (insertChild p i (.node c)) f =
      (.ok (), f.withChildren p c (movedTo (f.children p) i c)) := by
  have hcheck := (checkAttach_eq_ok_iff hf).2 ⟨rfl, hfit⟩
  obtain ⟨j, hj⟩ := exists_indexWithout hf p c i
  rw [insertChild, outcome_attachAt hf hcheck hj, if_pos (isIndex_of_indexWithout hj hindex),
    placed_eq_withChildren hf, insertAt_eq_movedTo hf hj, Nat.min_eq_left hle]

end

/-- An index that counts back always succeeds, and ends as the corresponding index from the start
does exactly if the node is no child yet, or stands before the place that is meant, or that place is
the first. A child that stands at or behind the place ends one place further to the front, if there
is one. -/
theorem insertChild_backward (hf : f.WellFormed) (hp : p < f.size) (hfit : f.Fits p c) (hk : 0 < k)
    (hle : k ≤ (f.children p).length) (hcount : isIndex (f.children p).length = true) :
    ∃ g, outcome (insertChild p (-k) (.node c)) f = (.ok (), g) ∧
      (outcome (insertChild p ((f.children p).length - k : Nat) (.node c)) f = (.ok (), g) ↔
        (c ∈ f.children p → k = (f.children p).length ∨
          c ∈ (f.children p).take ((f.children p).length - k))) ∧
      (c ∈ f.children p → c ∉ (f.children p).take ((f.children p).length - k) →
        outcome (insertChild p ((f.children p).length - k - 1 : Nat) (.node c)) f =
          (.ok (), g)) := by
  have hindex (i : Int) (hlow : -(f.children p).length ≤ i) (hhigh : i ≤ (f.children p).length) :
      isIndex i = true := by
    simp only [isIndex, Bool.and_eq_true, decide_eq_true_eq] at hcount ⊢
    omega
  have hnodup := hf.nodup_children p
  refine ⟨_, outcome_insertChild_neg hf hfit hk (hindex _ (by omega) (by omega)), ?_,
    fun hc hbehind => ?_⟩
  · rw [outcome_insertChild_nat hf hfit (Nat.sub_le _ _) (hindex _ (by omega) (by omega)),
      ← insertAt_neg_eq_iff hnodup c hk hle, ← withChildren_inj hp (c := c), Prod.mk.injEq]
    exact ⟨fun h => h.2.symm, fun h => ⟨rfl, h.symm⟩⟩
  · rw [outcome_insertChild_nat hf hfit (by omega) (hindex _ (by omega) (by omega)),
      insertAt_neg_eq_pred hnodup hk hle hc hbehind]

/-- Counted back, the second place from the end of the document is where a paragraph from the block
quote goes, and where the first paragraph moves. -/
theorem insertChild_backward_quoteBetween :
    quoteBetween.Fits 4 0 ∧ quoteBetween.Fits 4 2 ∧
      outcome (insertChild 4 (-2) (.node 0)) quoteBetween =
        outcome (insertChild 4 1 (.node 0)) quoteBetween ∧
      outcome (insertChild 4 (-1) (.node 2)) quoteBetween =
        outcome (insertChild 4 2 (.node 2)) quoteBetween := by
  have hf := wellFormed_quoteBetween
  have hcontent : quoteBetween.Fits 4 0 := fits_of_tests hf (by decide) (by decide)
  have hfirst : quoteBetween.Fits 4 2 := fits_of_tests hf (by decide) (by decide)
  obtain ⟨g, hback, hiff, -⟩ :=
    insertChild_backward (k := 2) hf (by decide) hcontent (by decide) (by decide) (by decide)
  obtain ⟨h, hback', hiff', -⟩ :=
    insertChild_backward (k := 1) hf (by decide) hfirst (by decide) (by decide) (by decide)
  have hsame := hback.trans (hiff.2 fun hmem => absurd hmem (by decide)).symm
  have hsame' := hback'.trans (hiff'.2 fun _ => Or.inr (by decide)).symm
  exact ⟨hcontent, hfirst, hsame, hsame'⟩

/-- The last paragraph of the document is where the index 2 would put it. The index -1, which counts
back to the same place, moves it in front of the block quote's. -/
theorem not_same_place_lastChild :
    quoteBetween.WellFormed ∧ quoteBetween.Fits 4 3 ∧ (quoteBetween.children 4).length = 3 ∧
      outcome (insertChild 4 (-1) (.node 3)) quoteBetween ≠
        outcome (insertChild 4 2 (.node 3)) quoteBetween := by
  have hf := wellFormed_quoteBetween
  refine ⟨hf, fits_of_tests hf (by decide) (by decide), rfl, fun hsame => ?_⟩
  have hback : (outcome (insertChild 4 (-1) (.node 3)) quoteBetween).2.children 4 = [2, 3, 1] := rfl
  have hforward : (outcome (insertChild 4 2 (.node 3)) quoteBetween).2.children 4 = [2, 1, 3] := rfl
  rw [hsame, hforward] at hback
  cases hback

end MarkdownTree.Forest
