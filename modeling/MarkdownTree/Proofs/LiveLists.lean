import MarkdownTree.Forest.Sequence
import MarkdownTree.Proofs.Growth

/-!
What comes of handing over the list in which a node keeps its children. While it is gone through,
each node that leaves makes it pass over the next one. So of the children that should go elsewhere
every other one is lost, and what is left over after that either stays in the list that it should
have left, or is put into the list that it is read from without end. The forest stays well-formed
if nothing is left over, and only then.
-/

namespace MarkdownTree.Forest

variable {f g : Forest} {c k m n p : NodeId} {before after front list nodes rest : List NodeId}
  {rounds i index : Nat}

/-! ### Leaving a list -/

/-- The nodes that leave a list when each but `c` is taken from it while it is gone through. -/
def leaving (c : NodeId) : List NodeId → List NodeId
  | [] => []
  | [m] => if m = c then [] else [m]
  | m :: k :: rest => if m = c then leaving c (k :: rest) else m :: leaving c rest

theorem leaving_self (c : NodeId) (list : List NodeId) :
    leaving c (c :: list) = leaving c list := by
  cases list <;> simp [leaving]

theorem not_mem_leaving (c : NodeId) (list : List NodeId) : c ∉ leaving c list := by
  fun_induction leaving c list with
  | case1 => exact List.not_mem_nil
  | case2 => exact List.not_mem_nil
  | case3 m hm => exact List.not_mem_cons_of_ne_of_not_mem (Ne.symm hm) List.not_mem_nil
  | case4 k rest ih => exact ih
  | case5 m k rest hm ih => exact List.not_mem_cons_of_ne_of_not_mem (Ne.symm hm) ih

theorem unlinkAlong_end (hend : (f.children n).length ≤ i) :
    outcome (unlinkAlong n c rounds i) f = (.ok (), f) := by
  cases rounds with
  | zero => rfl
  | succ rounds =>
      rw [unlinkAlong, outcome_bind, outcome_get]
      simp only [List.getElem?_eq_none hend]
      rfl

/-- Gone through from an index on, the rest of the list loses the nodes that leave. -/
theorem outcome_unlinkAlong (hf : f.WellFormed) (hlist : f.children n = front ++ rest)
    (hrounds : rest.length ≤ rounds) :
    outcome (unlinkAlong n c rounds front.length) f = (.ok (), f.detachAll (leaving c rest)) := by
  induction rounds generalizing f front rest with
  | zero =>
      obtain rfl := List.length_eq_zero_iff.1 (Nat.le_zero.1 hrounds)
      rfl
  | succ rounds ih =>
      cases rest with
      | nil => exact unlinkAlong_end (by simp [hlist])
      | cons m rest =>
          have hnext : (f.children n)[front.length]? = some m := by simp [hlist]
          rw [unlinkAlong, outcome_bind, outcome_get]
          simp only [hnext]
          by_cases hm : m = c
          · subst hm
            have hsplit : f.children n = (front ++ [m]) ++ rest := by simp [hlist]
            have hstep := ih hf hsplit (Nat.le_of_succ_le_succ hrounds)
            rw [List.length_append] at hstep
            rw [leaving_self, ← hstep, if_pos rfl]
            rfl
          · rw [if_neg hm, outcome_bind, outcome_unlink hf]
            have hfree := hf.not_mem_of_split hlist
            have hchildren : (f.detach m).children n = front ++ rest := by
              rw [children_detach hf, hlist, List.filter_append, List.filter_cons_of_neg (by simp)]
              refine congrArg₂ (· ++ ·) (List.filter_eq_self.2 fun k hk => ?_)
                (List.filter_eq_self.2 fun k hk => ?_)
              · simpa using ne_of_mem_of_not_mem hk hfree.1
              · simpa using ne_of_mem_of_not_mem hk hfree.2
            -- The node after the one that left has moved up, and is passed over.
            cases rest with
            | nil =>
                rw [leaving, if_neg hm]
                exact unlinkAlong_end (by simp [hchildren])
            | cons k rest =>
                have hsplit : (f.detach m).children n = (front ++ [k]) ++ rest := by
                  simp [hchildren]
                have hstep := ih (hf.detach m) hsplit (by simp at hrounds; omega)
                rw [List.length_append] at hstep
                rw [leaving, if_neg hm, detachAll_cons, ← hstep]
                rfl

/-! ### Taking the place of a child -/

/-- The forest after the children of `n` left as they do while their list is gone through, and `c`
after them. -/
def emptied (f : Forest) (c n : NodeId) : Forest :=
  (f.detachAll (leaving c (f.children n))).detach c

/-- The children of `n` that neither left nor are the child that gave way. -/
def leftover (f : Forest) (c n : NodeId) : List NodeId :=
  (without (f.children n) (leaving c (f.children n))).filter (· != c)

theorem WellFormed.emptied (hf : f.WellFormed) (c n : NodeId) : (f.emptied c n).WellFormed :=
  (hf.detachAll _).detach c

theorem relinked_emptied (hf : f.WellFormed) (c n : NodeId) : f.Relinked (f.emptied c n) :=
  ⟨(sameData_detachAll f _).trans (sameData_detach _ c), hf.emptied c n⟩

theorem children_emptied (hf : f.WellFormed) (c n : NodeId) :
    (f.emptied c n).children n = f.leftover c n := by
  rw [Forest.emptied, children_detach (hf.detachAll _), children_detachAll hf]
  rfl

theorem parent?_emptied (f : Forest) (c n m : NodeId) : (f.emptied c n).parent? m =
    if m = c ∨ m ∈ leaving c (f.children n) then none else f.parent? m := by
  rw [emptied, parent?_detach, parent?_detachAll]
  by_cases hm : m = c <;> simp [hm]

/-- The child that gives way leaves its list as any child does. -/
theorem setParent_spliceAt (hf : f.WellFormed) (h : f.children p = before ++ c :: after) :
    (f.setChildren p (spliceAt (f.children p) before.length [])).setParent c none = f.detach c := by
  have hb := (hf.not_mem_of_split h).1
  have hparent : f.parent? c = some p := hf.parent?_of_mem (by simp [h])
  simp only [detach, hparent, h, spliceAt_append, List.append_nil, List.erase_append_right _ hb,
    List.erase_cons_head]

/-- When the check is passed, what is left of the list is put below the parent. -/
theorem outcome_replaceByChildren (hf : f.WellFormed) (h : f.children p = before ++ c :: after)
    (hcheck : f.checkReplacement p [] ((f.children n).map .node) = .ok nodes) (rounds : Nat) :
    outcome (replaceByChildren rounds p (.node c) n) f =
      let index := (without before (leaving c (f.children n))).length
      match outcome (insertAlong p n index rounds 0) (f.emptied c n) with
      | (.ok ended, g) => (.ok (if ended then some index else none), g)
      | (.error e, g) => (.error e, g) := by
  have hindex : indexOf (f.children p) c = .ok before.length :=
    h ▸ indexOf_append (hf.not_mem_of_split h).1
  have hleft := hf.detachAll (leaving c (f.children n))
  have hchildren : (f.detachAll (leaving c (f.children n))).children p =
      without before (leaving c (f.children n)) ++
        c :: without after (leaving c (f.children n)) := by
    rw [children_detachAll hf, h, List.filter_append,
      List.filter_cons_of_pos (by simpa using not_mem_leaving c _)]
    rfl
  have hindex' : indexOf ((f.detachAll (leaving c (f.children n))).children p) c =
      .ok (without before (leaving c (f.children n))).length :=
    hchildren ▸ indexOf_append (hleft.not_mem_of_split hchildren).1
  have hunlink := outcome_unlinkAlong (c := c) hf (List.nil_append (f.children n)).symm
    (Nat.le_refl _)
  rw [List.length_nil] at hunlink
  simp only [replaceByChildren, outcome_bind, outcome_get, outcome_liftM, hindex, hcheck, hunlink,
    hindex', outcome_change]
  rw [setParent_spliceAt hleft hchildren, ← emptied]
  cases outcome (insertAlong p n _ rounds 0) (f.emptied c n) with
  | mk r g => cases r <;> rfl

/-! ### Insertion from a list that changes -/

theorem insertAlong_end (h : (f.children n).length ≤ i) :
    outcome (insertAlong p n index rounds i) f = (.ok true, f) := by
  cases rounds <;>
  · rw [insertAlong, outcome_bind, outcome_get]
    simp only [List.getElem?_eq_none h]
    rfl

theorem insertAlong_succ (h : (f.children n)[i]? = some m) :
    outcome (insertAlong p n index (rounds + 1) i) f =
      outcome (insertAlong p n index rounds (i + 1))
        ((f.setParent m (some p)).setChildren p
          (insertAt ((f.setParent m (some p)).children p) (index + i : Nat) m)) := by
  rw [insertAlong, outcome_bind, outcome_get]
  simp only [h]
  rfl

/-- In `g` the parent of the nodes that were read, from an index on, is `p`; they still are the
children of `n`. -/
structure ReadOff (f g : Forest) (p n : NodeId) (i : Nat) (ended : Bool) : Prop where
  children_eq : g.children n = f.children n
  kept (m : NodeId) (hm : f.parent? m = some p) : g.parent? m = some p
  parent?_eq (hended : ended = true) (m : NodeId) (hm : m ∈ (f.children n).drop i) :
    g.parent? m = some p

theorem readOff_self (hend : (f.children n).length ≤ i) : f.ReadOff f p n i true := by
  refine ⟨rfl, fun _ hm => hm, fun _ m hm => ?_⟩
  rw [List.drop_eq_nil_of_le hend] at hm
  cases hm

/-- Nodes that are read from the children of another node stay there. -/
theorem insertAlong_elsewhere (hne : n ≠ p) (hlt : ∀ m ∈ f.children n, m < f.size)
    (index rounds i : Nat) :
    ∃ ended g, outcome (insertAlong p n index rounds i) f = (.ok ended, g) ∧
      f.ReadOff g p n i ended := by
  induction rounds generalizing f i with
  | zero =>
      rcases Nat.lt_or_ge i (f.children n).length with hi | hi
      · refine ⟨false, f, ?_, rfl, fun _ hm => hm, nofun⟩
        rw [insertAlong, outcome_bind, outcome_get]
        simp only [List.getElem?_eq_getElem hi]
        rfl
      · exact ⟨true, f, insertAlong_end hi, readOff_self hi⟩
  | succ rounds ih =>
      cases hm : (f.children n)[i]? with
      | none =>
          have hend := List.getElem?_eq_none_iff.1 hm
          exact ⟨true, f, insertAlong_end hend, readOff_self hend⟩
      | some m =>
          have hmem := List.mem_of_getElem? hm
          obtain ⟨h, hh⟩ : ∃ h, h = (f.setParent m (some p)).setChildren p
              (insertAt ((f.setParent m (some p)).children p) (index + i : Nat) m) := ⟨_, rfl⟩
          have hlist : h.children n = f.children n := by
            rw [hh, children_setChildren, if_neg fun h => hne h.1.symm, children_setParent]
          have hparent (k : NodeId) : h.parent? k = if m = k then some p else f.parent? k := by
            rw [hh, parent?_setChildren, parent?_setParent]
            by_cases hk : m = k
            · rw [if_pos ⟨hk, hk ▸ hlt m hmem⟩, if_pos hk]
            · rw [if_neg fun h => hk h.1, if_neg hk]
          have hsize : h.size = f.size := by simp [hh]
          obtain ⟨ended, g, hout, hread⟩ :=
            ih (f := h) (fun k hk => hsize ▸ hlt k (hlist ▸ hk)) (i + 1)
          refine ⟨ended, g, by rw [insertAlong_succ hm, ← hh, hout],
            hread.children_eq.trans hlist, fun k hk => hread.kept k ?_, fun hended k hk => ?_⟩
          · rw [hparent]
            split
            · rfl
            · exact hk
          · obtain ⟨hi, hget⟩ := List.getElem?_eq_some_iff.1 hm
            rw [List.drop_eq_getElem_cons hi, hget] at hk
            rcases List.mem_cons.1 hk with rfl | hk
            · exact hread.kept k (by rw [hparent, if_pos rfl])
            · exact hread.parent?_eq hended k (hlist ▸ hk)

/-- Nodes that are put into the list that they are read from have no end. -/
theorem insertAlong_itself (index rounds : Nat) (hi : i < (f.children p).length) :
    ∃ g, outcome (insertAlong p p index rounds i) f = (.ok false, g) := by
  induction rounds generalizing f i with
  | zero =>
      refine ⟨f, ?_⟩
      rw [insertAlong, outcome_bind, outcome_get]
      simp only [List.getElem?_eq_getElem hi]
      rfl
  | succ rounds ih =>
      rw [insertAlong_succ (List.getElem?_eq_getElem hi)]
      refine ih ?_
      have hp : p < f.size := lt_size_of_mem_children (List.getElem_mem hi)
      rw [children_setChildren, if_pos ⟨rfl, by simpa using hp⟩, children_setParent, insertAt,
        List.length_insertIdx]
      have hpos : position (f.children p).length ((index + i : Nat) : Int) ≤
          (f.children p).length := by
        unfold position
        split <;> omega
      rw [if_pos hpos]
      omega

/-! ### What comes of it -/

section
variable (hf : f.WellFormed) (h : f.children p = before ++ c :: after)
  (hcheck : f.checkReplacement p [] ((f.children n).map .node) = .ok nodes)

include hf h hcheck

/-- If nothing is left over, nothing is put in the place of the child. -/
theorem replaceByChildren_of_leftover (hnone : f.leftover c n = []) (rounds : Nat) :
    outcome (replaceByChildren rounds p (.node c) n) f =
      (.ok (some (without before (leaving c (f.children n))).length), f.emptied c n) := by
  have hend : ((f.emptied c n).children n).length ≤ 0 := by simp [children_emptied hf, hnone]
  rw [outcome_replaceByChildren hf h hcheck]
  simp only [insertAlong_end hend, if_true]

omit hcheck in
/-- Children that take the place of one of them have no end, unless nothing is left over. -/
theorem replaceByChildren_endless
    (hcheck : f.checkReplacement p [] ((f.children p).map .node) = .ok nodes)
    (hsome : f.leftover c p ≠ []) (rounds : Nat) :
    ∃ g, outcome (replaceByChildren rounds p (.node c) p) f = (.ok none, g) := by
  have hmore : 0 < ((f.emptied c p).children p).length := by
    rw [children_emptied hf]
    exact List.length_pos_of_ne_nil hsome
  obtain ⟨g, hout⟩ := insertAlong_itself (without before (leaving c (f.children p))).length
    rounds hmore
  rw [outcome_replaceByChildren hf h hcheck]
  simp only [hout]
  exact ⟨g, rfl⟩

/-- What is not refused is done, as far as the rounds go. -/
theorem exists_replaceByChildren (rounds : Nat) : ∃ r g,
    outcome (replaceByChildren rounds p (.node c) n) f = (.ok r, g) := by
  rw [outcome_replaceByChildren hf h hcheck]
  by_cases hne : n = p
  · subst hne
    rcases Nat.eq_zero_or_pos ((f.emptied c n).children n).length with hnone | hsome
    · simp only [insertAlong_end (Nat.le_of_eq hnone)]
      exact ⟨_, _, rfl⟩
    · obtain ⟨g, hout⟩ := insertAlong_itself
        (without before (leaving c (f.children n))).length rounds hsome
      simp only [hout]
      exact ⟨_, _, rfl⟩
  · obtain ⟨ended, g, hout, -⟩ := insertAlong_elsewhere hne
      (fun m hm => (hf.emptied c n).lt_size_of_mem hm)
      (without before (leaving c (f.children n))).length rounds 0
    simp only [hout]
    exact ⟨_, _, rfl⟩

/-- A replacement that returns leaves what is left over with two parents' lists, or does so with
nothing left over. -/
theorem replaceByChildren_ok {rounds i : Nat}
    (hres : outcome (replaceByChildren rounds p (.node c) n) f = (.ok (some i), g)) :
    (f.leftover c n = [] ∧ g = f.emptied c n) ∨
      (f.leftover c n ≠ [] ∧ n ≠ p) ∧ g.children n = f.leftover c n ∧
        ∀ m ∈ f.leftover c n, g.parent? m = some p := by
  by_cases hnone : f.leftover c n = []
  · rw [replaceByChildren_of_leftover hf h hcheck hnone] at hres
    cases hres
    exact Or.inl ⟨hnone, rfl⟩
  have hlist := children_emptied hf c n
  rw [outcome_replaceByChildren hf h hcheck] at hres
  by_cases hne : n = p
  · subst hne
    have hmore : 0 < ((f.emptied c n).children n).length :=
      hlist ▸ List.length_pos_of_ne_nil hnone
    obtain ⟨g', hout⟩ := insertAlong_itself (without before (leaving c (f.children n))).length
      rounds hmore
    simp only [hout] at hres
    cases hres
  · obtain ⟨ended, g', hout, hread⟩ := insertAlong_elsewhere hne
      (fun m hm => (hf.emptied c n).lt_size_of_mem hm)
      (without before (leaving c (f.children n))).length rounds 0
    simp only [hout] at hres
    cases ended with
    | false => cases hres
    | true =>
        cases hres
        refine Or.inr ⟨⟨hnone, hne⟩, hread.children_eq.trans hlist, fun m hm => ?_⟩
        exact hread.parent?_eq rfl m (by rwa [List.drop_zero, hlist])

/-- The forest stays well-formed if nothing is left over, and only then. -/
theorem wellFormed_replaceByChildren_iff {rounds i : Nat}
    (hres : outcome (replaceByChildren rounds p (.node c) n) f = (.ok (some i), g)) :
    g.WellFormed ↔ f.leftover c n = [] := by
  constructor
  · intro hg
    rcases replaceByChildren_ok hf h hcheck hres with ⟨hnone, -⟩ | ⟨⟨-, hne⟩, hlist, hparent⟩
    · exact hnone
    · refine List.eq_nil_iff_forall_not_mem.2 fun m hm => hne ?_
      have hn := hg.parent?_of_mem (hlist ▸ hm)
      rw [hparent m hm] at hn
      exact (Option.some.inj hn).symm
  · intro hnone
    rw [replaceByChildren_of_leftover hf h hcheck hnone] at hres
    cases hres
    exact hf.emptied c n

end

/-! ### Lists that stay as they are -/

theorem setParent_setChildren (f : Forest) (p c : NodeId) (q : Option NodeId)
    (list : List NodeId) :
    (f.setChildren p list).setParent c q = (f.setParent c q).setChildren p list := by
  have hnodes :
      (f.nodes.modify p ({ · with children := list })).modify c ({ · with parent := q }) =
        (f.nodes.modify c ({ · with parent := q })).modify p ({ · with children := list }) := by
    refine Array.ext_getElem? fun i => ?_
    simp only [Array.getElem?_modify]
    cases f.nodes[i]? <;> by_cases hp : p = i <;> by_cases hc : c = i <;> simp [hp, hc]
  simp only [setParent, setChildren, updateNode, hnodes]

/-- Replaced by nothing, a child is taken out of the list. -/
theorem outcome_replaceChild_nothing (f : Forest) (p c : NodeId) :
    outcome (replaceChild p (.node c) []) f =
      match indexOf (f.children p) c with
      | .ok i => (.ok i, (f.setChildren p (spliceAt (f.children p) i [])).setParent c none)
      | .error e => (.error e, f) := by
  cases hindex : indexOf (f.children p) c with
  | error e => simp [replaceChild, outcome_bind, hindex]
  | ok i =>
      simp only [replaceChild, outcome_bind, outcome_get, outcome_liftM, hindex, checkReplacement,
        List.filter_nil, unlinkAll, outcome_pure, outcome_change]
      rw [setParent_setChildren]
      rfl

/-- A node without children is not the one that a child is taken from. -/
theorem children_replaceChild_nothing {i : Nat} (h : f.children n = [])
    (hres : outcome (replaceChild p (.node c) []) f = (.ok i, g)) : g.children n = [] := by
  rw [outcome_replaceChild_nothing] at hres
  cases hindex : indexOf (f.children p) c with
  | error e =>
      rw [hindex] at hres
      cases hres
  | ok j =>
      have hne : p ≠ n := by
        rintro rfl
        rw [h] at hindex
        cases hindex
      rw [hindex] at hres
      cases hres
      rw [children_setParent, children_setChildren, if_neg fun h => hne h.1, h]

/-- Children that a node does not have are no others than none. -/
theorem outcome_replaceByChildren_empty (h : f.children n = []) (rounds : Nat) (p : NodeId)
    (v : Value) :
    outcome (replaceByChildren rounds p v n) f =
      match outcome (replaceChild p v []) f with
      | (.ok i, g) => (.ok (some i), g)
      | (.error e, g) => (.error e, g) := by
  cases v with
  | node c =>
      cases hindex : indexOf (f.children p) c with
      | error e => simp [replaceByChildren, replaceChild, outcome_bind, hindex]
      | ok i =>
          have hres : outcome (replaceChild p (.node c) []) f =
              (.ok i, (f.setChildren p (spliceAt (f.children p) i [])).setParent c none) := by
            rw [outcome_replaceChild_nothing, hindex]
          have hlist := children_replaceChild_nothing h hres
          have hend (g : Forest) (hg : g.children n = []) :
              outcome (insertAlong p n i rounds 0) g = (.ok true, g) :=
            insertAlong_end (by simp [hg])
          have hunlink : unlinkAlong n c 0 0 = pure () := rfl
          simp only [hres, replaceByChildren, outcome_bind, outcome_get, outcome_liftM, h, hindex,
            List.map_nil, checkReplacement, List.length_nil, hunlink, outcome_pure, outcome_change,
            hend _ hlist, if_true]
  | _ => rfl

/-- A sequence stays as it is while its nodes are moved: it has items of its own, or it is the list
of a node without children. -/
def Steady (f : Forest) : Sequence → Prop
  | .own _ => True
  | .childrenOf n => f.children n = []

/-! ### Lists that leave nothing over -/

/-- Nothing but the child that gives way is left over in the list that takes its place, if there is
such a list and it is not refused. -/
def LeavesNothing (f : Forest) (p : NodeId) (v : Value) (seq : Sequence) : Prop :=
  ∀ n c nodes, seq = .childrenOf n → v = .node c → c ∈ f.children p →
    f.checkReplacement p [] (seq.items f) = .ok nodes → f.leftover c n = []

/-- The children of a node are refused in the place of a child, and then nothing is changed, or they
may stand there. -/
theorem replaceByChildren_cases (f : Forest) (p : NodeId) (v : Value) (n : NodeId) (rounds : Nat) :
    (∃ e, outcome (replaceByChildren rounds p v n) f = (.error e, f)) ∨
      ∃ c nodes, v = .node c ∧ c ∈ f.children p ∧
        f.checkReplacement p [] ((f.children n).map .node) = .ok nodes := by
  cases v with
  | node c =>
      by_cases hc : c ∈ f.children p
      · obtain ⟨i, hi⟩ := exists_indexOf hc
        cases hcheck : f.checkReplacement p [] ((f.children n).map .node) with
        | error e => exact Or.inl ⟨e, by simp [replaceByChildren, outcome_bind, hi, hcheck]⟩
        | ok nodes => exact Or.inr ⟨c, nodes, rfl, hc, rfl⟩
      · refine Or.inl ⟨.notAChild, ?_⟩
        simp [replaceByChildren, outcome_bind, indexOf_of_not_mem hc]
  | _ => exact Or.inl ⟨.notAChild, rfl⟩

theorem relinked_replaceByChildren (hf : f.WellFormed) {v : Value}
    (hfit : f.LeavesNothing p v (.childrenOf n)) (rounds : Nat) :
    f.Relinked (outcome (replaceByChildren rounds p v n) f).2 := by
  rcases replaceByChildren_cases f p v n rounds with ⟨e, hout⟩ | ⟨c, nodes, rfl, hc, hcheck⟩
  · rw [hout]
    exact .refl hf
  · obtain ⟨before, after, h⟩ := List.append_of_mem hc
    rw [replaceByChildren_of_leftover hf h hcheck (hfit n c nodes rfl rfl hc hcheck)]
    exact relinked_emptied hf c n

theorem relinked_replaceChildBy (hf : f.WellFormed) {v : Value} {seq : Sequence}
    (hv : ∀ w ∈ seq.items f, f.Known w) (hfit : f.LeavesNothing p v seq) (rounds : Nat) :
    f.Relinked (outcome (replaceChildBy rounds p v seq) f).2 := by
  cases seq with
  | own items =>
      have hown := relinked_replaceChild hf p v hv
      rw [replaceChildBy, outcome_bind]
      rcases hout : outcome (replaceChild p v items) f with ⟨_ | _, g⟩ <;>
      · rw [Sequence.items, hout] at hown
        exact hown
  | childrenOf n => exact relinked_replaceByChildren hf hfit rounds

/-- A replacement that comes to an end leaves a forest well-formed if its sequence leaves nothing
over, and only then. -/
theorem wellFormed_replaceChildBy_iff (hf : f.WellFormed) {v : Value} {seq : Sequence}
    (hv : ∀ w ∈ seq.items f, f.Known w) {rounds : Nat}
    (hends : (outcome (replaceChildBy rounds p v seq) f).1 ≠ .ok none) :
    (outcome (replaceChildBy rounds p v seq) f).2.WellFormed ↔ f.LeavesNothing p v seq := by
  refine ⟨fun hg => ?_, fun hfit => (relinked_replaceChildBy hf hv hfit rounds).wellFormed⟩
  rintro n c nodes rfl rfl hc hcheck
  obtain ⟨before, after, h⟩ := List.append_of_mem hc
  obtain ⟨_ | i, g, hres⟩ := exists_replaceByChildren hf h hcheck rounds
  · exact absurd (by rw [replaceChildBy, hres]) hends
  · rw [replaceChildBy, hres] at hg
    exact (wellFormed_replaceByChildren_iff hf h hcheck hres).1 hg

/-! ### New nodes -/

theorem relinked_appendAlong {q : NodeId} (hf : f.WellFormed) (hp : p < f.size) (rounds i : Nat) :
    f.Relinked (outcome (appendAlong p q rounds i) f).2 := by
  induction rounds generalizing f i with
  | zero => exact .refl hf
  | succ rounds ih =>
      rw [appendAlong, outcome_bind, outcome_get]
      cases hm : (f.children q)[i]? with
      | none =>
          simp only [hm]
          exact .refl hf
      | some m =>
          have hknown : f.Known (.node m) := by
            rintro k ⟨⟩
            exact hf.lt_size_of_mem (List.mem_of_getElem? hm)
          have hfirst := relinked_appendChild hf hp hknown
          simp only [hm, outcome_bind]
          rcases hout : outcome (appendChild p (.node m)) f with ⟨_ | _, g⟩
          · rw [hout] at hfirst
            exact hfirst
          · rw [hout] at hfirst
            exact hfirst.trans (ih hfirst.wellFormed (hfirst.sameData.size_eq ▸ hp) (i + 1))

theorem carriesOn_newNodeBy (hf : f.WellFormed) (element : Element) {metadata : Entries}
    (hmeta : ∀ c ∈ Value.nodesEntries metadata, c < f.size) {seq : Sequence}
    (hv : ∀ v ∈ seq.items f, f.Known v) :
    f.CarriesOn (outcome (newNodeBy element seq metadata) f).2 := by
  cases seq with
  | own items => exact carriesOn_newNode hf element hmeta hv
  | childrenOf m =>
      have hadd := carriesOn_addNode hf element hmeta
      have hn : (f.addNode element metadata).1 < (f.addNode element metadata).2.size := by
        simp [addNode, addRoot, addElement, addRecord, size]
      have hroot : outcome (newRoot element metadata) f =
          (.ok (f.addNode element metadata).1, (f.addNode element metadata).2) := rfl
      have hall := relinked_appendAlong (q := m) hadd.wellFormed hn
        ((f.addNode element metadata).2.children m).length 0
      simp only [newNodeBy, outcome_bind, hroot, outcome_get]
      refine hadd.trans ?_
      rcases hout : outcome (appendAlong (f.addNode element metadata).1 m
        ((f.addNode element metadata).2.children m).length 0) (f.addNode element metadata).2 with
        ⟨_ | _, g⟩ <;>
      · rw [hout] at hall
        exact hall.carriesOn

end MarkdownTree.Forest
