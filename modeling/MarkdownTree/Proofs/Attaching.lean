import MarkdownTree.Proofs.Relinking

/-!
What the attaching and detaching operations do to a well-formed forest. Each one is described
completely: the fault it ends with and that nothing has changed, or the forest that it leaves,
written with `detach`, `detachAll` and `attach`. The one exception to both is an index that no list
takes: the child then has a parent that does not list it.
-/

namespace MarkdownTree.Forest

variable {f g : Forest} {c m n p q s : NodeId} {nodes before after : List NodeId} {v : Value}
  {e : TreeFault} {i j : Int} {takes : Int → Bool}

def outcome {α : Type} (op : Edit α) (f : Forest) : Except TreeFault α × Forest :=
  op.run.run f

section
variable {α β : Type}

@[simp] theorem outcome_pure (a : α) (f : Forest) : outcome (pure a) f = (.ok a, f) := rfl

@[simp] theorem outcome_get (f : Forest) : outcome get f = (.ok f, f) := rfl

@[simp] theorem outcome_throw (e : TreeFault) (f : Forest) :
    outcome (throw e : Edit α) f = (.error e, f) := rfl

@[simp] theorem outcome_liftM (r : Except TreeFault α) (f : Forest) :
    outcome (liftM r : Edit α) f = (r, f) := rfl

@[simp] theorem outcome_change (change : Forest → Forest) (f : Forest) :
    outcome (Forest.change change) f = (.ok (), change f) := rfl

theorem outcome_bind (op : Edit α) (next : α → Edit β) (f : Forest) :
    outcome (op >>= next) f =
      match outcome op f with
      | (.ok a, g) => outcome (next a) g
      | (.error e, g) => (.error e, g) := by
  unfold outcome
  simp only [ExceptT.run_bind, StateT.run_bind]
  rcases op.run.run f with ⟨_ | _, _⟩ <;> rfl

end

theorem indexOf_append (h : n ∉ before) :
    indexOf (before ++ n :: after) n = .ok before.length := by
  have hbefore : before.findIdx? (· == n) = none := by
    rw [List.findIdx?_eq_none_iff]
    intro m hm
    simpa using fun hmn : m = n => h (hmn ▸ hm)
  simp [indexOf, List.findIdx?_append, hbefore, List.findIdx?_cons]

theorem indexOf_of_not_mem (h : n ∉ nodes) : indexOf nodes n = .error .notAChild := by
  have hnone : nodes.findIdx? (· == n) = none := by
    rw [List.findIdx?_eq_none_iff]
    intro m hm
    simpa using fun hmn : m = n => h (hmn ▸ hm)
  simp [indexOf, hnone]

theorem mem_of_indexOf {i : Nat} (h : indexOf nodes n = .ok i) : n ∈ nodes := by
  by_contra hno
  rw [indexOf_of_not_mem hno] at h
  cases h

theorem exists_indexOf (h : n ∈ nodes) : ∃ i, indexOf nodes n = .ok i := by
  obtain ⟨before, after, rfl, hb⟩ := List.eq_append_cons_of_mem h
  exact ⟨_, indexOf_append hb⟩

theorem position_le (length : Nat) (i : Int) : position length i ≤ length := by
  unfold position
  split <;> omega

theorem insertAt_perm (nodes : List NodeId) (i : Int) (n : NodeId) :
    (insertAt nodes i n).Perm (n :: nodes) :=
  List.perm_insertIdx n nodes (position_le nodes.length i)

theorem outcome_removeChild (h : c ∈ f.children p) (hp : f.parent? c = some p) :
    outcome (removeChild p (.node c)) f = (.ok (), f.detach c) := by
  simp [removeChild, outcome_bind, h, detach, hp]

theorem outcome_removeChild_fault (h : ∀ c, v = .node c → c ∉ f.children p) :
    outcome (removeChild p v) f = (.error .notAChild, f) := by
  cases v with
  | node c => simp [removeChild, outcome_bind, h c rfl]
  | _ => rfl

theorem outcome_unlink (hf : f.WellFormed) (c : NodeId) :
    outcome (unlink c) f = (.ok (), f.detach c) := by
  cases hp : f.parent? c with
  | none => simp [unlink, outcome_bind, hp, detach]
  | some p =>
      have h := outcome_removeChild (hf.mem_of_parent? hp) hp
      simp [unlink, outcome_bind, hp, h]

theorem outcome_unlinkAll (hf : f.WellFormed) (nodes : List NodeId) :
    outcome (unlinkAll nodes) f = (.ok (), f.detachAll nodes) := by
  induction nodes generalizing f with
  | nil => rfl
  | cons c nodes ih =>
      rw [unlinkAll, outcome_bind, outcome_unlink hf]
      exact ih (hf.detach c)

theorem relinked_detach (hf : f.WellFormed) (c : NodeId) : f.Relinked (f.detach c) :=
  ⟨sameData_detach f c, hf.detach c⟩

theorem relinked_removeChild (hf : f.WellFormed) (p : NodeId) (v : Value) :
    f.Relinked (outcome (removeChild p v) f).2 := by
  by_cases h : ∃ c, v = .node c ∧ c ∈ f.children p
  · obtain ⟨c, rfl, hc⟩ := h
    rw [outcome_removeChild hc (hf.parent?_of_mem hc)]
    exact relinked_detach hf c
  · rw [outcome_removeChild_fault fun c hv hc => h ⟨c, hv, hc⟩]
    exact .refl hf

/-- A value that is a node names one that exists. -/
def Known (f : Forest) (v : Value) : Prop :=
  ∀ c, v = .node c → c < f.size

/-- A node may stand below `p`: its kind may, and it is not over `p`. -/
structure Fits (f : Forest) (p c : NodeId) : Prop where
  canContain : (f.kind p).canContain (f.kind c) = true
  not_over : ¬ f.AtOrAbove c p

theorem checkAttach_eq_ok_iff (hf : f.WellFormed) :
    f.checkAttach p v = .ok c ↔ v = .node c ∧ f.Fits p c := by
  cases v with
  | node k =>
      have hover : f.isAncestorOf k p = true ↔ f.AtOrAbove k p := hf.isAncestorOf_iff
      by_cases hk : (f.kind p).canContain (f.kind k) = true
      · by_cases ha : f.isAncestorOf k p = true
        · have hno : k = c → ¬ f.Fits p c := by
            rintro rfl hfit
            exact hfit.not_over (hover.1 ha)
          simpa [checkAttach, checkKinds, hk, ha, bind, Except.bind] using hno
        · have hfit : f.Fits p k := ⟨hk, fun h => ha (hover.2 h)⟩
          simp only [checkAttach, checkKinds, hk, ha, bind, Except.bind, if_true, if_false,
            Bool.false_eq_true, Except.ok.injEq, Value.node.injEq]
          exact ⟨fun h => ⟨h, h ▸ hfit⟩, fun h => h.1⟩
      · have hno : k = c → ¬ f.Fits p c := by
          rintro rfl hfit
          exact hk hfit.canContain
        simpa [checkAttach, checkKinds, hk, bind, Except.bind] using hno
  | _ => simp [checkAttach]

/-- A node that fits is attachable once it has left its parent. -/
theorem Fits.attachable (hfit : f.Fits p c) (hp : p < f.size) (hc : c < f.size) :
    (f.detach c).Attachable p [c] where
  parent_lt := by rwa [(sameData_detach f c).size_eq]
  lt_size k hk := by
    rw [List.mem_singleton.1 hk, (sameData_detach f c).size_eq]
    exact hc
  isRoot k hk := by
    rw [List.mem_singleton.1 hk, parent?_detach, if_pos rfl]
  nodup := List.nodup_singleton c
  canContain k hk := by
    rw [List.mem_singleton.1 hk, (sameData_detach f c).kind_eq, (sameData_detach f c).kind_eq]
    exact hfit.canContain
  not_over k hk hover := by
    rw [List.mem_singleton.1 hk] at hover
    exact hfit.not_over (atOrAbove_of_detach hover)

theorem setChildren_setParent (f : Forest) (n m : NodeId) (p : Option NodeId)
    (list : List NodeId) :
    (f.setParent m p).setChildren n list = (f.setChildren n list).setParent m p := by
  have hl := (SameData.setParent f m p).trans (.setChildren _ n list)
  have hr := (SameData.setChildren f n list).trans (.setParent _ m p)
  refine (hr.symm.trans hl).eq_of_links (fun k => ?_) fun k => ?_
  · simp [parent?_setChildren, parent?_setParent]
  · simp [children_setChildren, children_setParent]

theorem exists_indexWithout (hf : f.WellFormed) (p c : NodeId) (i : Int) :
    ∃ j, f.indexWithout p c i = .ok j := by
  unfold indexWithout
  split
  · rename_i hp
    obtain ⟨k, hk⟩ := exists_indexOf (hf.mem_of_parent? hp)
    exact ⟨_, by rw [hk]; rfl⟩
  · exact ⟨i, rfl⟩

/-- The forest after `c` was attached below `p` at an index for the children without it. -/
def placed (f : Forest) (p c : NodeId) (j : Int) : Forest :=
  (f.detach c).attach p [c] (insertAt ((f.detach c).children p) j c)

theorem relinked_placed (hf : f.WellFormed) (hp : p < f.size) (hc : c < f.size)
    (hfit : f.Fits p c) (j : Int) : f.Relinked (f.placed p c j) where
  sameData := (sameData_detach f c).trans (sameData_attach _ p [c] _)
  wellFormed := (hf.detach c).attach (hfit.attachable hp hc) (insertAt_perm _ j c)

theorem outcome_attachAt_fault (h : f.checkAttach p v = .error e) :
    outcome (attachAt takes p i v) f = (.error e, f) := by
  simp [attachAt, outcome_bind, h]

theorem outcome_attachAt (hf : f.WellFormed) (hc : f.checkAttach p v = .ok c)
    (hj : f.indexWithout p c i = .ok j) :
    outcome (attachAt takes p i v) f =
      if takes j then (.ok (), f.placed p c j)
      else (.error .indexTooLarge, (f.detach c).setParent c (some p)) := by
  simp only [attachAt, outcome_bind, outcome_get, outcome_liftM, hc, hj, outcome_unlink hf,
    outcome_change]
  by_cases ht : takes j = true
  · rw [if_pos ht, if_pos ht, outcome_change, setChildren_setParent, children_setParent]
    rfl
  · rw [if_neg ht, if_neg ht, outcome_throw]

/-- An index that is taken leaves a well-formed forest, whether the child may be attached or not. -/
theorem relinked_attachAt (hf : f.WellFormed) (hp : p < f.size) (hv : f.Known v)
    (ht : ∀ c j, f.checkAttach p v = .ok c → f.indexWithout p c i = .ok j → takes j = true) :
    f.Relinked (outcome (attachAt takes p i v) f).2 := by
  cases hcheck : f.checkAttach p v with
  | error e =>
      rw [outcome_attachAt_fault hcheck]
      exact .refl hf
  | ok c =>
      obtain ⟨j, hj⟩ := exists_indexWithout hf p c i
      obtain ⟨rfl, hfit⟩ := (checkAttach_eq_ok_iff hf).1 hcheck
      rw [outcome_attachAt hf hcheck hj, if_pos (ht c j hcheck hj)]
      exact relinked_placed hf hp (hv c rfl) hfit j

theorem relinked_insertChild (hf : f.WellFormed) (hp : p < f.size) (hv : f.Known v)
    (ht : ∀ c j, f.checkAttach p v = .ok c → f.indexWithout p c i = .ok j → isIndex j = true) :
    f.Relinked (outcome (insertChild p i v) f).2 :=
  relinked_attachAt hf hp hv ht

theorem relinked_appendChild (hf : f.WellFormed) (hp : p < f.size) (hv : f.Known v) :
    f.Relinked (outcome (appendChild p v) f).2 := by
  simp only [appendChild, outcome_bind, outcome_get]
  exact relinked_attachAt hf hp hv fun _ _ _ _ => rfl

theorem detach_of_isRoot (hroot : f.parent? c = none) : f.detach c = f := by
  simp [detach, hroot]

theorem outcome_appendChild_root (hf : f.WellFormed) (hroot : f.parent? c = none)
    (hfit : f.Fits p c) :
    outcome (appendChild p (.node c)) f = (.ok (), f.attach p [c] (f.children p ++ [c])) := by
  have hcheck := (checkAttach_eq_ok_iff hf).2 ⟨rfl, hfit⟩
  have hindex : f.indexWithout p c (f.children p).length = .ok (f.children p).length := by
    simp [indexWithout, hroot]
  have hplace : insertAt (f.children p) (f.children p).length c = f.children p ++ [c] := by
    rw [insertAt, position, if_neg (by omega), Int.toNat_natCast, Nat.min_self,
      List.insertIdx_length_self]
  simp only [appendChild, outcome_bind, outcome_get]
  rw [outcome_attachAt hf hcheck hindex, if_pos rfl, placed, detach_of_isRoot hroot, hplace]

/-- An index stays, or moves back by one for a child that stood before it. -/
theorem indexWithout_cases {i : Int} (hj : f.indexWithout p c i = .ok j) :
    j = i ∨ j = i - 1 ∧ ∃ old : Nat, indexOf (f.children p) c = .ok old ∧ (old : Int) < i := by
  unfold indexWithout at hj
  split at hj
  · obtain ⟨old, hold, hj⟩ := bind_eq_ok_iff.1 hj
    have hmoved := Except.ok.inj hj
    split at hmoved
    · rename_i hbefore
      exact Or.inr ⟨hmoved.symm, old, hold, hbefore⟩
    · exact Or.inl hmoved.symm
  · exact Or.inl (Except.ok.inj hj).symm

/-- Moving a child to the front never moves the index. -/
theorem indexWithout_zero (hj : f.indexWithout p c 0 = .ok j) : j = 0 := by
  rcases indexWithout_cases hj with rfl | ⟨-, old, -, hbefore⟩
  · rfl
  · omega

theorem relinked_prependChild (hf : f.WellFormed) (hp : p < f.size) (hv : f.Known v) :
    f.Relinked (outcome (prependChild p v) f).2 := by
  refine relinked_attachAt hf hp hv fun c j _ hj => ?_
  rw [indexWithout_zero hj]
  rfl

theorem outcome_insertSibling_root (hn : f.parent? n = none) (v : Value) (offset : Nat) :
    ∃ e, outcome (insertSibling n v offset) f = (.error e, f) := by
  cases v <;> simp [insertSibling, outcome_bind, hn]

theorem outcome_insertSibling_fault (hn : f.parent? n = some p) (h : f.checkAttach p v = .error e)
    (offset : Nat) : outcome (insertSibling n v offset) f = (.error e, f) := by
  simp [insertSibling, outcome_bind, hn, h]

theorem outcome_insertSibling_self (hn : f.parent? n = some p) (h : f.checkAttach p v = .ok n)
    (offset : Nat) : outcome (insertSibling n v offset) f = (.ok (), f) := by
  simp [insertSibling, outcome_bind, hn, h]

theorem outcome_insertSibling (hf : f.WellFormed) (hn : f.parent? n = some p)
    (h : f.checkAttach p v = .ok s) (hsn : s ≠ n) (offset : Nat) :
    ∃ k, indexOf ((f.detach s).children p) n = .ok k ∧
      outcome (insertSibling n v offset) f = (.ok (), f.placed p s (k + offset)) := by
  have hmem : n ∈ (f.detach s).children p := by
    rw [children_detach hf, List.mem_filter]
    exact ⟨hf.mem_of_parent? hn, by simpa using hsn.symm⟩
  obtain ⟨k, hk⟩ := exists_indexOf hmem
  refine ⟨k, hk, ?_⟩
  simp only [insertSibling, outcome_bind, outcome_get, hn, outcome_liftM, h, if_neg hsn,
    outcome_unlink hf, hk, outcome_change]
  rfl

theorem relinked_insertSibling (hf : f.WellFormed) (hv : f.Known v) (n : NodeId)
    (offset : Nat) : f.Relinked (outcome (insertSibling n v offset) f).2 := by
  cases hn : f.parent? n with
  | none =>
      obtain ⟨e, he⟩ := outcome_insertSibling_root hn v offset
      rw [he]
      exact .refl hf
  | some p =>
      cases hcheck : f.checkAttach p v with
      | error e =>
          rw [outcome_insertSibling_fault hn hcheck]
          exact .refl hf
      | ok s =>
          by_cases hsn : s = n
          · rw [outcome_insertSibling_self hn (hsn ▸ hcheck)]
            exact .refl hf
          · obtain ⟨k, -, hk⟩ := outcome_insertSibling hf hn hcheck hsn offset
            obtain ⟨rfl, hfit⟩ := (checkAttach_eq_ok_iff hf).1 hcheck
            have hp : p < f.size := lt_size_of_mem_children (hf.mem_of_parent? hn)
            rw [hk]
            exact relinked_placed hf hp (hv s rfl) hfit _

end MarkdownTree.Forest
