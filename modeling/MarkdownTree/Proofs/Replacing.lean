import MarkdownTree.Proofs.Attaching

/-!
What replacing a child by a sequence of nodes does to a well-formed forest. The nodes that come in
leave their places everywhere, also among the children of the same parent; then they stand together
where the child stood.
-/

namespace MarkdownTree.Forest

variable {f g : Forest} {c m n p q : NodeId} {nodes before after seen : List NodeId}
  {values : List Value} {e : TreeFault}

/-- The nodes of a list that stay when `nodes` go elsewhere. -/
def without (list nodes : List NodeId) : List NodeId :=
  list.filter (!nodes.contains ·)

theorem mem_without {list : List NodeId} : m ∈ without list nodes ↔ m ∈ list ∧ m ∉ nodes := by
  simp [without, List.mem_filter]

@[simp]
theorem without_nil (list : List NodeId) : without list [] = list :=
  List.filter_eq_self.2 fun _ _ => rfl

/-- Nodes may take the place of a child of `p` together. -/
structure AllFit (f : Forest) (p : NodeId) (nodes : List NodeId) : Prop where
  nodup : nodes.Nodup
  fits : ∀ c ∈ nodes, f.Fits p c

theorem allFit_nil (f : Forest) (p : NodeId) : f.AllFit p [] :=
  ⟨List.nodup_nil, nofun⟩

theorem allFit_cons_iff :
    f.AllFit p (c :: nodes) ↔ f.Fits p c ∧ c ∉ nodes ∧ f.AllFit p nodes := by
  constructor
  · intro h
    obtain ⟨hc, hnodup⟩ := List.nodup_cons.1 h.nodup
    obtain ⟨hfits, hall⟩ := List.forall_mem_cons.1 h.fits
    exact ⟨hfits, hc, hnodup, hall⟩
  · rintro ⟨hfits, hc, h⟩
    exact ⟨List.nodup_cons.2 ⟨hc, h.nodup⟩, List.forall_mem_cons.2 ⟨hfits, h.fits⟩⟩

theorem checkReplacement_cons_eq_ok_iff {v : Value} :
    f.checkReplacement p seen (v :: values) = .ok nodes ↔
      ∃ c rest, f.checkAttach p v = .ok c ∧ c ∉ seen ∧
        f.checkReplacement p (c :: seen) values = .ok rest ∧ nodes = c :: rest := by
  cases hv : f.checkAttach p v with
  | error e => simp [checkReplacement, hv, bind, Except.bind]
  | ok c =>
      simp only [checkReplacement, hv, bind, Except.bind, List.contains_iff_mem]
      by_cases hs : c ∈ seen
      · simp [hs]
      · cases hrest : f.checkReplacement p (c :: seen) values with
        | error e => simp [hs, hrest]
        | ok rest => simp [hs, hrest, eq_comm]

theorem checkReplacement_eq_ok_iff (hf : f.WellFormed) :
    f.checkReplacement p seen values = .ok nodes ↔
      values = nodes.map .node ∧ f.AllFit p nodes ∧ ∀ c ∈ nodes, c ∉ seen := by
  induction values generalizing seen nodes with
  | nil =>
      simp only [checkReplacement, Except.ok.injEq]
      constructor
      · rintro rfl
        exact ⟨rfl, allFit_nil f p, nofun⟩
      · rintro ⟨h, -, -⟩
        exact (List.map_eq_nil_iff.1 h.symm).symm
  | cons v values ih =>
      rw [checkReplacement_cons_eq_ok_iff]
      constructor
      · rintro ⟨c, rest, hv, hs, hrest, rfl⟩
        obtain ⟨rfl, hc⟩ := (checkAttach_eq_ok_iff hf).1 hv
        obtain ⟨rfl, hfit, hseen⟩ := ih.1 hrest
        refine ⟨rfl, allFit_cons_iff.2 ⟨hc, fun hcr => ?_, hfit⟩,
          List.forall_mem_cons.2 ⟨hs, fun k hk hks => ?_⟩⟩
        · exact hseen c hcr List.mem_cons_self
        · exact hseen k hk (List.mem_cons_of_mem c hks)
      · rintro ⟨hmap, hfit, hseen⟩
        cases nodes with
        | nil => cases hmap
        | cons c nodes =>
            obtain ⟨rfl, rfl⟩ := List.cons.inj hmap
            obtain ⟨hc, hcn, hfit⟩ := allFit_cons_iff.1 hfit
            obtain ⟨hs, hseen⟩ := List.forall_mem_cons.1 hseen
            refine ⟨c, nodes, (checkAttach_eq_ok_iff hf).2 ⟨rfl, hc⟩, hs,
              ih.2 ⟨rfl, hfit, fun m hm hmc => ?_⟩, rfl⟩
            rcases List.mem_cons.1 hmc with rfl | hms
            · exact hcn hm
            · exact hseen m hm hms

/-- The forest after `nodes` took the place of `c` between the children `before` and `after` of
`p`. -/
def replaced (f : Forest) (p c : NodeId) (before after nodes : List NodeId) : Forest :=
  ((f.detachAll nodes).detach c).attach p nodes
    (without before nodes ++ nodes ++ without after nodes)

theorem sameData_replaced (f : Forest) (p c : NodeId) (before after nodes : List NodeId) :
    f.SameData (f.replaced p c before after nodes) :=
  ((sameData_detachAll f nodes).trans (sameData_detach _ c)).trans (sameData_attach _ p nodes _)

theorem parent?_replaced (hlt : ∀ k ∈ nodes, k < f.size) (p c m : NodeId) :
    (f.replaced p c before after nodes).parent? m =
      if m ∈ nodes then some p else if m = c then none else f.parent? m := by
  have hsize := ((sameData_detachAll f nodes).trans (sameData_detach _ c)).size_eq
  rw [replaced, parent?_attach (fun k hk => by rw [hsize]; exact hlt k hk), parent?_detach,
    parent?_detachAll]
  by_cases hm : m ∈ nodes
  · rw [if_pos hm, if_pos hm]
  · rw [if_neg hm, if_neg hm, if_neg hm]

/-- The children of every node after a replacement. -/
theorem children_replaced (hf : f.WellFormed) (h : f.children p = before ++ c :: after)
    (q : NodeId) :
    (f.replaced p c before after nodes).children q =
      if q = p then without before nodes ++ nodes ++ without after nodes
      else without (f.children q) nodes := by
  have hmem : c ∈ f.children p := by simp [h]
  have hsize := ((sameData_detachAll f nodes).trans (sameData_detach _ c)).size_eq
  have hp : p < ((f.detachAll nodes).detach c).size := by
    rw [hsize]
    exact lt_size_of_mem_children hmem
  rw [replaced, children_attach hp]
  by_cases hq : q = p
  · rw [if_pos hq, if_pos hq]
  · rw [if_neg hq, if_neg hq, children_detach (hf.detachAll nodes), children_detachAll hf]
    refine List.filter_eq_self.2 fun m hm => ?_
    have hmc : m ≠ c := by
      rintro rfl
      exact hq (hf.parent_unique (List.mem_of_mem_filter hm) hmem)
    simpa using hmc

theorem without_filter_ne (hb : c ∉ before) (ha : c ∉ after) :
    (without (before ++ c :: after) nodes).filter (· != c) =
      without before nodes ++ without after nodes := by
  have hne {list : List NodeId} (h : c ∉ list) :
      (without list nodes).filter (· != c) = without list nodes := by
    refine List.filter_eq_self.2 fun m hm => ?_
    simpa using ne_of_mem_of_not_mem (mem_without.1 hm).1 h
  by_cases hc : c ∈ nodes
  · have hsplit : without (before ++ c :: after) nodes =
        without before nodes ++ without after nodes := by
      simp [without, List.filter_append, hc]
    rw [hsplit, List.filter_append, hne hb, hne ha]
  · have hsplit : without (before ++ c :: after) nodes =
        without before nodes ++ c :: without after nodes := by
      simp [without, List.filter_append, hc]
    rw [hsplit, List.filter_append, List.filter_cons_of_neg (by simp), hne hb, hne ha]

theorem AllFit.attachable (hfit : f.AllFit p nodes) (hp : p < f.size)
    (hlt : ∀ k ∈ nodes, k < f.size) (c : NodeId) :
    ((f.detachAll nodes).detach c).Attachable p nodes := by
  have hdata := (sameData_detachAll f nodes).trans (sameData_detach _ c)
  refine ⟨by rwa [hdata.size_eq], ?_, ?_, hfit.nodup, ?_, ?_⟩
  · intro k hk
    rw [hdata.size_eq]
    exact hlt k hk
  · intro k hk
    rw [parent?_detach, parent?_detachAll, if_pos hk]
    split <;> rfl
  · intro k hk
    rw [hdata.kind_eq, hdata.kind_eq]
    exact (hfit.fits k hk).canContain
  · intro k hk hover
    exact (hfit.fits k hk).not_over (atOrAbove_of_detachAll (atOrAbove_of_detach hover))

theorem WellFormed.replaced (hf : f.WellFormed) (h : f.children p = before ++ c :: after)
    (hfit : f.AllFit p nodes) (hlt : ∀ k ∈ nodes, k < f.size) :
    (f.replaced p c before after nodes).WellFormed := by
  have hmem : c ∈ f.children p := by simp [h]
  have hp : p < f.size := lt_size_of_mem_children hmem
  obtain ⟨hb, ha⟩ := hf.not_mem_of_split h
  refine ((hf.detachAll nodes).detach c).attach (hfit.attachable hp hlt c) ?_
  have hrest : ((f.detachAll nodes).detach c).children p =
      without before nodes ++ without after nodes := by
    rw [children_detach (hf.detachAll nodes), children_detachAll hf, h]
    exact without_filter_ne hb ha
  rw [hrest, ← List.append_assoc]
  exact List.perm_append_comm.append_right _

theorem relinked_replaced (hf : f.WellFormed) (h : f.children p = before ++ c :: after)
    (hfit : f.AllFit p nodes) (hlt : ∀ k ∈ nodes, k < f.size) :
    f.Relinked (f.replaced p c before after nodes) :=
  ⟨sameData_replaced f p c before after nodes, hf.replaced h hfit hlt⟩

theorem spliceAt_append (before after nodes : List NodeId) (c : NodeId) :
    spliceAt (before ++ c :: after) before.length nodes = before ++ nodes ++ after := by
  simp [spliceAt, List.drop_append]

/-- For a child, the fault is the one that the check of the values has found. -/
theorem outcome_replaceChild_refused (hc : c ∈ f.children p)
    (h : f.checkReplacement p [] values = .error e) :
    outcome (replaceChild p (.node c) values) f = (.error e, f) := by
  obtain ⟨i, hi⟩ := exists_indexOf hc
  simp [replaceChild, outcome_bind, hi, h]

theorem outcome_replaceChild_stranger {v : Value} (h : ∀ c, v = .node c → c ∉ f.children p) :
    outcome (replaceChild p v values) f = (.error .notAChild, f) := by
  cases v with
  | node c => simp [replaceChild, outcome_bind, indexOf_of_not_mem (h c rfl)]
  | _ => rfl

/-- From a list without `c` it does not matter whether `c` goes elsewhere, too. -/
theorem without_filter_of_not_mem {list : List NodeId} (hc : c ∉ list) :
    without list (nodes.filter (· != c)) = without list nodes := by
  refine List.filter_congr fun m hm => ?_
  have hmc : m ≠ c := ne_of_mem_of_not_mem hm hc
  simp [hmc]

theorem without_others (hb : c ∉ before) (ha : c ∉ after) :
    without (before ++ c :: after) (nodes.filter (· != c)) =
      without before nodes ++ c :: without after nodes := by
  rw [without, List.filter_append, List.filter_cons_of_pos (by simp)]
  exact congrArg₂ (· ++ c :: ·) (without_filter_of_not_mem hb) (without_filter_of_not_mem ha)

/-- The last changes of a replacement, after the nodes other than the child have left their places,
come to the same as attaching the nodes once the child has left, too. -/
theorem adopt_eq_replaced (hf : f.WellFormed) (h : f.children p = before ++ c :: after)
    (hlt : ∀ k ∈ nodes, k < f.size) :
    adopt p nodes (((f.detachAll (nodes.filter (· != c))).setParent c none).setChildren p
      (without before nodes ++ nodes ++ without after nodes)) =
      f.replaced p c before after nodes := by
  have hmem : c ∈ f.children p := by simp [h]
  have hsize := (sameData_detachAll f (nodes.filter (· != c))).size_eq
  -- Both forests have the same data, so it is enough to compare their links.
  have hdata := (((sameData_detachAll f (nodes.filter (· != c))).trans (.setParent _ c none)).trans
    (.setChildren _ p (without before nodes ++ nodes ++ without after nodes))).trans
    (sameData_adopt _ p nodes)
  refine ((sameData_replaced f p c before after nodes).symm.trans hdata).eq_of_links
    (fun m => ?_) fun q => ?_
  · rw [parent?_replaced hlt, parent?_adopt, parent?_setChildren, parent?_setParent,
      parent?_detachAll, size_setChildren, size_setParent, hsize]
    have hc := hf.lt_size_of_mem hmem
    by_cases hm : m ∈ nodes
    · simp [hm, hlt m hm]
    · by_cases hmc : m = c
      · subst hmc
        simp [hm, hc]
      · simp [hm, hmc, Ne.symm hmc]
  · rw [children_replaced hf h, children_adopt, children_setChildren, children_setParent,
      size_setParent, hsize, children_detachAll hf]
    by_cases hq : q = p
    · subst hq
      simp [lt_size_of_mem_children hmem]
    · rw [if_neg (fun hpq => hq hpq.1.symm), if_neg hq]
      exact without_filter_of_not_mem fun hcq => hq (hf.parent_unique hcq hmem)

theorem outcome_replaceChild (hf : f.WellFormed) (h : f.children p = before ++ c :: after)
    (hfit : f.AllFit p nodes) (hlt : ∀ k ∈ nodes, k < f.size) :
    outcome (replaceChild p (.node c) (nodes.map .node)) f =
      (.ok (without before nodes).length, f.replaced p c before after nodes) := by
  obtain ⟨hb, ha⟩ := hf.not_mem_of_split h
  have hcheck : f.checkReplacement p [] (nodes.map .node) = .ok nodes :=
    (checkReplacement_eq_ok_iff hf).2 ⟨rfl, hfit, nofun⟩
  have hindex : indexOf (f.children p) c = .ok before.length := h ▸ indexOf_append hb
  -- The child stays in its list until the splice, even if it is among the new nodes.
  have hchildren : (f.detachAll (nodes.filter (· != c))).children p =
      without before nodes ++ c :: without after nodes := by
    rw [children_detachAll hf, h]
    exact without_others hb ha
  have hindex' : indexOf (without before nodes ++ c :: without after nodes) c =
      .ok (without before nodes).length :=
    indexOf_append fun hmem => hb (mem_without.1 hmem).1
  simp only [replaceChild, outcome_bind, outcome_get, outcome_liftM, hindex, hcheck,
    outcome_unlinkAll hf, hchildren, hindex', outcome_change, outcome_pure]
  rw [spliceAt_append, adopt_eq_replaced hf h hlt]

/-! ### Deletion

A child that nothing comes in for is gone, and nothing else moves. -/

theorem outcome_replaceChild_nil (hf : f.WellFormed) (h : f.children p = before ++ c :: after) :
    outcome (replaceChild p (.node c) []) f =
      (.ok before.length, f.replaced p c before after []) := by
  have hreplaced := outcome_replaceChild hf h (allFit_nil f p) fun _ hk =>
    absurd hk List.not_mem_nil
  rwa [List.map_nil, without_nil] at hreplaced

theorem WellFormed.replaced_nil (hf : f.WellFormed) (h : f.children p = before ++ c :: after) :
    (f.replaced p c before after []).WellFormed :=
  hf.replaced h (allFit_nil f p) fun _ hk => absurd hk List.not_mem_nil

theorem children_replaced_nil (hf : f.WellFormed) (h : f.children p = before ++ c :: after)
    (q : NodeId) : (f.replaced p c before after []).children q =
      if q = p then before ++ after else f.children q := by
  rw [children_replaced hf h, without_nil, without_nil, without_nil, List.append_nil]

theorem parent?_replaced_nil (p c m : NodeId) :
    (f.replaced p c before after []).parent? m = if m = c then none else f.parent? m := by
  rw [parent?_replaced (fun _ hk => absurd hk List.not_mem_nil), if_neg List.not_mem_nil]

/-- Values that pass the check are put in the place of the child. -/
theorem outcome_replaceChild_checked (hf : f.WellFormed) (h : f.children p = before ++ c :: after)
    (hknown : ∀ v ∈ values, f.Known v) (hcheck : f.checkReplacement p [] values = .ok nodes) :
    values = nodes.map .node ∧ f.AllFit p nodes ∧ (∀ k ∈ nodes, k < f.size) ∧
      outcome (replaceChild p (.node c) values) f =
        (.ok (without before nodes).length, f.replaced p c before after nodes) := by
  obtain ⟨rfl, hfit, -⟩ := (checkReplacement_eq_ok_iff hf).1 hcheck
  have hlt : ∀ k ∈ nodes, k < f.size := fun k hk =>
    hknown (.node k) (List.mem_map_of_mem hk) k rfl
  exact ⟨rfl, hfit, hlt, outcome_replaceChild hf h hfit hlt⟩

/-- A replacement that is made puts nodes that fit in the place of the child. -/
theorem replaceChild_ok (hf : f.WellFormed) (h : f.children p = before ++ c :: after)
    (hknown : ∀ v ∈ values, f.Known v) {i : Nat}
    (hres : outcome (replaceChild p (.node c) values) f = (.ok i, g)) :
    ∃ nodes, values = nodes.map .node ∧ f.AllFit p nodes ∧ (∀ k ∈ nodes, k < f.size) ∧
      i = (without before nodes).length ∧ g = f.replaced p c before after nodes := by
  cases hcheck : f.checkReplacement p [] values with
  | error e =>
      rw [outcome_replaceChild_refused (by simp [h]) hcheck] at hres
      cases hres
  | ok nodes =>
      obtain ⟨hvalues, hfit, hlt, hout⟩ := outcome_replaceChild_checked hf h hknown hcheck
      rw [hout] at hres
      cases hres
      exact ⟨nodes, hvalues, hfit, hlt, rfl, rfl⟩

/-- A replacement that is refused changes nothing. -/
theorem replaceChild_error (hf : f.WellFormed) (h : f.children p = before ++ c :: after)
    (hknown : ∀ v ∈ values, f.Known v)
    (hres : outcome (replaceChild p (.node c) values) f = (.error e, g)) : g = f := by
  cases hcheck : f.checkReplacement p [] values with
  | error e =>
      rw [outcome_replaceChild_refused (by simp [h]) hcheck] at hres
      cases hres
      rfl
  | ok nodes =>
      obtain ⟨-, -, -, hout⟩ := outcome_replaceChild_checked hf h hknown hcheck
      rw [hout] at hres
      cases hres

theorem relinked_replaceChild (hf : f.WellFormed) (p : NodeId) (v : Value)
    (hv : ∀ w ∈ values, f.Known w) : f.Relinked (outcome (replaceChild p v values) f).2 := by
  by_cases h : ∃ c, v = .node c ∧ c ∈ f.children p
  · obtain ⟨c, rfl, hc⟩ := h
    cases hcheck : f.checkReplacement p [] values with
    | error e =>
        rw [outcome_replaceChild_refused hc hcheck]
        exact .refl hf
    | ok nodes =>
        obtain ⟨before, after, hlist⟩ := List.append_of_mem hc
        obtain ⟨-, hfit, hlt, hout⟩ := outcome_replaceChild_checked hf hlist hv hcheck
        rw [hout]
        exact relinked_replaced hf hlist hfit hlt
  · rw [outcome_replaceChild_stranger fun c hvc hc => h ⟨c, hvc, hc⟩]
    exact .refl hf

/-- A node below `top` that did not leave with `c`, and has kept all its ancestors. -/
structure Kept (f g : Forest) (top c m : NodeId) : Prop where
  atOrAbove : f.AtOrAbove top m
  apart : ¬ f.AtOrAbove c m
  ancestor (k : NodeId) (hk : f.Ancestor k m) : g.Ancestor k m

/-- What was said of the parent of a node holds of the node. -/
theorem kept_of_parent {top : NodeId} (hlt : ∀ k ∈ nodes, k < f.size)
    (hq : (f.replaced p c before after nodes).parent? m = some q)
    (hup : (∃ n ∈ nodes, (f.replaced p c before after nodes).AtOrAbove n q) ∨
      f.Kept (f.replaced p c before after nodes) top c q) :
    (∃ n ∈ nodes, (f.replaced p c before after nodes).AtOrAbove n m) ∨
      f.Kept (f.replaced p c before after nodes) top c m := by
  have hqm : (f.replaced p c before after nodes).Ancestor q m := .parent hq
  rcases hup with ⟨n, hn, hnq⟩ | hkept
  · exact Or.inl ⟨n, hn, (hnq.trans_ancestor hqm).atOrAbove⟩
  · rw [parent?_replaced hlt] at hq
    split at hq
    · rename_i hm
      exact Or.inl ⟨m, hm, .refl _ m⟩
    · split at hq
      · cases hq
      · rename_i hmc
        refine Or.inr ⟨(hkept.atOrAbove.trans_ancestor (.parent hq)).atOrAbove, ?_, ?_⟩
        · rintro (hcm | hcm)
          · exact hmc hcm.symm
          · obtain ⟨q', hq', hcq⟩ := ancestor_iff_parent.1 hcm
            rw [hq] at hq'
            cases hq'
            exact hkept.apart hcq
        · intro k hk
          obtain ⟨q', hq', hkq⟩ := ancestor_iff_parent.1 hk
          rw [hq] at hq'
          cases hq'
          have hkq' : (f.replaced p c before after nodes).AtOrAbove k q :=
            hkq.imp id (hkept.ancestor k)
          exact hkq'.trans_ancestor hqm

section
variable (hf : f.WellFormed) (h : f.children p = before ++ c :: after) (hfit : f.AllFit p nodes)
  (hlt : ∀ k ∈ nodes, k < f.size)

include hf h hfit hlt

/-- Neither the nodes that come in nor the one that leaves is over the place. -/
theorem parent?_replaced_of_over (hm : f.AtOrAbove m p) :
    (f.replaced p c before after nodes).parent? m = f.parent? m := by
  have hno : m ∉ nodes := fun hmn => (hfit.fits m hmn).not_over hm
  have hne : m ≠ c := by
    rintro rfl
    exact hf.not_atOrAbove_of_mem (by simp [h]) hm (.refl f m)
  rw [parent?_replaced hlt, if_neg hno, if_neg hne]

theorem ancestor_replaced_of_over (hm : f.AtOrAbove m p) {k : NodeId} (hk : f.Ancestor k m) :
    (f.replaced p c before after nodes).Ancestor k m := by
  induction hk with
  | @parent m hp =>
      refine .parent ?_
      rw [parent?_replaced_of_over hf h hfit hlt hm, hp]
  | @above m q hq _ ih =>
      have hqm : f.Ancestor q m := .parent hq
      refine .above ?_ (ih (hqm.atOrAbove.trans hm))
      rw [parent?_replaced_of_over hf h hfit hlt hm, hq]

/-- A node that hangs together with the place after a replacement is at or below a node that came
in, or it has kept all its ancestors. -/
theorem kept_of_replaced {top : NodeId} (htop : f.AtOrAbove top p)
    (hm : (f.replaced p c before after nodes).AtOrAbove top m) :
    (∃ n ∈ nodes, (f.replaced p c before after nodes).AtOrAbove n m) ∨
      f.Kept (f.replaced p c before after nodes) top c m := by
  have hstart : f.Kept (f.replaced p c before after nodes) top c top :=
    ⟨.refl f top, hf.not_atOrAbove_of_mem (by simp [h]) htop,
      fun k hk => ancestor_replaced_of_over hf h hfit hlt htop hk⟩
  rcases hm with rfl | hm
  · exact Or.inr hstart
  · induction hm with
    | parent hq => exact kept_of_parent hlt hq (Or.inr hstart)
    | above hq _ ih => exact kept_of_parent hlt hq ih

end

end MarkdownTree.Forest
