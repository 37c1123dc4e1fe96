import MarkdownTree.Proofs.CopiedTrees
import MarkdownTree.Proofs.PanelContent
import MarkdownTree.Proofs.Passes
import MarkdownTree.Tabs.Document

/-!
The transformations of tabs change the forest only as they may, whether they succeed or not, as long
as their own few changes are allowed: they add nodes and copies, and name nodes that they made or
found near the node that they are asked about. In particular they carry a well-formed forest on.
-/

namespace MarkdownTree.Tabs

open Forest Asking

variable {f g : Forest} {n : NodeId} {members : List NodeId} {labels : List String}
  {panels : List (List NodeId)} {parts : List Part} {category : Value} {grouped : Bool}

theorem content_mem_layout (h : .content n ∈ layout labels panels) : ∃ p ∈ panels, n ∈ p := by
  have hbuttons : ∀ (labels : List String) (i : Nat), .content n ∉ buttons i labels := by
    intro labels
    induction labels with
    | nil => simp [buttons]
    | cons l labels ih => simpa [buttons] using fun i => ih (i + 1)
  have hpanels : ∀ (panels : List (List NodeId)) (i : Nat), .content n ∈ panelParts i panels →
      ∃ p ∈ panels, n ∈ p := by
    intro panels
    induction panels with
    | nil => simp [panelParts]
    | cons p panels ih =>
        intro i hn
        simp only [panelParts, List.cons_append, List.mem_cons, List.mem_append, List.mem_map,
          reduceCtorEq, false_or, Part.content.injEq, exists_eq_right] at hn
        rcases hn with hn | hn
        · exact ⟨p, List.mem_cons_self, hn⟩
        · obtain ⟨q, hq, hnq⟩ := ih _ hn
          exact ⟨q, List.mem_cons_of_mem p hq, hnq⟩
  simp only [layout, List.cons_append, List.nil_append, List.mem_cons, List.mem_append,
    reduceCtorEq, false_or, or_false, List.not_mem_nil, hbuttons labels 1] at h
  exact hpanels panels 1 h

namespace Interleaved

/-- The content between markup comes from the admonition, or from siblings of it. -/
theorem exists_of_mem_layout
    (h : (do let members ← run f category grouped n; .ok (members, ← gather f members)) =
      (.ok (members, labels, panels) : Except TreeFault _)) {m : NodeId}
    (hm : .content m ∈ layout labels panels) :
    ∃ k, m ∈ f.children k ∧ (k = n ∨ ∃ p, f.parent? n = some p ∧ k ∈ f.children p) := by
  obtain ⟨p, hp, hmp⟩ := content_mem_layout hm
  obtain ⟨members', hrun, h⟩ := bind_eq_ok_iff.1 h
  obtain ⟨gathered, hown, h⟩ := bind_eq_ok_iff.1 h
  cases h
  obtain ⟨k, hk, hmk⟩ := mem_children_of_gather hown hp hmp
  exact ⟨k, hmk, mem_of_mem_run hrun hk⟩

end Interleaved

theorem forest_interleave (category : Value) (grouped : Bool) (root : NodeId) (f : Forest) :
    (interleave category grouped root f).2.2 =
      (result (Revision.revise (Interleaved.visit category grouped) (stepLimit f) root) f
        .start).2.1 := by
  unfold interleave result
  dsimp only
  rcases (Revision.revise (Interleaved.visit category grouped) (stepLimit f) root).run.run
    (f, .start) with ⟨_ | _, _, _⟩ <;> rfl

theorem forest_stash (category : Value) (grouped : Bool) (root : NodeId) (f : Forest) :
    (stash category grouped root f).2.2 =
      (result (Revision.revise (Stash.visit category grouped) (stepLimit f) root) f
        ⟨0, 0⟩).2.1 := by
  unfold stash result
  dsimp only
  rcases (Revision.revise (Stash.visit category grouped) (stepLimit f) root).run.run
    (f, ⟨0, 0⟩) with ⟨_ | _, _, _⟩ <;> rfl

/-- The transformations of tabs may make their own changes, and name what they find near a node
where they may be. -/
structure AllowsTabs (ok : Forest → Prop) (may : Forest → Forest → Prop)
    (here named : Forest → NodeId → Prop) : Prop extends Revision.Allows ok may here named where
  here_of_parent? {f : Forest} {n p : NodeId} (hf : ok f) (hn : here f n)
    (hp : f.parent? n = some p) : here f p
  named_of_mem {f : Forest} {p c : NodeId} (hf : ok f) (hp : here f p) (hc : c ∈ f.children p) :
    named f c
  named_of_mem_metadata {f : Forest} {n c : NodeId} (hf : ok f) (hn : here f n)
    (hc : c ∈ Value.nodesEntries (f.metadata n)) : named f c
  addNode {f : Forest} (hf : ok f) (element : Element) :
    may f (f.addNode element []).2 ∧ named (f.addNode element []).2 f.size
  copyTree {f : Forest} {n : NodeId} (hf : ok f) (hn : named f n) :
    may f (outcome (copyTree n) f).2 ∧
      ∀ c, (outcome (copyTree n) f).1 = .ok c → named (outcome (copyTree n) f).2 c
  appendChild {f : Forest} {p c : NodeId} (hf : ok f) (hp : named f p) (hc : named f c) :
    may f (outcome (appendChild p (.node c)) f).2
  updateMetadata {f : Forest} {n : NodeId} (hf : ok f) (hn : named f n)
    (change : Entries → Entries)
    (hchange : ∀ c ∈ Value.nodesEntries (change (f.metadata n)), named f c) :
    may f (f.updateMetadata n change)

section
variable {ok : Forest → Prop} {may : Forest → Forest → Prop} {here named : Forest → NodeId → Prop}
  (h : AllowsTabs ok may here named)

include h

theorem may_realize (hf : ok f) (hparts : ∀ n, .content n ∈ parts → named f n) :
    may f (realize f parts).2 ∧ ∀ n ∈ (realize f parts).1.1, named (realize f parts).2 n := by
  induction parts generalizing f with
  | nil => exact ⟨h.allowance.refl hf, fun _ hn => absurd hn List.not_mem_nil⟩
  | cons part parts ih =>
      cases part with
      | content n =>
          obtain ⟨hfg, hall⟩ := ih hf fun m hm => hparts m (List.mem_cons_of_mem _ hm)
          refine ⟨hfg, fun m hm => ?_⟩
          rcases List.mem_cons.1 hm with rfl | hm
          · exact h.named_of_may hfg (hparts m List.mem_cons_self)
          · exact hall m hm
      | marker marker =>
          obtain ⟨hadd, hnew⟩ := h.addNode hf (Element.html marker.text)
          obtain ⟨hgh, hall⟩ := ih (h.allowance.ok_of_may hadd) fun m hm =>
            h.named_of_may hadd (hparts m (List.mem_cons_of_mem _ hm))
          refine ⟨h.allowance.trans hadd hgh, fun m hm => ?_⟩
          rcases List.mem_cons.1 hm with rfl | hm
          · exact h.named_of_may hgh hnew
          · exact hall m hm

theorem Interleaved.heeds_visit (category : Value) (grouped : Bool) :
    Revision.Heeds ok may here named (fun _ => True) (visit category grouped) := by
  intro n f s r g t hcall _
  refine ⟨trivial, fun hf hn => ?_⟩
  have hstay (action : Revision.Action) (hnone : ∀ v, v ∉ action.values) :
      may f f ∧ ∀ a action',
        (.ok (.action action) : Except TreeFault Revision.Answer) = .ok a →
        a.toAction n = .ok action' → action'.Names (named f) := by
    refine ⟨h.allowance.refl hf, fun a action' ha haction v hv => ?_⟩
    cases ha
    cases haction
    exact absurd hv (hnone v)
  unfold visit at hcall
  split at hcall
  · cases hcall
    exact hstay .delete fun _ => List.not_mem_nil
  split at hcall
  · cases hcall
    exact hstay .keep fun _ => List.not_mem_nil
  split at hcall
  · cases hcall
    exact ⟨h.allowance.refl hf, fun _ _ ha => by cases ha⟩
  · cases hcall
    exact hstay .keep fun _ => List.not_mem_nil
  split at hcall
  · cases hcall
    exact ⟨h.allowance.refl hf, fun _ _ ha => by cases ha⟩
  · rename_i members labels panels hgather
    cases hcall
    -- Content comes from the node itself or from siblings of it.
    have hparts : ∀ m, .content m ∈ layout labels panels → named f m := by
      intro m hm
      obtain ⟨k, hmk, hk⟩ := exists_of_mem_layout hgather hm
      refine h.named_of_mem hf ?_ hmk
      rcases hk with rfl | ⟨p, hp, hk⟩
      · exact hn
      · exact h.here_of_mem hf (h.here_of_parent? hf hn hp) hk
    obtain ⟨hfg, hall⟩ := may_realize h hf hparts
    refine ⟨hfg, fun a action ha haction v hv c hc => ?_⟩
    cases ha
    cases haction
    obtain ⟨m, hm, rfl⟩ := List.mem_map.1 hv
    cases hc
    exact hall c hm

theorem may_interleave (hf : ok f) {root : NodeId} (hroot : here f root) (category : Value)
    (grouped : Bool) : may f (interleave category grouped root f).2.2 := by
  rw [forest_interleave]
  exact Revision.may_revise h.toAllows (Interleaved.heeds_visit h category grouped) hf hroot

namespace Stash

theorem may_copyBelow (hf : ok f) {p : NodeId} {nodes : List NodeId} (hp : named f p)
    (hnodes : ∀ n ∈ nodes, named f n) : may f (outcome (copyBelow p nodes) f).2 := by
  induction nodes generalizing f with
  | nil => exact h.allowance.refl hf
  | cons n nodes ih =>
      obtain ⟨hcopy, hnamed⟩ := h.copyTree hf (hnodes n List.mem_cons_self)
      refine h.allowance.bind hcopy fun c g hres hfg => ?_
      rw [hres] at hnamed
      have happend := h.appendChild (h.allowance.ok_of_may hfg) (h.named_of_may hfg hp)
        (hnamed c rfl)
      refine h.allowance.bind happend fun _ k _ hgk => ?_
      have hfk := h.allowance.trans hfg hgk
      exact ih (h.allowance.ok_of_may hgk) (h.named_of_may hfk hp) fun m hm =>
        h.named_of_may hfk (hnodes m (List.mem_cons_of_mem n hm))

theorem may_makeBlock (hf : ok f) (hn : here f n) {group : Value} (checked : Bool)
    (hgroup : ∀ c ∈ group.nodes, named f c) :
    may f (outcome (makeBlock n group checked) f).2 ∧
      ∀ b, (outcome (makeBlock n group checked) f).1 = .ok b →
        named (outcome (makeBlock n group checked) f).2 b := by
  have hroot (element : Element) (f : Forest) : outcome (newRoot element []) f =
      (.ok f.size, (f.addNode element []).2) := rfl
  simp only [makeBlock, outcome_bind, outcome_get, outcome_liftM]
  cases htitle : (((f.element n).get? "title").getD .null) with
  | str s =>
      simp only [needText, hroot, outcome_change, outcome_pure]
      -- The block and the quote are new, so they may be named, and so may what is copied into it.
      obtain ⟨hblock, hb⟩ := h.addNode hf
        (Element.html (markup s (identifier s) (group.display f.shortText) checked))
      generalize (f.addNode _ []).2 = g at hblock hb ⊢
      obtain ⟨hquote, hq⟩ := h.addNode (h.allowance.ok_of_may hblock) Element.blockQuote
      generalize (g.addNode _ []).2 = k at hquote hq ⊢
      have hfk := h.allowance.trans hblock hquote
      have hcopies := may_copyBelow h (h.allowance.ok_of_may hquote) hq
        fun m (hm : m ∈ f.children n) => h.named_of_may hfk (h.named_of_mem hf hn hm)
      rcases hout : outcome (copyBelow g.size (f.children n)) k with ⟨_ | _, l⟩
      · rw [hout] at hcopies
        refine ⟨h.allowance.trans hfk hcopies, fun b hres => ?_⟩
        cases hres
      · rw [hout] at hcopies
        have hfl := h.allowance.trans hfk hcopies
        have hbl := h.named_of_may hcopies (h.named_of_may hquote hb)
        have hupdate := h.updateMetadata (h.allowance.ok_of_may hcopies) hbl (fun _ => [
          ("tab_title", .str s), ("tab_id", .str (identifier s)), ("tab_group", group),
          ("content", .node g.size)]) fun c hc => by
            simp only [Value.nodesEntries, Value.nodes, List.append_nil, List.nil_append,
              List.mem_append, List.mem_singleton] at hc
            rcases hc with hc | rfl
            · exact h.named_of_may hfl (hgroup c hc)
            · exact h.named_of_may hcopies hq
        refine ⟨h.allowance.trans hfl hupdate, fun b hres => ?_⟩
        cases hres
        exact h.named_of_may hupdate hbl
  | _ =>
      refine ⟨h.allowance.refl hf, fun b hres => ?_⟩
      cases hres

theorem here_of_previousSibling (hf : ok f) (hn : here f n) {p : NodeId}
    (hprevious : f.previousSibling n = .ok (some p)) : here f p := by
  unfold previousSibling at hprevious
  cases hq : f.parent? n with
  | none => simp [hq] at hprevious
  | some q =>
      simp only [hq] at hprevious
      obtain ⟨i, -, hprevious⟩ := bind_eq_ok_iff.1 hprevious
      have hchild := Except.ok.inj hprevious
      split at hchild
      · cases hchild
      · exact h.here_of_mem hf (h.here_of_parent? hf hn hq) (List.mem_of_getElem? hchild)

theorem named_of_joinedGroup (hf : ok f) (hn : here f n) {v : Value}
    (hjoined : joinedGroup f grouped n = .ok (some v)) {c : NodeId} (hc : c ∈ v.nodes) :
    named f c := by
  obtain ⟨previous, hprevious, hjoined⟩ := bind_eq_ok_iff.1 hjoined
  cases previous with
  | none => cases hjoined
  | some p =>
      cases grouped with
      | false => cases hjoined
      | true =>
          exact h.named_of_mem_metadata hf (here_of_previousSibling h hf hn hprevious)
            (mem_nodesEntries_of_get? (Except.ok.inj hjoined) hc)

theorem heeds_visit (category : Value) (grouped : Bool) :
    Revision.Heeds ok may here named (fun _ => True) (visit category grouped) := by
  intro n f s r g t hcall _
  refine ⟨trivial, fun hf hn => ?_⟩
  unfold visit at hcall
  split at hcall
  · cases hcall
    refine ⟨h.allowance.refl hf, fun a action ha haction v hv => ?_⟩
    cases ha
    cases haction
    exact absurd hv List.not_mem_nil
  split at hcall
  · cases hcall
    exact ⟨h.allowance.refl hf, fun _ _ ha => by cases ha⟩
  rename_i joined hjoined
  have hgroup (k : Nat) : ∀ c ∈ (joined.getD (.str ("tabs-group-" ++ toString k))).nodes,
      named f c := by
    intro c hc
    cases joined with
    | none => simp [Value.nodes] at hc
    | some v => exact named_of_joinedGroup h hf hn hjoined hc
  dsimp only at hcall
  generalize (if joined.isSome then s.groups else s.groups + 1) = k at hcall
  obtain ⟨hfg, hblock⟩ := may_makeBlock h hf hn joined.isNone (hgroup k)
  rcases hout : outcome
    (makeBlock n (joined.getD (.str ("tabs-group-" ++ toString k))) joined.isNone) f
    with ⟨e | b, g'⟩
  · rw [hout] at hfg
    have hrun : (makeBlock n (joined.getD (.str ("tabs-group-" ++ toString k)))
      joined.isNone).run.run f = (.error e, g') := hout
    rw [hrun] at hcall
    cases hcall
    exact ⟨hfg, fun _ _ ha => by cases ha⟩
  · rw [hout] at hfg hblock
    have hrun : (makeBlock n (joined.getD (.str ("tabs-group-" ++ toString k)))
      joined.isNone).run.run f = (.ok b, g') := hout
    rw [hrun] at hcall
    cases hcall
    refine ⟨hfg, fun a action ha haction v hv c hc => ?_⟩
    cases ha
    cases haction
    rw [List.mem_singleton.1 hv] at hc
    cases hc
    exact hblock b rfl

end Stash

theorem may_stash (hf : ok f) {root : NodeId} (hroot : here f root) (category : Value)
    (grouped : Bool) : may f (stash category grouped root f).2.2 := by
  rw [forest_stash]
  exact Revision.may_revise h.toAllows (Stash.heeds_visit h category grouped) hf hroot

/-- A document's tabs are transformed with changes that may be made, whatever its settings are. -/
theorem may_transform (hf : ok f) {root : NodeId} (hroot : here f root) (settings : Value) :
    may f (transform settings root f).2.2 := by
  unfold transform
  split
  · exact h.allowance.refl hf
  split
  · exact h.allowance.refl hf
  · dsimp only
    split
    · exact may_interleave h hf hroot _ _
    · exact h.allowance.refl hf
    · exact h.allowance.refl hf
  · dsimp only
    split
    · exact may_stash h hf hroot _ _
    · exact h.allowance.refl hf
    · exact h.allowance.refl hf
  · exact h.allowance.refl hf

end

theorem allowsTabs_carriesOn :
    AllowsTabs Forest.WellFormed Forest.CarriesOn (fun _ _ => True) fun f n => n < f.size where
  toAllows := Revision.allows_carriesOn
  here_of_parent? _ _ _ := trivial
  named_of_mem hf _ hc := hf.lt_size_of_mem hc
  named_of_mem_metadata hf _ hc := lt_of_mem_metadata hf hc
  addNode hf element := by
    refine ⟨carriesOn_addNode hf element (by simp [Value.nodesEntries]), ?_⟩
    simp [Forest.addNode, addRoot, addElement, addRecord, size]
  copyTree hf hn := carriesOn_copyTree hf hn
  appendChild hf hp hc := (relinked_appendChild hf hp fun k hk => by cases hk; exact hc).carriesOn
  updateMetadata hf _ change hchange := carriesOn_updateMetadata hf _ change hchange

section
variable (hf : f.WellFormed)

include hf

theorem carriesOn_interleave (category : Value) (grouped : Bool) (root : NodeId) :
    f.CarriesOn (interleave category grouped root f).2.2 :=
  may_interleave allowsTabs_carriesOn hf trivial category grouped

theorem carriesOn_stash (category : Value) (grouped : Bool) (root : NodeId) :
    f.CarriesOn (stash category grouped root f).2.2 :=
  may_stash allowsTabs_carriesOn hf trivial category grouped

theorem carriesOn_transform (settings : Value) (root : NodeId) :
    f.CarriesOn (transform settings root f).2.2 :=
  may_transform allowsTabs_carriesOn hf trivial settings

theorem Stash.lt_of_joinedGroup {v : Value} (h : joinedGroup f grouped n = .ok (some v))
    {c : NodeId} (hc : c ∈ v.nodes) : c < f.size :=
  named_of_joinedGroup allowsTabs_carriesOn hf trivial h hc

end

end MarkdownTree.Tabs
