import MarkdownTree.Proofs.FencedPasses
import MarkdownTree.Proofs.PassEnds
import MarkdownTree.Proofs.RenamedPasses
import MarkdownTree.Proofs.TabBlocks
import MarkdownTree.Proofs.TabsContent

/-!
Tabs between their content, in renamed parts of forests. At corresponding nodes the visitor reads
the same labels and the same panels, makes the same markup and says the same. So two passes go in
step, and since neither of them runs out of steps, it does not matter that the larger forest has
more of them.
-/

namespace MarkdownTree

namespace Forest

variable {T : NodeId → Prop} {r : NodeId → NodeId} {f g : Forest} {n : NodeId}

theorem Twin.size_eq (h : Twin T r f g) : r f.size = g.size := by
  have hnext := h.next_eq 0
  rwa [Nat.add_zero, Nat.add_zero] at hnext

theorem PlainAt.within (h : f.PlainAt n) (hf : f.WellFormed) (hfg : f.Within g) (hn : n < f.size) :
    g.PlainAt n := by
  obtain ⟨hnone, hkeyed, hmetadata⟩ := h
  rw [← hfg.element_eq hf hn] at hnone hkeyed
  rw [← hfg.metadata_eq hf hn] at hmetadata
  exact ⟨hnone, hkeyed, hmetadata⟩

/-- Nodes that are added to the forests leave those of the part as they are. -/
theorem Renamed.within {f' g' : Forest} (h : Renamed T r f g) (hff : f.Within f')
    (hgg : g.Within g') (hn : f.Has T n) : RenamedAt T r f' g' n := by
  have hlt := h.lt_size n hn
  refine ⟨Nat.lt_of_lt_of_le hlt hgg.size_le, ?_, ?_, ?_, ?_,
    (h.plain n hn).within h.source hff hn.2, fun c hc => ?_, fun p hp => ?_⟩
  · rw [hgg.children_eq hlt, hff.children_eq hn.2, h.children_eq n hn]
  · rw [hgg.parent?_eq hlt, hff.parent?_eq hn.2, h.parent?_eq n hn]
  · rw [hgg.element_eq h.image hlt, hff.element_eq h.source hn.2, h.element_eq n hn]
  · rw [hgg.metadata_eq h.image hlt, hff.metadata_eq h.source hn.2, h.metadata_eq n hn]
  · rw [hff.children_eq hn.2] at hc
    exact h.child n c hn hc
  · rw [hff.parent?_eq hn.2] at hp
    exact h.parent n p hn hp

/-- A new node with plain fields and without metadata is made in both forests. -/
theorem Twin.addNode (h : Twin T r f g) (element : Element)
    (hfields : Value.nodesEntries element.fields = [])
    (hkeyed : Value.isKeyedEntries element.fields = true) :
    Twin T r (f.addNode element []).2 (g.addNode element []).2 := by
  have hf := added h.renamed.source element
  have hg := added h.renamed.image element
  generalize (f.addNode element []).2 = f' at hf ⊢
  generalize (g.addNode element []).2 = g' at hg ⊢
  have hnew : RenamedAt T r f' g' f.size := by
    refine ⟨?_, ?_, ?_, ?_, ?_, ⟨?_, ?_, ?_⟩, fun c hc => ?_, fun p hp => ?_⟩
    · rw [h.size_eq]
      exact hg.lt_size
    · rw [h.size_eq, hg.leaf, hf.leaf]
      rfl
    · rw [h.size_eq, hg.isRoot, hf.isRoot]
      rfl
    · rw [h.size_eq, hg.element_eq, hf.element_eq]
    · rw [h.size_eq, hg.metadata_eq, hf.metadata_eq]
    · rwa [hf.element_eq]
    · rwa [hf.element_eq]
    · rw [hf.metadata_eq]
      exact ⟨rfl, rfl, nofun⟩
    · rw [hf.leaf] at hc
      cases hc
    · rw [hf.isRoot] at hp
      cases hp
  refine ⟨renamed_of_forall hf.wellFormed hg.wellFormed fun n hn => ?_, fun i => ?_, fun i => ?_⟩
  · have hlt := hn.2
    rw [hf.size_eq] at hlt
    rcases Nat.eq_or_lt_of_le (Nat.le_of_lt_succ hlt) with rfl | hlt
    · exact hnew
    · exact h.renamed.within hf.enclosed.within hg.enclosed.within ⟨hn.1, hlt⟩
  · have hmem := h.mem (i + 1)
    rwa [hf.size_eq, Nat.add_assoc, Nat.add_comm 1]
  · have hnext := h.next_eq (i + 1)
    rwa [hf.size_eq, hg.size_eq, Nat.add_assoc, Nat.add_assoc, Nat.add_comm 1]

end Forest

namespace Tabs

open Forest Revision Asking

variable {T : NodeId → Prop} {r : NodeId → NodeId} {f g : Forest} {n root : NodeId}
  {category : Value} {grouped : Bool} {members : List NodeId} {parts : List Part}
  {labels : List String} {panels : List (List NodeId)}

def Part.rename (r : NodeId → NodeId) : Part → Part
  | .marker m => .marker m
  | .content n => .content (r n)

theorem layout_renamed (labels : List String) (panels : List (List NodeId)) :
    layout labels (panels.map (List.map r)) = (layout labels panels).map (Part.rename r) := by
  have hbuttons (labels : List String) (i : Nat) :
      (buttons i labels).map (Part.rename r) = buttons i labels := by
    induction labels generalizing i with
    | nil => rfl
    | cons l labels ih => exact congrArg _ (ih (i + 1))
  have hpanels (panels : List (List NodeId)) (i : Nat) :
      (panelParts i panels).map (Part.rename r) = panelParts i (panels.map (List.map r)) := by
    induction panels generalizing i with
    | nil => rfl
    | cons p panels ih =>
        rw [List.map_cons, panelParts, panelParts, ← ih]
        simp [Part.rename, Function.comp_def]
  simp only [layout, List.map_append, List.map_cons, List.map_nil, hbuttons, hpanels, Part.rename]

/-- What making the markup comes to corresponds: the nodes and those that were made. -/
theorem realize_renamed (h : Twin T r f g) (hparts : ∀ n, .content n ∈ parts → f.Has T n) :
    (realize g (parts.map (Part.rename r))).1 =
        ((realize f parts).1.1.map r, (realize f parts).1.2.map r) ∧
      Twin T r (realize f parts).2 (realize g (parts.map (Part.rename r))).2 ∧
      f.size ≤ (realize f parts).2.size ∧
      ∀ n ∈ (realize f parts).1.1, (realize f parts).2.Has T n := by
  induction parts generalizing f g with
  | nil => exact ⟨rfl, h, Nat.le_refl _, nofun⟩
  | cons part parts ih =>
      cases part with
      | content n =>
          obtain ⟨hnodes, htwin, hle, hall⟩ := ih h fun m hm => hparts m (List.mem_cons_of_mem _ hm)
          refine ⟨?_, htwin, hle, List.forall_mem_cons.2 ⟨?_, hall⟩⟩
          · rw [Prod.ext_iff] at hnodes
            exact Prod.ext (congrArg (r n :: ·) hnodes.1) hnodes.2
          · exact (hparts n List.mem_cons_self).mono hle
      | marker m =>
          have hadd := h.addNode (Element.html m.text) rfl rfl
          have hsize := size_addNode f (Element.html m.text) []
          have hlt : f.size < (f.addNode (Element.html m.text) []).2.size := by
            rw [hsize]
            exact Nat.lt_succ_self _
          obtain ⟨hnodes, htwin, hle, hall⟩ := ih hadd fun m hm =>
            (hparts m (List.mem_cons_of_mem _ hm)).mono (Nat.le_of_lt hlt)
          refine ⟨?_, htwin, Nat.le_trans (Nat.le_of_lt hlt) hle, List.forall_mem_cons.2 ⟨?_, hall⟩⟩
          · rw [Prod.ext_iff] at hnodes
            have hnew : (g.addNode (Element.html m.text) []).1 = r f.size := h.size_eq.symm
            exact Prod.ext (congrArg₂ List.cons hnew hnodes.1) (congrArg₂ List.cons hnew hnodes.2)
          · exact ⟨h.mem 0, Nat.lt_of_lt_of_le hlt hle⟩

namespace Interleaved

/-- What a pass remembers, with other numbers for the nodes. -/
def State.rename (r : NodeId → NodeId) (s : State) : State :=
  { s with absorbed := s.absorbed.map r }

section
variable (h : Renamed T r f g)

include h

/-- What is merged, and the labels and panels of all of it. -/
theorem gathered_renamed (hr : Function.Injective r) (category : Value) (grouped : Bool)
    (hn : f.Has T n) :
    (do let members ← run g category grouped (r n); .ok (members, ← gather g members)) =
      (do let members ← run f category grouped n; .ok (members, ← gather f members) :
        Except TreeFault (List NodeId × List String × List (List NodeId))).map
          (Prod.map (List.map r) (renameTabs r)) := by
  rw [run_renamed h hr category grouped hn]
  rcases hrun : run f category grouped n with e | members
  · rfl
  have hmembers (m : NodeId) (hm : m ∈ members) : f.Has T m := by
    rcases mem_of_mem_run hrun hm with rfl | ⟨p, hp, hm⟩
    · exact hn
    · exact h.has_of_mem (h.has_of_parent? hn hp) hm
  simp only [Except.map, bind, Except.bind, gather_renamed h hmembers]
  rcases gather f members with e | tabs <;> rfl

theorem has_of_mem_layout (hn : f.Has T n)
    (hall : (do let members ← run f category grouped n; .ok (members, ← gather f members)) =
      (.ok (members, labels, panels) : Except TreeFault _)) {m : NodeId}
    (hm : .content m ∈ layout labels panels) : f.Has T m := by
  obtain ⟨k, hmk, hk⟩ := exists_of_mem_layout hall hm
  refine h.has_of_mem ?_ hmk
  rcases hk with rfl | ⟨p, hp, hk⟩
  · exact hn
  · exact h.has_of_mem (h.has_of_parent? hn hp) hk

end

/-- The visitor decides the same at corresponding nodes. -/
theorem inStep_visit (hr : Function.Injective r) (category : Value) (grouped : Bool) :
    InStep T r (State.rename r) (visit category grouped) := by
  intro f g n s h hn
  have hstay (action : Action) (haction : action.values = []) (hsame : action.rename r = action)
      (s t : State) (hst : t = s.rename r) :
      Tallies T r (State.rename r) f (Answer.rename r)
        (fun h answer => ∀ action, answer.toAction n = .ok action → action.In T h)
        ((.ok (.action action), f, s) : Except TreeFault Answer × Forest × State)
        (.ok (.action action), g, t) := by
    refine ⟨?_, h, hst, Nat.le_refl _, fun a ha action' haction' => ?_⟩
    · change _ = Except.ok (Answer.action (action.rename r))
      rw [hsame]
    · cases ha
      cases haction'
      exact ⟨[], haction, nofun⟩
  have hfail (e : TreeFault) : Tallies T r (State.rename r) f (Answer.rename r)
      (fun h answer => ∀ action, answer.toAction n = .ok action → action.In T h)
      ((.error e, f, s) : Except TreeFault Answer × Forest × State) (.error e, g, s.rename r) :=
    ⟨rfl, h, rfl, Nat.le_refl _, nofun⟩
  have habsorbed : (s.rename r).absorbed.contains (r n) = s.absorbed.contains n := by
    rw [Bool.eq_iff_iff, List.contains_iff_mem, List.contains_iff_mem]
    exact mem_map_renamed hr
  have hgathered := gathered_renamed h.renamed hr category grouped hn
  -- What the visitor looks at is the same under both numbers, so both calls take the same branch.
  unfold visit
  rw [habsorbed, isTabs_renamed h.renamed category hn, panels?_renamed h.renamed hn, hgathered,
    unchangedMessage_renamed h.renamed hn]
  split
  · exact hstay .delete rfl rfl s _ rfl
  split
  · exact hstay .keep rfl rfl s _ rfl
  rcases panels? f n with e | _ | own
  · exact hfail e
  · exact hstay .keep rfl rfl { s with messages := s.messages ++ [unchangedMessage f n] } _ rfl
  rcases hall : (do let members ← run f category grouped n; .ok (members, ← gather f members) :
    Except TreeFault (List NodeId × List String × List (List NodeId)))
    with e | ⟨members, labels, panels⟩
  · exact hfail e
  · have hcontent (m : NodeId) (hm : .content m ∈ layout labels panels) : f.Has T m :=
      has_of_mem_layout h.renamed hn hall hm
    obtain ⟨hnodes, htwin, hle, hin⟩ := realize_renamed h hcontent
    simp only [Option.map_some, Except.map, Prod.map, renameTabs, layout_renamed]
    refine ⟨?_, htwin, ?_, hle, fun a ha action haction => ?_⟩
    · simp only [hnodes, Except.map, Answer.rename, Action.rename, Finality.rename, map_mapNodes]
    · simp only [State.rename, List.map_append, List.map_drop, List.length_map]
    · cases ha
      cases haction
      exact ⟨_, rfl, hin⟩

end Interleaved

theorem stepLimit_mono (hle : f.size ≤ g.size) : stepLimit f ≤ stepLimit g :=
  Nat.mul_le_mul_left 16 (Nat.mul_le_mul (Nat.succ_le_succ hle) (Nat.succ_le_succ hle))

/-- The steps of a pass over tabs do not run out. -/
theorem ne_exhausted_interleaved (category : Value) (grouped : Bool) (hf : f.WellFormed)
    (hlt : root < f.size) :
    (result (revise (Interleaved.visit category grouped) (stepLimit f) root) f .start).1 ≠
      .error .exhausted := by
  cases hroot : divided f category root with
  | false =>
      have hcomes := revise_comes grouped hf hlt hroot
      cases hexpand : expand f category grouped (f.children root) with
      | error e =>
          rw [hexpand] at hcomes
          rw [hcomes]
          nofun
      | ok pieces =>
          rw [hexpand] at hcomes
          obtain ⟨g, t, -, -, hrevise⟩ := hcomes
          rw [hrevise]
          nofun
  | true =>
      have hnone : root ∉ Interleaved.State.start.absorbed := List.not_mem_nil
      rw [result_revise]
      rcases Interleaved.visit_several hf grouped hnone hroot with h | ⟨a, b, rest, final, h⟩
      · obtain ⟨e, he⟩ := h
        rcases hvisit : Interleaved.visit category grouped root f .start with ⟨answer, g, t⟩
        rw [hvisit] at he
        obtain rfl : answer = .error e := he
        nofun
      · rcases hvisit : Interleaved.visit category grouped root f .start with ⟨answer, g, t⟩
        rw [hvisit] at h
        obtain rfl : answer = .ok (.action (.splice (.node a :: .node b :: rest) final)) := h
        nofun

/-- What a transformation comes to in renamed parts: the results and the messages correspond, and so
do the parts afterwards. -/
structure Corresponds (T : NodeId → Prop) (r : NodeId → NodeId)
    (first second : Except TreeFault NodeId × List Log.Message × Forest) : Prop where
  result_eq : second.1 = first.1.map r
  messages_eq : second.2.1 = first.2.1
  renamed : Renamed T r first.2.2 second.2.2
  has (top : NodeId) (htop : first.1 = .ok top) : first.2.2.Has T top

/-- The pass over tabs comes to the same in renamed parts. -/
theorem interleave_renamed (hr : Function.Injective r) (h : Twin T r f g) (hle : f.size ≤ g.size)
    (category : Value) (grouped : Bool) (hroot : f.Has T root) :
    Corresponds T r (interleave category grouped root f)
      (interleave category grouped (r root) g) := by
  have hends := ne_exhausted_interleaved category grouped h.renamed.source hroot.2
  obtain ⟨k, hk⟩ := Nat.exists_eq_add_of_le (stepLimit_mono hle)
  have hmore := approximates_revise (Interleaved.visit category grouped)
    (stepLimit f) k root f .start
    hends
  have htallies := tallies_revise (s := .start) hr h (Interleaved.inStep_visit hr category grouped)
    (stepLimit g) hroot
  have hfirst : (revise (Interleaved.visit category grouped) (stepLimit f) root).run.run
    (f, .start) =
      result (revise (Interleaved.visit category grouped) (stepLimit g) root) f .start := by
    rw [hk, hmore]
    rfl
  have hsecond : (revise (Interleaved.visit category grouped) (stepLimit g) (r root)).run.run
      (g, .start) = result (revise (Interleaved.visit category grouped) (stepLimit g) (r root)) g
        (Interleaved.State.start.rename r) := rfl
  unfold interleave
  dsimp only
  rw [hfirst, hsecond]
  generalize result (revise _ _ root) f _ = first at htallies ⊢
  generalize result (revise _ _ (r root)) g _ = second at htallies ⊢
  obtain ⟨hanswer, htwin, hstate, -, hgood⟩ := htallies
  rcases first with ⟨e | new, f', s⟩ <;> rcases second with ⟨answer, g', t⟩
  · obtain rfl : answer = .error e := hanswer
    obtain rfl : t = s.rename r := hstate
    exact ⟨rfl, rfl, htwin.renamed, nofun⟩
  · obtain rfl : answer = .ok (r new) := hanswer
    obtain rfl : t = s.rename r := hstate
    refine ⟨rfl, rfl, htwin.renamed, fun top htop => ?_⟩
    cases htop
    exact hgood new rfl

end Tabs

end MarkdownTree
