import MarkdownTree.Proofs.Destinations

/-!
When attaching and detaching are refused. The test of an attachment follows parents upwards; what it
refuses is told here by the lists of children alone. An operation fails for one of the reasons that
are told beforehand and for no other, and then it has changed nothing. The one exception is again an
index that no list takes.
-/

namespace MarkdownTree

open Forest

namespace Forest

variable {f : Forest} {c n p : NodeId} {v : Value} {values : List Value} {i : Int}

/-- A value may not be attached below `p`: it is no node, its kind may not stand there, or `p` is in
its tree. -/
inductive Unfit (f : Forest) (p : NodeId) : Value → Prop
  | notANode {v : Value} (h : ∀ c, v ≠ .node c) : Unfit f p v
  | kind {c : NodeId} (h : (f.kind p).canContain (f.kind c) = false) : Unfit f p (.node c)
  | cycle {c : NodeId} (h : p ∈ f.preorder c) : Unfit f p (.node c)

theorem Fits.not_unfit (hf : f.WellFormed) (hfit : f.Fits p c) : ¬ f.Unfit p (.node c) := by
  intro h
  cases h with
  | notANode h => exact h c rfl
  | kind h => exact Bool.false_ne_true (h.symm.trans hfit.canContain)
  | cycle h => exact hfit.not_over (hf.mem_preorder_iff.1 h)

/-- The test of an attachment refuses what is unfit, and lets all else through. -/
theorem checkAttach_cases (hf : f.WellFormed) (p : NodeId) (v : Value) :
    (f.Unfit p v ∧ ∃ e, f.checkAttach p v = .error e) ∨
      ∃ c, v = .node c ∧ f.Fits p c ∧ f.checkAttach p v = .ok c := by
  cases hcheck : f.checkAttach p v with
  | ok c =>
      obtain ⟨hv, hfit⟩ := (checkAttach_eq_ok_iff hf).1 hcheck
      exact Or.inr ⟨c, hv, hfit, rfl⟩
  | error e =>
      refine Or.inl ⟨?_, e, rfl⟩
      by_cases hnode : ∃ c, v = .node c
      · obtain ⟨c, rfl⟩ := hnode
        by_cases hk : (f.kind p).canContain (f.kind c) = true
        · refine .cycle (hf.mem_preorder_iff.2 (by_contra fun hover => ?_))
          have hok := (checkAttach_eq_ok_iff hf).2 ⟨rfl, hk, hover⟩
          rw [hcheck] at hok
          cases hok
        · exact .kind (by simpa using hk)
      · exact .notANode fun c hc => hnode ⟨c, hc⟩

/-- An operation fails if there is a reason, and then changes nothing; otherwise it succeeds. -/
inductive Settles {α : Type} (op : Edit α) (f : Forest) (reason : Prop) : Prop
  | fails (h : reason) (e : TreeFault) (hout : outcome op f = (.error e, f))
  | succeeds (h : ¬ reason) (a : α) (g : Forest) (hout : outcome op f = (.ok a, g))

theorem settles_attachAt (takes : Int → Bool) (hf : f.WellFormed)
    (ht : ∀ c j, f.checkAttach p v = .ok c → f.indexWithout p c i = .ok j → takes j = true) :
    Settles (attachAt takes p i v) f (f.Unfit p v) := by
  rcases checkAttach_cases hf p v with ⟨hunfit, e, hcheck⟩ | ⟨c, rfl, hfit, hcheck⟩
  · exact .fails hunfit e (outcome_attachAt_fault hcheck)
  · obtain ⟨j, hj⟩ := exists_indexWithout hf p c i
    refine .succeeds (hfit.not_unfit hf) () (f.placed p c j) ?_
    rw [outcome_attachAt hf hcheck hj, if_pos (ht c j hcheck hj)]

theorem settles_insertSibling (hf : f.WellFormed) (n : NodeId) (v : Value) (offset : Nat) :
    Settles (insertSibling n v offset) f (∀ p, f.parent? n = some p → f.Unfit p v) := by
  cases hn : f.parent? n with
  | none =>
      obtain ⟨e, he⟩ := outcome_insertSibling_root hn v offset
      exact .fails nofun e he
  | some p =>
      rcases checkAttach_cases hf p v with ⟨hunfit, e, hcheck⟩ | ⟨s, rfl, hfit, hcheck⟩
      · refine .fails (fun q hq => ?_) e (outcome_insertSibling_fault hn hcheck offset)
        cases hq
        exact hunfit
      · have hno : ¬ ∀ q, some p = some q → f.Unfit q (.node s) :=
          fun h => hfit.not_unfit hf (h p rfl)
        by_cases hsn : s = n
        · exact .succeeds hno () f (outcome_insertSibling_self hn (hsn ▸ hcheck) offset)
        · obtain ⟨k, -, hout⟩ := outcome_insertSibling hf hn hcheck hsn offset
          exact .succeeds hno () _ hout

theorem settles_removeChild (hf : f.WellFormed) (p : NodeId) (v : Value) :
    Settles (removeChild p v) f (∀ c ∈ f.children p, v ≠ .node c) := by
  by_cases h : ∃ c ∈ f.children p, v = .node c
  · obtain ⟨c, hc, rfl⟩ := h
    exact .succeeds (fun hno => hno c hc rfl) () _
      (outcome_removeChild hc (hf.parent?_of_mem hc))
  · refine .fails (fun c hc hv => h ⟨c, hc, hv⟩) .notAChild ?_
    exact outcome_removeChild_fault fun c hv hc => h ⟨c, hc, hv⟩

/-- Nodes that are refused together are unfit on their own, or one of them occurs twice. -/
theorem unfit_or_not_nodup (hf : f.WellFormed) {e : TreeFault}
    (h : f.checkReplacement p [] values = .error e) :
    (∃ w ∈ values, f.Unfit p w) ∨ ¬ values.Nodup := by
  by_contra hno
  obtain ⟨hunfit, hdouble⟩ := not_or.1 hno
  have hnodup : values.Nodup := not_not.1 hdouble
  have hall : ∀ w ∈ values, ∃ c, w = .node c ∧ f.Fits p c := by
    intro w hw
    rcases checkAttach_cases hf p w with ⟨hw', -⟩ | ⟨c, hc, hfit, -⟩
    · exact absurd ⟨w, hw, hw'⟩ hunfit
    · exact ⟨c, hc, hfit⟩
  obtain ⟨nodes, hnodes⟩ : ∃ nodes : List NodeId, values = nodes.map .node := by
    refine ⟨Revision.nodesAmong values, ?_⟩
    clear h hno hunfit hdouble hnodup
    induction values with
    | nil => rfl
    | cons w values ih =>
        obtain ⟨c, rfl, -⟩ := hall w List.mem_cons_self
        exact congrArg (Value.node c :: ·) (ih fun u hu => hall u (List.mem_cons_of_mem _ hu))
  subst hnodes
  -- Otherwise they are nodes that fit and differ, and such nodes are not refused.
  have hok : f.checkReplacement p [] (nodes.map .node) = .ok nodes := by
    refine (checkReplacement_eq_ok_iff hf).2 ⟨rfl, ⟨hnodup.of_map _, fun c hc => ?_⟩, by simp⟩
    obtain ⟨k, hk, hfit⟩ := hall (.node c) (List.mem_map_of_mem hc)
    cases hk
    exact hfit
  rw [h] at hok
  cases hok

theorem settles_replaceChild (hf : f.WellFormed) (p : NodeId) (v : Value)
    (hknown : ∀ w ∈ values, f.Known w) :
    Settles (replaceChild p v values) f
      ((∀ c ∈ f.children p, v ≠ .node c) ∨ (∃ w ∈ values, f.Unfit p w) ∨ ¬ values.Nodup) := by
  by_cases h : ∃ c ∈ f.children p, v = .node c
  · obtain ⟨c, hc, rfl⟩ := h
    cases hcheck : f.checkReplacement p [] values with
    | error e =>
        exact .fails (Or.inr (unfit_or_not_nodup hf hcheck)) e
          (outcome_replaceChild_refused hc hcheck)
    | ok nodes =>
        obtain ⟨before, after, hlist⟩ := List.append_of_mem hc
        obtain ⟨rfl, hfit, -, hout⟩ := outcome_replaceChild_checked hf hlist hknown hcheck
        refine .succeeds ?_ _ _ hout
        rintro (hno | ⟨w, hw, hunfit⟩ | hdouble)
        · exact hno c hc rfl
        · obtain ⟨k, hk, rfl⟩ := List.mem_map.1 hw
          exact (hfit.fits k hk).not_unfit hf hunfit
        · exact hdouble (hfit.nodup.map fun a b hab => Value.node.inj hab)
  · refine .fails (Or.inl fun c hc hv => h ⟨c, hc, hv⟩) .notAChild ?_
    exact outcome_replaceChild_stranger fun c hv hc => h ⟨c, hc, hv⟩

end Forest

/-- An operation that attaches a node, detaches one, or replaces a child, with its arguments. -/
inductive LinkOperation where
  | append (p : NodeId) (v : Value)
  | prepend (p : NodeId) (v : Value)
  | insert (p : NodeId) (i : Int) (v : Value)
  | before (n : NodeId) (v : Value)
  | after (n : NodeId) (v : Value)
  | remove (p : NodeId) (v : Value)
  | replace (p : NodeId) (v : Value) (values : List Value)

namespace LinkOperation

/-- Does an operation; what a replacement answers is dropped. -/
def perform : LinkOperation → Edit Unit
  | append p v => appendChild p v
  | prepend p v => prependChild p v
  | insert p i v => insertChild p i v
  | before n v => insertBefore n v
  | after n v => insertAfter n v
  | remove p v => removeChild p v
  | replace p v values => do
    let _ ← replaceChild p v values
    pure ()

/-- There is a reason to refuse an operation. Beside a root nothing can be attached. -/
def Refused (f : Forest) : LinkOperation → Prop
  | append p v | prepend p v | insert p _ v => f.Unfit p v
  | before n v | after n v => ∀ p, f.parent? n = some p → f.Unfit p v
  | remove p v => ∀ c ∈ f.children p, v ≠ .node c
  | replace p v values =>
    (∀ c ∈ f.children p, v ≠ .node c) ∨ (∃ w ∈ values, f.Unfit p w) ∨ ¬ values.Nodup

/-- The nodes that are to take the place of another one exist. -/
def Known (f : Forest) : LinkOperation → Prop
  | replace _ _ values => ∀ w ∈ values, f.Known w
  | _ => True

/-- The index of an insertion is one that the list takes. -/
def IndexFits (f : Forest) : LinkOperation → Prop
  | insert p i v => fittingInsertion f p i v
  | _ => True

theorem settles_perform {f : Forest} (hf : f.WellFormed) (op : LinkOperation) (hknown : op.Known f)
    (hindex : op.IndexFits f) : Settles op.perform f (op.Refused f) := by
  cases op with
  | append p v =>
      have hends : Settles (attachAt (fun _ => true) p (f.children p).length v) f (f.Unfit p v) :=
        settles_attachAt _ hf fun _ _ _ _ => rfl
      cases hends with
      | fails h e hout =>
          exact .fails h e
            (by simpa only [perform, appendChild, outcome_bind, outcome_get] using hout)
      | succeeds h a g hout =>
          exact .succeeds h a g
            (by simpa only [perform, appendChild, outcome_bind, outcome_get] using hout)
  | prepend p v =>
      refine settles_attachAt _ hf fun c j _ hj => ?_
      rw [indexWithout_zero hj]
      rfl
  | insert p i v => exact settles_attachAt _ hf hindex
  | before n v => exact settles_insertSibling hf n v 0
  | after n v => exact settles_insertSibling hf n v 1
  | remove p v => exact settles_removeChild hf p v
  | replace p v values =>
      cases settles_replaceChild hf p v hknown with
      | fails h e hout => exact .fails h e (by rw [perform, outcome_bind, hout])
      | succeeds h a g hout => exact .succeeds h () g (by rw [perform, outcome_bind, hout]; rfl)

/-- An operation on links fails exactly when there is a reason to refuse it, and when it fails, the
forest is as before. -/
theorem fails_iff_refused {f : Forest} (hf : f.WellFormed) (op : LinkOperation)
    (hknown : op.Known f) (hindex : op.IndexFits f) :
    ((∃ e g, outcome op.perform f = (.error e, g)) ↔ op.Refused f) ∧
      ∀ e g, outcome op.perform f = (.error e, g) → g = f := by
  cases settles_perform hf op hknown hindex with
  | fails h e hout =>
      refine ⟨iff_of_true ⟨e, f, hout⟩ h, fun e' g hout' => ?_⟩
      rw [hout] at hout'
      cases hout'
      rfl
  | succeeds h a g hout =>
      have hno : ∀ e g', outcome op.perform f ≠ (.error e, g') := by
        intro e g' hout'
        rw [hout] at hout'
        cases hout'
      exact ⟨iff_of_false (fun ⟨e, g', hout'⟩ => hno e g' hout') h,
        fun e g' hout' => absurd hout' (hno e g')⟩

/-- The content of the block quote and the document are to take the place of the block quote; the
document cannot, so the content stays where it is. -/
theorem fails_iff_refused_quoteBetween :
    let op := replace 4 (.node 1) [.node 0, .node 4]
    op.Known quoteBetween ∧ op.IndexFits quoteBetween ∧ op.Refused quoteBetween ∧
      ((∃ e g, outcome op.perform quoteBetween = (.error e, g)) ↔ op.Refused quoteBetween) ∧
      ∀ e g, outcome op.perform quoteBetween = (.error e, g) → g = quoteBetween := by
  intro op
  have hknown : op.Known quoteBetween := by
    intro w hw c hc
    subst hc
    simp only [List.mem_cons, Value.node.injEq, List.not_mem_nil, or_false] at hw
    obtain rfl | rfl := hw <;> decide
  have hrefused : op.Refused quoteBetween :=
    Or.inr (Or.inl ⟨.node 4, by simp, .cycle (by decide)⟩)
  exact ⟨hknown, trivial, hrefused, fails_iff_refused wellFormed_quoteBetween op hknown trivial⟩

/-- Inserted at an index that no list takes, a paragraph is not attached, though nothing speaks
against it, and the forest has changed: the paragraph has a parent. -/
theorem not_unchanged_tooLargeIndex :
    let op := insert 0 9223372036854775808 (.node 1)
    looseParagraph.WellFormed ∧ ¬ op.Refused looseParagraph ∧
      ∃ e g, outcome op.perform looseParagraph = (.error e, g) ∧ g ≠ looseParagraph := by
  intro op
  have hf := wellFormed_looseParagraph
  have hfit : looseParagraph.Fits 0 1 := fits_of_tests hf (by decide) (by decide)
  refine ⟨hf, hfit.not_unfit hf, .indexTooLarge, (outcome op.perform looseParagraph).2, rfl, ?_⟩
  intro hsame
  have hparent : (outcome op.perform looseParagraph).2.parent? 1 = some 0 := rfl
  rw [hsame] at hparent
  cases hparent

end LinkOperation

end MarkdownTree
