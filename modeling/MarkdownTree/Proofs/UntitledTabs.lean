import MarkdownTree.Proofs.StashRuns

/-!
Runs of the pass that turns tabs into blocks, where a title is no text. The pass goes through the
outermost admonitions in document order and stops at the first one without a title that is a text.
-/

namespace MarkdownTree.Tabs.Stash

open Forest Revision Asking

variable {f g : Forest} {m n p root : NodeId} {category : Value} {grouped : Bool} {tabs : List Tab}
  {front back : List NodeId} {a : Config State} {rest : List Frame}

def lacksTitle (f : Forest) (n : NodeId) : Bool :=
  match (f.element n).get? "title" with
  | some (.str _) => false
  | _ => true

def titleFault (f : Forest) (n : NodeId) : TreeFault :=
  .noMember (((f.element n).get? "title").getD .null).typeName "lower"

theorem exists_title_iff :
    (∃ s, (f.element n).get? "title" = some (.str s)) ↔ lacksTitle f n = false := by
  unfold lacksTitle
  constructor
  · rintro ⟨s, hs⟩
    rw [hs]
  · intro h
    split at h
    · exact ⟨_, by assumption⟩
    · cases h

/-- All titles are texts, unless there is a first one that is none. -/
theorem titled_iff {nodes : List NodeId} :
    Titled f category nodes ↔
      (nodes.flatMap (outermost f category)).find? (lacksTitle f) = none := by
  rw [List.find?_eq_none]
  refine forall₂_congr fun n _ => ?_
  rw [exists_title_iff, Bool.not_eq_true]

theorem needText_title (h : lacksTitle f n = true) :
    needText "lower" (((f.element n).get? "title").getD .null) = .error (titleFault f n) := by
  unfold lacksTitle at h
  unfold titleFault
  rcases htitle : (f.element n).get? "title" with _ | v
  · rfl
  · rw [htitle] at h
    cases v with
    | str s => cases h
    | _ => rfl

/-- The visitor fails about an admonition whose title is no text. -/
theorem visit_untitled (grouped : Bool) (hf : f.WellFormed) (hfg : Stashed f g tabs)
    (hn : n < f.size) (hnew : ∀ m, f.AtOrAbove n m → m ∉ admonitions tabs)
    (htabs : isTabs f category n = true) (hlacks : lacksTitle f n = true) :
    ∃ h s, visit category grouped n g (stateAfter tabs) = (.error (titleFault f n), h, s) := by
  have hsame := hfg.sameTree hf hn fun m hm => hnew m hm.atOrAbove
  have htabs' : isTabs g category n = true := by rw [isTabs_eq hsame, htabs]
  have hjoined : joinedGroup g grouped n = .ok (groupBefore f grouped tabs n) :=
    hfg.joinedGroup_eq hf hn (hnew n (.refl f n))
  have htext := needText_title hlacks
  rw [← hsame.element_eq] at htext
  have hmake (group : Value) (checked : Bool) :
      (makeBlock n group checked).run.run g = (.error (titleFault f n), g) := by
    change outcome (makeBlock n group checked) g = _
    simp only [makeBlock, outcome_bind, outcome_get, outcome_liftM, htext]
  unfold visit
  rw [if_neg (by simp [htabs']), hjoined]
  simp only [hmake]
  exact ⟨g, _, rfl⟩

/-- At an admonition whose title is no text, the next step fails. -/
theorem AtChild.fails_tabs (hf : f.WellFormed) (hat : AtChild f grouped tabs a p n front back rest)
    (htabs : isTabs f category n = true) (hlacks : lacksTitle f n = true) :
    Fails (visit category grouped) 1 a (titleFault f n) := by
  obtain ⟨h, s, hvisit⟩ := visit_untitled grouped hf hat.reached.stashed
    (hat.lt_size hf) (fun m hm => (hat.fresh m hm).2) htabs hlacks
  have hstep := hat.result_step category
  rw [hvisit] at hstep
  exact .of_step hat.stack hstep

/-- A pass through siblings stops at the first title that is no text, wherever it meets them
untouched. -/
def FailsAnywhere (f : Forest) (category : Value) (grouped : Bool) (p : NodeId)
    (nodes : List NodeId) : Prop :=
  ∀ front tabs a rest m, f.children p = front ++ nodes → Reached f grouped tabs a →
    a.progress.stack = ⟨p, front.length⟩ :: rest → Untouched f tabs a nodes →
    (nodes.flatMap (outermost f category)).find? (lacksTitle f) = some m →
    Fails (visit category grouped) (2 * (nodes.flatMap f.preorder).length) a (titleFault f m)

/-- The pass fails at a child, or below it. -/
theorem AtChild.fails (hf : f.WellFormed) (hat : AtChild f grouped tabs a p n front back rest)
    (hfind : (outermost f category n).find? (lacksTitle f) = some m)
    (hbelow : FailsAnywhere f category grouped n (f.children n)) :
    Fails (visit category grouped) (2 * (f.preorder n).length) a (titleFault f m) := by
  rw [hf.preorder_eq, List.length_cons]
  cases htabs : isTabs f category n with
  | true =>
      rw [outermost_of_isTabs hf htabs, List.find?_singleton, Option.ite_none_right_eq_some,
        Option.some.injEq] at hfind
      obtain ⟨hlacks, rfl⟩ := hfind
      exact (hat.fails_tabs hf htabs hlacks).mono (by omega)
  | false =>
      rw [outermost_of_not hf htabs] at hfind
      obtain ⟨b, hfirst, hb, hstack, hoffered⟩ := hat.step_other hf htabs
      have hleaf : f.children n ≠ [] := by
        rintro hleaf
        rw [hleaf] at hfind
        cases hfind
      rw [descendInto, if_neg (by simpa using hleaf)] at hstack
      have hrest := hbelow [] tabs b _ m rfl hb hstack (hat.untouched_children hf hoffered) hfind
      exact (hfirst.fails hrest).mono (by omega)

theorem failsAnywhere (hf : f.WellFormed) (category : Value) (grouped : Bool) (p : NodeId)
    (nodes : List NodeId) : FailsAnywhere f category grouped p nodes := by
  induction p using hf.down_induction generalizing nodes with
  | h p ihp =>
      induction nodes with
      | nil =>
          intro front tabs a rest m _ _ _ _ hfind
          cases hfind
      | cons n nodes ih =>
          intro front tabs a rest m hlist hreached hstack huntouched hfind
          have hmem : n ∈ f.children p := by simp [hlist]
          have hat : AtChild f grouped tabs a p n front nodes rest :=
            ⟨hreached, hlist, hstack, fun k hk =>
              huntouched k (List.mem_cons.2 (Or.inl (List.mem_singleton.1 hk)))⟩
          rw [List.flatMap_cons, List.find?_append] at hfind
          rw [List.flatMap_cons, List.length_append]
          cases hfirst : (outermost f category n).find? (lacksTitle f) with
          | some k =>
              rw [hfirst] at hfind
              obtain rfl : k = m := Option.some_inj.1 hfind
              exact (hat.fails hf hfirst (ihp n hmem _)).mono (by omega)
          | none =>
              -- The child passes, and the pass fails among the siblings after it.
              rw [hfirst, Option.none_or] at hfind
              have htitled : Titled f category [n] := by
                rwa [titled_iff, List.flatMap_singleton]
              obtain ⟨b, more, hreaches, hb, hbstack, hmore, hoffers⟩ :=
                hat.passes hf htitled (passesAnywhere hf category grouped n _)
              have hrest := ih (front ++ [n]) (tabs ++ more) b rest m (by simp [hlist]) hb
                (by rw [hbstack, List.length_append]; rfl)
                (huntouched.tail hf hlist hmore hoffers) hfind
              rw [List.flatMap_singleton] at hreaches
              exact (hreaches.fails hrest).mono (by omega)

/-- The pass stops at the first outermost admonition whose title is no text, and says nothing. -/
theorem stash_fails (hf : f.WellFormed) (hroot : root < f.size) (grouped : Bool)
    (hfind : (outermost f category root).find? (lacksTitle f) = some n) :
    ∃ g, stash category grouped root f = (.error (titleFault f n), [], g) := by
  have hrevise := result_revise (visit category grouped) (stateAfter []) (stepLimit f) root f
  cases htabs : isTabs f category root with
  | true =>
      rw [outermost_of_isTabs hf htabs, List.find?_singleton, Option.ite_none_right_eq_some,
        Option.some.injEq] at hfind
      obtain ⟨hlacks, rfl⟩ := hfind
      obtain ⟨h, s, hvisit⟩ := visit_untitled grouped hf (.refl hf) hroot
        (fun m _ => List.not_mem_nil) htabs hlacks
      rw [hvisit] at hrevise
      refine ⟨h, ?_⟩
      rw [stash_eq, hrevise]
      rfl
  | false =>
      rw [outermost_of_not hf htabs] at hfind
      -- The pass begins at the first child of the root, with no tab made yet.
      have hstart : Reached f grouped [] ⟨⟨[⟨root, 0⟩], [root], []⟩, f, stateAfter []⟩ :=
        ⟨.refl hf, .nil, rfl, rfl⟩
      have hfails := failsAnywhere hf category grouped root _ [] [] _ [] n rfl hstart rfl
        (untouched_start hf root) hfind
      have hrun := hfails.run_eq (Nat.le_trans (Nat.le_succ _) (cost_le_stepLimit hf hroot))
      have htake : result (takePlace root root [root] : Pass State TreeFault (List NodeId)) f
          (stateAfter []) = (.ok [root], f, stateAfter []) := by
        rw [result_takePlace _ hf, if_pos rfl]
      have haction : rootAction f root .keep = .ok (.node root, true) := rfl
      rw [visit_other htabs] at hrevise
      simp only [Answer.toAction, haction] at hrevise
      rw [result_reviseAt _ _ htake, if_pos rfl] at hrevise
      unfold Config.run at hrun
      rw [stash_eq, hrevise]
      generalize result (finish _ _ _) _ _ = finished at hrun
      obtain ⟨_, g, s⟩ := finished
      obtain rfl := hrun
      exact ⟨g, rfl⟩

end MarkdownTree.Tabs.Stash
