import MarkdownTree.Proofs.AlikeBlocks

/-!
What a document says brings no markup in. Titles and texts reach the markup of tabs as labels and as
identifiers; yet two documents of one shape get as many pieces of markup in the same places, with
the same angle brackets and double quotes, whatever their titles and texts are.
-/

namespace MarkdownTree.Tabs

open Forest

/-- A document with one tab: a title, and a heading as the label over a paragraph. -/
def written (label title : String) : Forest where
  nodes := #[⟨0, some 1, [], 0⟩, ⟨1, some 3, [0], 1⟩, ⟨2, some 3, [], 2⟩, ⟨3, some 4, [1, 2], 3⟩,
    ⟨4, none, [3], 4⟩]
  elements := #[.ofFields .text [("text", .str label)], .ofFields .heading [("level", .int 2)],
    .ofFields .paragraph [], Stash.tabUnder title, .ofFields .document []]
  records := #[[], [], [], [], []]

theorem wellFormed_written (label title : String) : (written label title).WellFormed := by
  have hempty : (written "" "").WellFormed := by
    have htext := wellFormed_newNode wellFormed_empty (.ofFields .text [("text", .str "")]) []
      (by simp)
    have hheading := wellFormed_newNode htext (.ofFields .heading [("level", .int 2)]) [0]
      (by decide)
    have hparagraph := wellFormed_newNode hheading (.ofFields .paragraph []) [] (by simp)
    have htabs := wellFormed_newNode hparagraph (Stash.tabUnder "") [1, 2] (by decide)
    exact wellFormed_newNode htabs (.ofFields .document []) [3] (by decide)
  -- The texts do not matter to what may stand where.
  refine hempty.of_nodes_eq rfl (Nat.le_refl _) (fun key hkey => ?_) (Nat.le_refl _)
    hempty.lt_of_mem_record
  match key with
  | 0 | 1 | 2 | 3 | 4 => rfl
  | key + 5 => exact absurd hkey (Nat.not_lt.2 (Nat.le_add_left 5 key))

theorem textual_written (label title : String) : Textual (written label title) 4 := by
  intro n hn v hv
  have hlt : n < 5 := hn.lt_size (show 4 < 5 by decide)
  match n with
  | 0 =>
      cases hv
      exact ⟨label, rfl⟩
  | 1 | 2 | 3 | 4 => cases hv
  | n + 5 => exact absurd hlt (Nat.not_lt.2 (Nat.le_add_left 5 n))

/-- Texts are the same but for what they say. -/
theorem sameButProse_text (s s' : String) :
    SameButProse (.ofFields .text [("text", .str s)]) (.ofFields .text [("text", .str s')]) where
  kind_eq := rfl
  field name := by
    by_cases hname : name = "text"
    · subst hname
      exact Or.inr ⟨rfl, s, s', rfl, rfl⟩
    · left
      simp [Element.get?, Element.ofFields, Entries.get?_cons, Ne.symm hname]

/-- Tabs are the same but for their titles. -/
theorem sameButProse_tabUnder (title title' : String) :
    SameButProse (Stash.tabUnder title) (Stash.tabUnder title') where
  kind_eq := rfl
  field name := by
    by_cases hname : name = "title"
    · subst hname
      exact Or.inr ⟨rfl, title, title', rfl, rfl⟩
    · left
      simp [Stash.tabUnder, Element.get?, Element.ofFields, Entries.get?_cons, Ne.symm hname]

theorem sameShape_written (label label' title title' : String) :
    SameShape (written label title) (written label' title') 4 4 := by
  have hchildren (n : NodeId) :
      (written label' title').children n = (written label title).children n := rfl
  refine ⟨fun n n' hn => ?_, fun n n' hn => ?_⟩
  · have hlt : n < 5 :=
      (hn.atOrAbove (wellFormed_written label title)).lt_size (show 4 < 5 by decide)
    rw [hn.eq_of_children_eq hchildren]
    match n with
    | 0 => exact sameButProse_text label label'
    | 3 => exact sameButProse_tabUnder title title'
    | 1 | 2 | 4 => exact ⟨rfl, fun name => Or.inl rfl⟩
    | n + 5 => exact absurd hlt (Nat.not_lt.2 (Nat.le_add_left 5 n))
  · rw [hn.eq_of_children_eq hchildren, hchildren]

theorem unnamed_written (label title : String) : Stash.Unnamed (written label title) 4 where
  below n hn := by
    have hover := (wellFormed_written label title).mem_preorder_iff.1 hn
    have hlt : n < 5 := hover.lt_size (show 4 < 5 by decide)
    match n with
    | 0 | 1 | 2 | 3 | 4 => rfl
    | n + 5 => exact absurd hlt (Nat.not_lt.2 (Nat.le_add_left 5 n))
  before _ hq := nomatch hq

/-- Two trees without groups in their metadata that have the same shape, and differ in titles of
admonitions and in texts of texts and codes only, are treated alike by both passes over tabs: both
trees are refused, or both get as many pieces of markup in the same places, and each two of them
have the same angle brackets and double quotes in the same order. -/
theorem endsAlike_of_sameShape (category : Value) (grouped : Bool) (f f' : Forest)
    (root root' : NodeId) (hf : f.WellFormed) (hf' : f'.WellFormed) (hlt : root < f.size)
    (hlt' : root' < f'.size) (h : SameShape f f' root root') (hunnamed : Stash.Unnamed f root)
    (hunnamed' : Stash.Unnamed f' root') :
    EndsAlike f f' root root' (interleave category grouped root f)
        (interleave category grouped root' f') ∧
      EndsAlike f f' root root' (stash category grouped root f)
        (stash category grouped root' f') :=
  ⟨interleave_endsAlike h hf hf' hlt hlt' category grouped,
    Stash.stash_endsAlike h hf hf' hlt hlt' hunnamed hunnamed' category grouped⟩

/-- Markup as label and title changes no more than a harmless label and title do. -/
theorem endsAlike_of_sameShape_written : ∃ messages messages' g g',
    interleave (.str "tabs") true 4 (written "One" "Tabs") = (.ok 4, messages, g) ∧
      interleave (.str "tabs") true 4 (written "<b>" "\"></div>") = (.ok 4, messages', g') ∧
      SameInsertions (written "One" "Tabs") (written "<b>" "\"></div>") g g' 4 4 4 4 ∧
      EndsAlike (written "One" "Tabs") (written "<b>" "\"></div>") 4 4
        (stash (.str "tabs") true 4 (written "One" "Tabs"))
        (stash (.str "tabs") true 4 (written "<b>" "\"></div>")) := by
  have hlt (label title : String) : 4 < (written label title).size := show 4 < 5 by decide
  obtain ⟨hinterleave, hstash⟩ := endsAlike_of_sameShape (.str "tabs") true _ _ 4 4
    (wellFormed_written "One" "Tabs") (wellFormed_written "<b>" "\"></div>") (hlt _ _) (hlt _ _)
    (sameShape_written _ _ _ _) (unnamed_written _ _) (unnamed_written _ _)
  have hreturns (label title : String) : ∃ messages g,
      interleave (.str "tabs") true 4 (written label title) = (.ok 4, messages, g) :=
    interleave_returns true (wellFormed_written label title) (hlt _ _) rfl
      (textual_written label title)
  obtain ⟨messages, g, hrun⟩ := hreturns "One" "Tabs"
  obtain ⟨messages', g', hrun'⟩ := hreturns "<b>" "\"></div>"
  refine ⟨messages, messages', g, g', hrun, hrun', ?_, hstash⟩
  rw [hrun, hrun'] at hinterleave
  cases hinterleave with
  | inserted h => exact h

end MarkdownTree.Tabs
