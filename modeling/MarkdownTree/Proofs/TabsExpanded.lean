import MarkdownTree.Proofs.ExpandedLists
import MarkdownTree.Proofs.TabsDivide

/-!
The pass over tabs and the recursion over lists of children come to the same: the tree that the pass
leaves shows the expansion of the children of the root, or the pass stops at the label at which the
expansion does.
-/

namespace MarkdownTree.Tabs

open Forest Revision Asking

variable {f g : Forest} {category : Value} {grouped : Bool} {n root : NodeId} {tasks : List Task}
  {list : List NodeId}

/-- A run of tasks comes to what the tasks yield. -/
theorem comes_of_yields (hf : f.WellFormed) {r : Except TreeFault (List Piece)}
    (h : Yields f category grouped tasks r) : ComesAnywhere f category grouped tasks r := by
  induction h with
  | nil => exact fun a place rest hready => hready.comes_nil
  | skip m _ ih => exact fun a place rest hready => hready.comes_skip hf ih
  | drop n _ ih => exact fun a place rest hready => hready.comes_drop hf ih
  | keep hn hbelow _ ihbelow ih =>
      exact fun a place rest hready => hready.comes_keep hf hn hbelow ihbelow ih
  | fail hrun he => exact fun a place rest hready => hready.comes_fail hf hrun he
  | divide hrun hgather _ ih =>
      exact fun a place rest hready => hready.comes_divide hf hrun hgather ih

/-- The steps that the children of a node may take are within the limit of a pass. -/
theorem cost_lt_stepLimit (hf : f.WellFormed) (hroot : root < f.size) :
    cost f ((f.children root).map .visit) + 1 ≤ stepLimit f := by
  have hcost := cost_below hf root
  have hle := hf.length_preorder_le hroot
  have hsquare : f.size + 1 ≤ (f.size + 1) * (f.size + 1) :=
    Nat.le_mul_of_pos_right _ (Nat.succ_pos _)
  rw [Task.cost] at hcost
  unfold stepLimit
  omega

/-- A root that is not divided is kept, and the pass goes on below it. -/
theorem result_revise_root (grouped : Bool) (hroot : divided f category root = false)
    (steps : Nat) :
    result (revise (Interleaved.visit category grouped) steps root) f .start =
      match Config.run (Interleaved.visit category grouped) steps
        ⟨⟨[⟨root, 0⟩], [root], []⟩, f, Interleaved.noteKept f category .start root⟩ with
      | (.ok _, g, t) => (.ok root, g, t)
      | (.error stop, g, t) => (.error stop, g, t) := by
  have hnone : root ∉ Interleaved.State.start.absorbed := List.not_mem_nil
  rw [result_revise_keep (Interleaved.visit_kept hnone hroot)]
  rcases Config.run (Interleaved.visit category grouped) steps
    ⟨⟨[⟨root, 0⟩], [root], []⟩, f, Interleaved.noteKept f category .start root⟩
    with ⟨_ | _, _, _⟩ <;> rfl

/-- At the start the children of the root are ready to be visited. -/
theorem ready_root (hf : f.WellFormed) {s : Interleaved.State} (hs : s.absorbed = []) :
    Ready f ((f.children root).map .visit) ⟨⟨[⟨root, 0⟩], [root], []⟩, f, s⟩ ⟨root, 0⟩ [] := by
  have hready : Task.ReadyAt f ⟨⟨[⟨root, 0⟩], [root], []⟩, f, s⟩ (.visit root) root := by
    refine ⟨rfl, fun m _ => ⟨rfl, rfl, rfl⟩, fun m _ => ?_⟩
    show m ∉ s.absorbed
    rw [hs]
    exact List.not_mem_nil
  refine .below hf hf (Nat.le_refl _) rfl (fun _ hm => absurd hm List.not_mem_nil) hready
    (fun m hm hmem => ?_) fun _ hframe => absurd hframe List.not_mem_nil
  obtain rfl : m = root := List.mem_singleton.1 hmem
  exact hf.not_ancestor_self m hm

theorem interleave_eq (category : Value) (grouped : Bool) (root : NodeId) (f : Forest) :
    ((interleave category grouped root f).1, (interleave category grouped root f).2.2) =
      match result (revise (Interleaved.visit category grouped) (stepLimit f) root) f .start with
      | (.ok new, g, _) => (.ok new, g)
      | (.error stop, g, _) => (.error (stopFault stop), g) := by
  unfold interleave result
  dsimp only
  rcases (revise (Interleaved.visit category grouped) (stepLimit f) root).run.run
    (f, .start) with ⟨_ | _, _, _⟩ <;> rfl

/-- The tree at a root was expanded to pieces: it shows them, data of nodes are as before, and links
changed below the root only, with new parents for divided admonitions and their children alone. -/
structure Expanded (f g : Forest) (category : Value) (root : NodeId) (pieces : List Piece) :
    Prop where
  wellFormed : g.WellFormed
  shown : Shown f g [.node root pieces] [root]
  element_eq (m : NodeId) (hm : m < f.size) : g.element m = f.element m
  metadata_eq (m : NodeId) (hm : m < f.size) : g.metadata m = f.metadata m
  children_eq (m : NodeId) (hm : m < f.size) (hno : ¬ f.AtOrAbove root m) :
    g.children m = f.children m
  parent?_eq (m : NodeId) (hm : m < f.size) (hno : ¬ (f.Ancestor root m ∧ Moved f category m)) :
    g.parent? m = f.parent? m

/-- The pass below a root that is not divided ends within its limit, as the recursion does. -/
theorem revise_comes (grouped : Bool) (hf : f.WellFormed) (hlt : root < f.size)
    (hroot : divided f category root = false) :
    match expand f category grouped (f.children root) with
    | .ok pieces => ∃ g t, Expanded f g category root pieces ∧
        Told f category [.visit root] [.node root pieces] .start t ∧
          result (revise (Interleaved.visit category grouped) (stepLimit f) root) f .start =
            (.ok root, g, t)
    | .error e => (result (revise (Interleaved.visit category grouped) (stepLimit f) root)
        f .start).1 = .error (.visitor e) := by
  have hrevise := result_revise_root grouped hroot (stepLimit f)
  obtain ⟨s, hs⟩ : ∃ s, s = Interleaved.noteKept f category .start root := ⟨_, rfl⟩
  have hnone : s.absorbed = [] := by
    rw [hs, Interleaved.absorbed_noteKept]
    rfl
  rw [← hs] at hrevise
  have hcomes := (comes_of_yields hf (yields_expand hf (f.children root)) _ _ _
    (ready_root hf hnone) :
    Comes f category grouped _ _ _ _ _).below hf
  have hlimit := cost_lt_stepLimit hf hlt
  rw [hrevise]
  cases hexpand : expand f category grouped (f.children root) with
  | error e =>
      -- The run stops within the limit, so the fault is the one of the visitor.
      rw [hexpand] at hcomes
      have hrun := Fails.run_eq hcomes hlimit
      rcases hfinish : Config.run (Interleaved.visit category grouped) (stepLimit f)
        ⟨⟨[⟨root, 0⟩], [root], []⟩, f, s⟩ with ⟨r, g, t⟩
      rw [hfinish] at hrun
      obtain rfl : r = .error (.visitor e) := hrun
      rfl
  | ok pieces =>
      rw [hexpand] at hcomes
      obtain ⟨b, hreaches, hstack, hleaves, hshown, htold⟩ := hcomes
      rw [hreaches.run_eq hstack hlimit]
      have haccount : Told f category [.visit root] [.node root pieces] .start b.state :=
        .keep hf hroot rfl rfl (hs ▸ htold) (.nil b.state)
      have helement := hleaves.element_eq
      have hmetadata := hleaves.metadata_eq
      have hall : Shown f b.forest [.node root pieces] [root] :=
        .node hlt (helement root hlt) (hmetadata root hlt) hshown .nil
      exact ⟨b.forest, b.state, ⟨hleaves.wellFormed, hall, helement, hmetadata, hleaves.children_eq,
        hleaves.parent?_eq⟩, haccount, rfl⟩

/-- The pass over tabs ends as the recursion does. -/
theorem interleave_comes (grouped : Bool) (hf : f.WellFormed) (hlt : root < f.size)
    (hroot : divided f category root = false) :
    match expand f category grouped (f.children root) with
    | .ok pieces => ∃ g, Expanded f g category root pieces ∧
        ((interleave category grouped root f).1, (interleave category grouped root f).2.2) =
          (.ok root, g)
    | .error e => (interleave category grouped root f).1 = .error e := by
  have hcomes := revise_comes grouped hf hlt hroot
  have heq := interleave_eq category grouped root f
  cases hexpand : expand f category grouped (f.children root) with
  | error e =>
      rw [hexpand] at hcomes
      rcases hrevise : result (revise (Interleaved.visit category grouped) (stepLimit f) root) f
        .start with ⟨r, g, t⟩
      rw [hrevise] at hcomes heq
      obtain rfl : r = .error (.visitor e) := hcomes
      exact congrArg Prod.fst heq
  | ok pieces =>
      rw [hexpand] at hcomes
      obtain ⟨g, t, hexpanded, -, hrevise⟩ := hcomes
      rw [hrevise] at heq
      exact ⟨g, hexpanded, heq⟩

/-- Where all texts are texts, the pass returns its root. -/
theorem interleave_returns (grouped : Bool) (hf : f.WellFormed) (hlt : root < f.size)
    (hroot : divided f category root = false) (htextual : Textual f root) :
    ∃ messages g, interleave category grouped root f = (.ok root, messages, g) := by
  have hcomes := interleave_comes grouped hf hlt hroot
  obtain ⟨pieces, hpieces⟩ : ∃ pieces, expand f category grouped (f.children root) = .ok pieces :=
    exists_expand hf fun c hc => htextual.child hf hc
  rw [hpieces] at hcomes
  obtain ⟨g, -, heq⟩ := hcomes
  rcases hrun : interleave category grouped root f with ⟨r, messages, g'⟩
  rw [hrun] at heq
  cases heq
  exact ⟨messages, g', rfl⟩

/-- A document with a set of tabs: one panel, which holds a paragraph under the label `One`. -/
def tabbed : Forest where
  nodes := #[⟨0, some 1, [], 0⟩, ⟨1, some 3, [0], 1⟩, ⟨2, some 3, [], 2⟩, ⟨3, some 4, [1, 2], 3⟩,
    ⟨4, none, [3], 4⟩]
  elements := #[.ofFields .text [("text", .str "One")], .ofFields .heading [("level", .int 2)],
    .ofFields .paragraph [], .ofFields .admonition [("category", .str "tabs")],
    .ofFields .document []]
  records := #[[], [], [], [], []]

theorem wellFormed_tabbed : tabbed.WellFormed := by
  have htext := wellFormed_newNode wellFormed_empty (.ofFields .text [("text", .str "One")])
    [] (by simp)
  have hheading := wellFormed_newNode htext (.ofFields .heading [("level", .int 2)]) [0]
    (by decide)
  have hparagraph := wellFormed_newNode hheading (.ofFields .paragraph []) [] (by simp)
  have htabs := wellFormed_newNode hparagraph
    (.ofFields .admonition [("category", .str "tabs")]) [1, 2] (by decide)
  exact wellFormed_newNode htabs (.ofFields .document []) [3] (by decide)

theorem textual_tabbed : Textual tabbed 4 := by
  intro n hn v hv
  have hlt : n < 5 := hn.lt_size (by decide)
  match n with
  | 0 =>
      cases hv
      exact ⟨"One", rfl⟩
  | 1 | 2 | 3 | 4 => cases hv
  | n + 5 => exact absurd hlt (Nat.not_lt.2 (Nat.le_add_left 5 n))

/-- The pass over tabs does what the recursion says. If all texts of the tree are texts, the
children of the root expand, and the pass returns the root with the tree that shows them; in any
other tree the pass ends at the label at which the recursion does, if there is one. -/
theorem interleave_expands (category : Value) (grouped : Bool) (root : NodeId) (f : Forest)
    (hf : f.WellFormed) (hlt : root < f.size) (hroot : divided f category root = false) :
    (Textual f root → ∃ pieces, expand f category grouped (f.children root) = .ok pieces) ∧
      match expand f category grouped (f.children root) with
      | .ok pieces => ∃ g, Expanded f g category root pieces ∧
          ((interleave category grouped root f).1, (interleave category grouped root f).2.2) =
            (.ok root, g)
      | .error e => (interleave category grouped root f).1 = .error e :=
  ⟨fun htextual => exists_expand hf fun _ hc => htextual.child hf hc,
    interleave_comes grouped hf hlt hroot⟩

/-- The tabs of the document give way to their markup around the paragraph. -/
theorem interleave_expands_tabbed : ∃ pieces g,
    expand tabbed (.str "tabs") true (tabbed.children 4) = .ok pieces ∧
      Expanded tabbed g (.str "tabs") 4 pieces ∧
        ((interleave (.str "tabs") true 4 tabbed).1, (interleave (.str "tabs") true 4 tabbed).2.2) =
          (.ok 4, g) := by
  have h := interleave_expands (.str "tabs") true 4 tabbed wellFormed_tabbed (by decide) (by decide)
  obtain ⟨pieces, hpieces⟩ := h.1 textual_tabbed
  have hmatch := h.2
  rw [hpieces] at hmatch
  obtain ⟨g, hg, heq⟩ := hmatch
  exact ⟨pieces, g, hpieces, hg, heq⟩

end MarkdownTree.Tabs
