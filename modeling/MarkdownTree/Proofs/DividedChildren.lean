import MarkdownTree.Proofs.ExpandedLists
import MarkdownTree.Proofs.TitledPanels

/-!
Children divided at their headings. Any list of children is what precedes the first heading, and
then each heading with what follows it up to the next one. The panels of a node are those contents,
the first of them behind what precedes the first heading, so they hold the other children in order.
The loop that gathers them ends a panel only at the next heading or at the end, and the first label
that is no text ends it early.
-/

namespace MarkdownTree.Tabs

open Forest

variable {f : Forest} {n : NodeId} {children lead : List NodeId}
  {sections more : List (NodeId × List NodeId)} {part : NodeId × List NodeId} {s : Split}

/-- A list of children is `lead`, which holds no heading, and then the sections: each is a heading
and what follows it, up to the next heading. -/
structure DividedInto (f : Forest) (children lead : List NodeId)
    (sections : List (NodeId × List NodeId)) : Prop where
  children_eq : children = lead ++ sections.flatMap fun part => part.1 :: part.2
  lead_plain (m : NodeId) (hm : m ∈ lead) : isHeading f m = false
  heading (part : NodeId × List NodeId) (hpart : part ∈ sections) : isHeading f part.1 = true
  plain (part : NodeId × List NodeId) (hpart : part ∈ sections) (m : NodeId) (hm : m ∈ part.2) :
    isHeading f m = false

def panelsOf (lead : List NodeId) (sections : List (NodeId × List NodeId)) : List (List NodeId) :=
  (withLead lead sections).map Prod.snd

/-- The headings of sections have these texts. -/
def TitledAs (f : Forest) (sections : List (NodeId × List NodeId)) (titles : List String) : Prop :=
  List.Forall₂ (fun part title => f.plainText part.1 = .ok (.str title)) sections titles

/-- Every list of children can be divided. -/
theorem exists_dividedInto (f : Forest) (children : List NodeId) :
    ∃ lead sections, DividedInto f children lead sections := by
  induction children with
  | nil => exact ⟨[], [], rfl, nofun, nofun, nofun⟩
  | cons c children ih =>
      obtain ⟨lead, sections, h⟩ := ih
      by_cases hc : isHeading f c = true
      · refine ⟨[], (c, lead) :: sections, ?_, nofun, ?_, ?_⟩
        · rw [h.children_eq]
          simp
        · exact List.forall_mem_cons.2 ⟨hc, h.heading⟩
        · exact List.forall_mem_cons.2 ⟨h.lead_plain, h.plain⟩
      · refine ⟨c :: lead, sections, ?_, ?_, h.heading, h.plain⟩
        · rw [h.children_eq]
          rfl
        · exact List.forall_mem_cons.2 ⟨by simpa using hc, h.lead_plain⟩

namespace DividedInto

variable (h : DividedInto f children lead sections)

include h

theorem heading_mem (hpart : part ∈ sections) : part.1 ∈ children := by
  rw [h.children_eq]
  exact List.mem_append_right _ (List.mem_flatMap.2 ⟨part, hpart, List.mem_cons_self⟩)

theorem sections_ne_nil {c : NodeId} (hc : c ∈ children) (hheading : isHeading f c = true) :
    sections ≠ [] := by
  rintro rfl
  rw [h.children_eq, List.flatMap_nil, List.append_nil] at hc
  exact Bool.false_ne_true ((h.lead_plain c hc).symm.trans hheading)

/-- The panels hold the children that are no headings, in order. -/
theorem flatten_panelsOf (hsome : sections ≠ []) :
    (panelsOf lead sections).flatten = children.filter (!isHeading f ·) := by
  have hkept {list : List NodeId} (hlist : ∀ m ∈ list, isHeading f m = false) :
      list.filter (!isHeading f ·) = list :=
    List.filter_eq_self.2 fun m hm => by rw [hlist m hm]; rfl
  have hparts : (sections.flatMap fun part => part.1 :: part.2).filter (!isHeading f ·) =
      (sections.map Prod.snd).flatten := by
    rw [List.filter_flatMap, ← List.flatMap_def]
    refine List.flatMap_congr fun part hpart => ?_
    rw [List.filter_cons_of_neg (by simp [h.heading part hpart]), hkept (h.plain part hpart)]
  rw [h.children_eq, List.filter_append, hkept h.lead_plain, hparts]
  cases sections with
  | nil => exact absurd rfl hsome
  | cons part more => simp [panelsOf, withLead]

end DividedInto

/-- The labels and panels of a split that nothing is added to any more. -/
def Split.close (s : Split) : Option (List String × List (List NodeId)) :=
  if s.started then some (s.labels, s.panels ++ [s.current]) else none

theorem panels?_eq_close (f : Forest) (n : NodeId) :
    panels? f n = (Split.addAll f ⟨[], [], [], false⟩ (f.children n)).map Split.close := by
  rw [panels?]
  cases Split.addAll f ⟨[], [], [], false⟩ (f.children n) with
  | error e => rfl
  | ok s =>
      simp only [bind, Except.bind, Except.map, Split.close]
      split <;> rfl

/-- Children that are no headings go to the open panel. -/
theorem Split.addAll_plain (hchildren : ∀ m ∈ children, isHeading f m = false) (s : Split)
    (rest : List NodeId) :
    s.addAll f (children ++ rest) =
      Split.addAll f { s with current := s.current ++ children } rest := by
  induction children generalizing s with
  | nil => simp
  | cons c children ih =>
      obtain ⟨hc, hrest⟩ := List.forall_mem_cons.1 hchildren
      have hadd : s.add f c = .ok { s with current := s.current ++ [c] } := by simp [Split.add, hc]
      rw [List.cons_append, Split.addAll, hadd]
      simp only [bind, Except.bind, ih hrest, List.append_assoc, List.singleton_append]

/-- What a split becomes with a heading that has the given label, and with what follows it: the open
panel ends unless the heading is the first one. -/
def Split.begin (s : Split) (label : String) (content : List NodeId) : Split :=
  if s.started then ⟨s.labels ++ [label], s.panels ++ [s.current], content, true⟩
  else ⟨s.labels ++ [label], s.panels, s.current ++ content, true⟩

theorem Split.addAll_section (hheading : isHeading f part.1 = true)
    (hplain : ∀ m ∈ part.2, isHeading f m = false) (s : Split) (rest : List NodeId) :
    s.addAll f (part.1 :: part.2 ++ rest) =
      label f part.1 >>= fun l => (s.begin l part.2).addAll f rest := by
  rw [List.cons_append, Split.addAll, Split.add, if_pos hheading]
  cases label f part.1 with
  | error e => rfl
  | ok l =>
      cases hs : s.started <;>
        simp [bind, Except.bind, addAll_plain hplain, begin, hs]

/-- Once a panel is open, each section ends it and opens another one. -/
theorem Split.addAll_sections (hheading : ∀ part ∈ sections, isHeading f part.1 = true)
    (hplain : ∀ part ∈ sections, ∀ m ∈ part.2, isHeading f m = false) (hs : s.started = true) :
    (s.addAll f (sections.flatMap fun part => part.1 :: part.2)).map Split.close =
      (allOk (sections.map fun part => label f part.1)).map fun labels =>
        some (s.labels ++ labels, s.panels ++ s.current :: sections.map Prod.snd) := by
  induction sections generalizing s with
  | nil => simp [addAll, allOk, Except.map, close, hs]
  | cons part sections ih =>
      obtain ⟨hpart, hheading⟩ := List.forall_mem_cons.1 hheading
      obtain ⟨hcontent, hplain⟩ := List.forall_mem_cons.1 hplain
      rw [List.flatMap_cons, addAll_section hpart hcontent, List.map_cons, List.map_cons]
      cases hlabel : label f part.1 with
      | error e => rfl
      | ok l =>
          have hbegin : s.begin l part.2 =
              ⟨s.labels ++ [l], s.panels ++ [s.current], part.2, true⟩ := by simp [begin, hs]
          simp only [allOk, bind, Except.bind, hbegin]
          rw [ih hheading hplain rfl]
          cases allOk (sections.map fun part => label f part.1) with
          | error e => rfl
          | ok labels => simp [Except.map]

/-- The labels are made one after the other, and the panels are those of the sections. -/
theorem panels?_eq_of_dividedInto (h : DividedInto f (f.children n) lead sections)
    (hsome : sections ≠ []) :
    panels? f n = (allOk (sections.map fun part => label f part.1)).map fun labels =>
      some (labels, panelsOf lead sections) := by
  cases sections with
  | nil => exact absurd rfl hsome
  | cons part more =>
      obtain ⟨hpart, hheading⟩ := List.forall_mem_cons.1 h.heading
      obtain ⟨hcontent, hplain⟩ := List.forall_mem_cons.1 h.plain
      rw [panels?_eq_close, h.children_eq, Split.addAll_plain h.lead_plain, List.flatMap_cons,
        Split.addAll_section hpart hcontent, List.map_cons]
      cases hlabel : label f part.1 with
      | error e => rfl
      | ok l =>
          have hbegin : Split.begin ⟨[], [], [] ++ lead, false⟩ l part.2 =
              ⟨[l], [], lead ++ part.2, true⟩ := rfl
          simp only [allOk, bind, Except.bind, hbegin]
          rw [Split.addAll_sections hheading hplain rfl]
          cases allOk (more.map fun part => label f part.1) with
          | error e => rfl
          | ok labels => rfl

theorem label_eq_ok_iff {heading : NodeId} {l : String} : label f heading = .ok l ↔
    ∃ title, f.plainText heading = .ok (.str title) ∧ l = Markup.escape title := by
  constructor
  · intro hlabel
    exact labelOf_of_label hlabel []
  · rintro ⟨title, htext, rfl⟩
    rw [label, htext]
    rfl

/-- All labels can be made if and only if all headings have texts, and they are these texts
escaped. -/
theorem allOk_label_eq_ok_iff {labels : List String} :
    allOk (sections.map fun part => label f part.1) = .ok labels ↔
      ∃ titles, TitledAs f sections titles ∧ labels = titles.map Markup.escape := by
  rw [allOk_eq_ok_iff, List.forall₂_map_left_iff]
  constructor
  · intro hlabels
    induction hlabels with
    | nil => exact ⟨[], .nil, rfl⟩
    | cons hlabel _ ih =>
        obtain ⟨title, htext, rfl⟩ := label_eq_ok_iff.1 hlabel
        obtain ⟨titles, htitles, rfl⟩ := ih
        exact ⟨title :: titles, .cons htext htitles, rfl⟩
  · rintro ⟨titles, htitles, rfl⟩
    induction htitles with
    | nil => exact .nil
    | cons htext _ ih => exact .cons (label_eq_ok_iff.2 ⟨_, htext, rfl⟩) ih

theorem DividedInto.exists_titles (h : DividedInto f (f.children n) lead sections)
    (hf : f.WellFormed) (htextual : Textual f n) : ∃ titles, TitledAs f sections titles := by
  have hall : ∀ part ∈ sections, ∃ title, f.plainText part.1 = .ok (.str title) := fun part hpart =>
    (htextual.child hf (h.heading_mem hpart)).exists_plainText hf
  clear h
  induction sections with
  | nil => exact ⟨[], .nil⟩
  | cons part sections ih =>
      obtain ⟨⟨title, htext⟩, hrest⟩ := List.forall_mem_cons.1 hall
      obtain ⟨titles, htitles⟩ := ih hrest
      exact ⟨title :: titles, .cons htext htitles⟩

/-- What the labels and panels of a node are whose children are divided in some way. -/
structure Partitions (f : Forest) (n : NodeId) (lead : List NodeId)
    (sections : List (NodeId × List NodeId)) : Prop where
  /-- There are as many panels as headings, and together they are the other children in order. -/
  length_panels : (panelsOf lead sections).length = sections.length
  flatten_panels : (panelsOf lead sections).flatten = (f.children n).filter (!isHeading f ·)
  /-- If all headings have texts, the labels are these texts escaped. -/
  returns (titles : List String) (h : TitledAs f sections titles) :
    panels? f n = .ok (some (titles.map Markup.escape, panelsOf lead sections))
  /-- If not, there are no labels and no panels, but a fault. -/
  fails (h : ∀ titles, ¬ TitledAs f sections titles) : ∃ e, panels? f n = .error e
  /-- They do if all that is held as text below the node is text. -/
  titled (hf : f.WellFormed) (h : Textual f n) : ∃ titles, TitledAs f sections titles

/-- A node has no panels if and only if none of its children is a heading. Otherwise its children
can be divided at their headings, and the labels and panels are those of the sections. -/
theorem panels?_partitions (f : Forest) (n : NodeId) :
    (panels? f n = .ok none ↔ ∀ c ∈ f.children n, isHeading f c = false) ∧
      (∃ lead sections, DividedInto f (f.children n) lead sections) ∧
      ∀ lead sections, DividedInto f (f.children n) lead sections →
        (∃ c ∈ f.children n, isHeading f c = true) → Partitions f n lead sections := by
  refine ⟨⟨fun hnone => ?_, fun hplain => ?_⟩, exists_dividedInto f _,
    fun lead sections h ⟨c, hc, hheading⟩ => ?_⟩
  · have hheading := isSome_of_panels? hnone
    simpa [hasHeading] using hheading.symm
  · refine panels?_of_no_heading (List.any_eq_false.2 fun c hc => ?_)
    simp [hplain c hc]
  -- With a heading there is a section, so content before the first heading joins its panel.
  · have hsome := h.sections_ne_nil hc hheading
    refine ⟨?_, h.flatten_panelsOf hsome, fun titles htitles => ?_, fun hno => ?_,
      h.exists_titles⟩
    · cases sections with
      | nil => rfl
      | cons part more => simp [panelsOf, withLead]
    · rw [panels?_eq_of_dividedInto h hsome, allOk_label_eq_ok_iff.2 ⟨titles, htitles, rfl⟩]
      rfl
    · rw [panels?_eq_of_dividedInto h hsome]
      cases hlabels : allOk (sections.map fun part => label f part.1) with
      | error e => exact ⟨e, rfl⟩
      | ok labels =>
          obtain ⟨titles, htitles, -⟩ := allOk_label_eq_ok_iff.1 hlabels
          exact absurd htitles (hno titles)

/-- An admonition with a paragraph before its first heading, a paragraph under it, and nothing under
its second heading. -/
def introduced : Forest where
  nodes := #[⟨0, some 1, [], 0⟩, ⟨1, some 5, [0], 1⟩, ⟨2, some 5, [], 2⟩, ⟨3, some 5, [], 3⟩,
    ⟨4, some 5, [], 4⟩, ⟨5, none, [2, 1, 3, 4], 5⟩]
  elements := #[.ofFields .text [("text", .str "A & B")], .ofFields .heading [("level", .int 2)],
    .ofFields .paragraph [], .ofFields .paragraph [], .ofFields .heading [("level", .int 2)],
    .ofFields .admonition [("category", .str "tabs")]]
  records := #[[], [], [], [], [], []]

theorem panels?_partitions_introduced :
    DividedInto introduced (introduced.children 5) [2] [(1, [3]), (4, [])] ∧
      Partitions introduced 5 [2] [(1, [3]), (4, [])] ∧
      panels? introduced 5 = .ok (some (["A &amp; B", ""], [[2, 3], []])) := by
  have hdivided : DividedInto introduced (introduced.children 5) [2] [(1, [3]), (4, [])] :=
    ⟨rfl, by decide, by decide, by decide⟩
  have hparts := (panels?_partitions introduced 5).2.2 [2] [(1, [3]), (4, [])] hdivided
    ⟨1, by decide, by decide⟩
  have htitles : TitledAs introduced [(1, [3]), (4, [])] ["A & B", ""] :=
    .cons (by rfl) (.cons (by rfl) .nil)
  have hescaped : ["A & B", ""].map Markup.escape = ["A &amp; B", ""] := by decide
  refine ⟨hdivided, hparts, ?_⟩
  rw [hparts.returns _ htitles, hescaped]
  rfl

end MarkdownTree.Tabs
