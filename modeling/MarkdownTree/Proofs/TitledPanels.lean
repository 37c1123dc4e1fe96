import Mathlib.Data.List.Forall2
import MarkdownTree.Proofs.TabsVisitor

/-!
Panels with their headings. Each heading of an admonition begins a panel, which runs to the next
heading; what precedes the first heading comes at the front of the first panel. The panels that the
pass over tabs gathers are these, and their labels are the escaped texts of the headings.
-/

namespace MarkdownTree.Tabs

open Forest

variable {f : Forest} {category : Value} {n heading : NodeId} {children members : List NodeId}
  {s t : Split} {labels : List String} {panels : List (List NodeId)} {l : String}

/-- Each heading among children with what follows it up to the next one. -/
def sectionsOf (f : Forest) : List NodeId → List (NodeId × List NodeId)
  | [] => []
  | c :: rest =>
    if isHeading f c then (c, rest.takeWhile (!isHeading f ·)) :: sectionsOf f rest
    else sectionsOf f rest

/-- Puts nodes at the front of the first section. -/
def withLead (lead : List NodeId) : List (NodeId × List NodeId) → List (NodeId × List NodeId)
  | [] => []
  | (heading, content) :: more => (heading, lead ++ content) :: more

def titledPanels (f : Forest) (n : NodeId) : List (NodeId × List NodeId) :=
  withLead ((f.children n).takeWhile (!isHeading f ·)) (sectionsOf f (f.children n))

/-- A label is the escaped plain text of the heading of a panel. -/
def LabelOf (f : Forest) (panel : NodeId × List NodeId) (l : String) : Prop :=
  ∃ title, f.plainText panel.1 = .ok (.str title) ∧ l = Markup.escape title

theorem withLead_ne_nil {lead : List NodeId} {parts : List (NodeId × List NodeId)}
    (h : parts ≠ []) : withLead lead parts ≠ [] := by
  cases parts with
  | nil => exact absurd rfl h
  | cons part parts => exact List.cons_ne_nil _ _

theorem sectionsOf_ne_nil (h : children.any (isHeading f) = true) : sectionsOf f children ≠ [] := by
  induction children with
  | nil => cases h
  | cons c children ih =>
      rw [sectionsOf]
      split
      · exact List.cons_ne_nil _ _
      · rename_i hc
        rw [Bool.not_eq_true] at hc
        rw [List.any_cons, hc, Bool.false_or] at h
        exact ih h

/-- A divided admonition has a panel. -/
theorem titledPanels_ne_nil (h : divided f category n = true) : titledPanels f n ≠ [] :=
  withLead_ne_nil (sectionsOf_ne_nil (Bool.and_eq_true_iff.1 h).2)

theorem needText_eq_ok {purpose title : String} {v : Value} (h : needText purpose v = .ok title) :
    v = .str title := by
  cases v with
  | str s => exact congrArg Value.str (Except.ok.inj h)
  | _ => cases h

theorem labelOf_of_label (h : label f heading = .ok l) (content : List NodeId) :
    LabelOf f (heading, content) l := by
  obtain ⟨v, htext, h⟩ := bind_eq_ok_iff.1 h
  obtain ⟨title, hneed, h⟩ := bind_eq_ok_iff.1 h
  exact ⟨title, htext.trans (congrArg Except.ok (needText_eq_ok hneed)), (Except.ok.inj h).symm⟩

/-- Once a panel is open, it goes on to the next heading, and then come the sections. -/
theorem Split.addAll_started (h : s.addAll f children = .ok t) (hs : s.started = true) :
    ∃ labels, List.Forall₂ (LabelOf f) (sectionsOf f children) labels ∧
      t.labels = s.labels ++ labels ∧
      t.panels ++ [t.current] =
        s.panels ++ (s.current ++ children.takeWhile (!isHeading f ·)) ::
          (sectionsOf f children).map Prod.snd := by
  induction children generalizing s with
  | nil =>
      cases h
      exact ⟨[], .nil, by simp, by simp [sectionsOf]⟩
  | cons c children ih =>
      obtain ⟨u, hadd, hrest⟩ := addAll_cons h
      rcases add_cases hadd with ⟨hc, l, hlabel, rfl⟩ | ⟨hc, rfl⟩
      · rw [if_pos hs] at hrest
        obtain ⟨labels, hlabels, hall, hpanels⟩ := ih hrest rfl
        refine ⟨l :: labels, ?_, by simpa using hall, ?_⟩
        · rw [sectionsOf, if_pos hc]
          exact .cons (labelOf_of_label hlabel _) hlabels
        · rw [hpanels]
          simp [sectionsOf, hc]
      · obtain ⟨labels, hlabels, hall, hpanels⟩ := ih hrest hs
        refine ⟨labels, ?_, hall, ?_⟩
        · simpa [sectionsOf, hc] using hlabels
        · rw [hpanels]
          simp [sectionsOf, hc]

/-- Before the first heading the content is kept for the first panel. -/
theorem Split.addAll_unstarted (h : s.addAll f children = .ok t) (hs : s.started = false)
    (ht : t.started = true) {parts : List (NodeId × List NodeId)}
    (hparts : parts =
      withLead (s.current ++ children.takeWhile (!isHeading f ·)) (sectionsOf f children)) :
    ∃ labels, List.Forall₂ (LabelOf f) parts labels ∧ t.labels = s.labels ++ labels ∧
      t.panels ++ [t.current] = s.panels ++ parts.map Prod.snd := by
  induction children generalizing s with
  | nil =>
      cases h
      rw [hs] at ht
      cases ht
  | cons c children ih =>
      obtain ⟨u, hadd, hrest⟩ := addAll_cons h
      rcases add_cases hadd with ⟨hc, l, hlabel, rfl⟩ | ⟨hc, rfl⟩
      · rw [if_neg (by simp [hs])] at hrest
        obtain ⟨labels, hlabels, hall, hpanels⟩ := addAll_started hrest rfl
        have hfirst : parts = (c, s.current ++ children.takeWhile (!isHeading f ·)) ::
            sectionsOf f children := by
          simp [hparts, sectionsOf, withLead, hc]
        rw [hfirst]
        refine ⟨l :: labels, .cons (labelOf_of_label hlabel _) hlabels, by simpa using hall, ?_⟩
        simpa using hpanels
      · have hlater : parts = withLead (s.current ++ [c] ++ children.takeWhile (!isHeading f ·))
            (sectionsOf f children) := by
          simp [hparts, sectionsOf, hc]
        have hall := ih hrest hs hlater
        exact hall

/-- The panels of an admonition are the titled ones, and the labels are those of the headings. -/
theorem panels?_titled (h : panels? f n = .ok (some (labels, panels))) :
    List.Forall₂ (LabelOf f) (titledPanels f n) labels ∧
      (titledPanels f n).map Prod.snd = panels := by
  obtain ⟨t, hsplit, hstarted, rfl, rfl⟩ := panels?_some h
  obtain ⟨labels, hlabels, hall, hpanels⟩ := Split.addAll_unstarted hsplit rfl hstarted rfl
  rw [hall]
  exact ⟨hlabels, hpanels.symm⟩

/-- The same for adjacent admonitions, one after the other. -/
theorem gather_titled (hdivided : ∀ k ∈ members, divided f category k = true)
    (h : Interleaved.gather f members = .ok (labels, panels)) :
    List.Forall₂ (LabelOf f) (members.flatMap (titledPanels f)) labels ∧
      (members.flatMap (titledPanels f)).map Prod.snd = panels := by
  induction members generalizing labels panels with
  | nil =>
      cases h
      exact ⟨.nil, rfl⟩
  | cons n members ih =>
      obtain ⟨hn, hmembers⟩ := List.forall_mem_cons.1 hdivided
      obtain ⟨own, ⟨more, morePanels⟩, hown, hrest, hall⟩ := Interleaved.gather_cons h
      obtain ⟨⟨ownLabels, ownPanels⟩, rfl⟩ := panels?_of_divided hn hown
      cases hall
      obtain ⟨hlabels, hpanels⟩ := panels?_titled hown
      obtain ⟨hlabels', hpanels'⟩ := ih hmembers hrest
      rw [List.flatMap_cons, List.map_append, hpanels, hpanels']
      exact ⟨List.rel_append hlabels hlabels', rfl⟩

end MarkdownTree.Tabs
