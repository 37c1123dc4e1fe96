import MarkdownTree.Tabs.Interleaved

/-!
What the panels of an admonition hold: all its children but the headings, each once and in order,
in as many panels as there are headings. The admonitions that share panels are siblings.
-/

namespace MarkdownTree.Tabs

variable {f : Forest} {n : NodeId} {children : List NodeId} {s t : Split} {labels : List String}
  {panels : List (List NodeId)}

theorem kind_of_isTabs {category : Value} (h : isTabs f category n = true) :
    f.kind n = .admonition := by
  have hkind : (f.kind n).isA .admonition = true := (Bool.and_eq_true_iff.1 h).1
  generalize f.kind n = kind at hkind
  cases kind <;> first
    | rfl
    | exact absurd hkind (by decide)

/-- Where an admonition may stand, any block may. -/
theorem canContain_of_admonition {parent kind : Kind} (hp : parent.canContain .admonition = true)
    (hk : Kind.admonition.canContain kind = true) : parent.canContain kind = true := by
  cases parent <;> first
    | exact hk
    | exact absurd hp (by decide)

def contentOf (f : Forest) (n : NodeId) : List NodeId :=
  (f.children n).filter (!isHeading f ·)

def Split.content (s : Split) : List NodeId :=
  s.panels.flatten ++ s.current

/-- Once a heading was met there is a label for each complete panel and one for the open panel. -/
def Split.Balanced (s : Split) : Prop :=
  s.labels.length = s.panels.length + if s.started then 1 else 0

/-- What a split becomes with one more child: a heading has a label, and ends the open panel unless
it is the first one. -/
theorem Split.add_cases (h : s.add f n = .ok t) :
    (isHeading f n = true ∧ ∃ l, label f n = .ok l ∧
      t = if s.started then ⟨s.labels ++ [l], s.panels ++ [s.current], [], true⟩
        else ⟨s.labels ++ [l], s.panels, s.current, true⟩) ∨
      isHeading f n = false ∧ t = { s with current := s.current ++ [n] } := by
  unfold add at h
  by_cases hn : isHeading f n = true
  · rw [if_pos hn] at h
    obtain ⟨l, hlabel, h⟩ := bind_eq_ok_iff.1 h
    refine Or.inl ⟨hn, l, hlabel, ?_⟩
    split at h
    · rename_i hs
      rw [if_pos hs, ← hs]
      exact (Except.ok.inj h).symm
    · rename_i hs
      rw [if_neg hs]
      exact (Except.ok.inj h).symm
  · rw [if_neg hn] at h
    exact Or.inr ⟨by simpa using hn, (Except.ok.inj h).symm⟩

theorem Split.addAll_cons (h : s.addAll f (n :: children) = .ok t) :
    ∃ u, s.add f n = .ok u ∧ u.addAll f children = .ok t := by
  unfold addAll at h
  exact bind_eq_ok_iff.1 h

theorem Split.add_eq (h : s.add f n = .ok t) :
    t.content = s.content ++ [n].filter (!isHeading f ·) ∧
      t.started = (s.started || isHeading f n) ∧ (s.Balanced → t.Balanced) := by
  rcases add_cases h with ⟨hn, l, -, rfl⟩ | ⟨hn, rfl⟩
  · cases hs : s.started with
    | true =>
        refine ⟨by simp [content, hn], by simp, fun hb => ?_⟩
        simp only [Balanced, hs, if_true] at hb ⊢
        simp [hb]
    | false =>
        refine ⟨by simp [content, hn], by simp [hn], fun hb => ?_⟩
        simp only [Balanced, hs, if_true, Bool.false_eq_true, if_false] at hb ⊢
        simp [hb]
  · exact ⟨by simp [content, hn], by simp [hn], id⟩

theorem Split.addAll_eq (h : s.addAll f children = .ok t) :
    t.content = s.content ++ children.filter (!isHeading f ·) ∧
      t.started = (s.started || children.any (isHeading f)) ∧ (s.Balanced → t.Balanced) := by
  induction children generalizing s with
  | nil =>
      cases h
      simp
  | cons c children ih =>
      obtain ⟨u, hadd, hrest⟩ := addAll_cons h
      obtain ⟨hcontent, hstarted, hbalanced⟩ := ih hrest
      obtain ⟨hcontent', hstarted', hbalanced'⟩ := Split.add_eq hadd
      refine ⟨?_, ?_, fun hb => hbalanced (hbalanced' hb)⟩
      · rw [hcontent, hcontent', List.append_assoc, ← List.filter_append, List.singleton_append]
      · rw [hstarted, hstarted', List.any_cons, Bool.or_assoc]

theorem Split.length_labels (h : s.addAll f children = .ok t) :
    t.labels.length = s.labels.length + (children.filter (isHeading f)).length := by
  induction children generalizing s with
  | nil =>
      cases h
      rfl
  | cons c children ih =>
      obtain ⟨u, hadd, hrest⟩ := addAll_cons h
      rw [ih hrest]
      rcases add_cases hadd with ⟨hc, l, -, rfl⟩ | ⟨hc, rfl⟩
      · rw [List.filter_cons_of_pos hc, List.length_cons]
        cases s.started <;>
        · simp only [if_true, Bool.false_eq_true, if_false, List.length_append,
            List.length_singleton]
          omega
      · rw [List.filter_cons_of_neg (by simp [hc])]

/-- What an admonition is divided into is what taking up all its children ends in, if that began a
panel. -/
theorem panels?_cases {r : Option (List String × List (List NodeId))} (h : panels? f n = .ok r) :
    ∃ t, Split.addAll f ⟨[], [], [], false⟩ (f.children n) = .ok t ∧
      (t.started = true ∧ r = some (t.labels, t.panels ++ [t.current]) ∨
        t.started = false ∧ r = none) := by
  obtain ⟨t, hs, h⟩ := bind_eq_ok_iff.1 h
  refine ⟨t, hs, ?_⟩
  cases hstarted : t.started with
  | true =>
      rw [if_pos hstarted] at h
      exact Or.inl ⟨rfl, (Except.ok.inj h).symm⟩
  | false =>
      rw [if_neg (by simp [hstarted])] at h
      exact Or.inr ⟨rfl, (Except.ok.inj h).symm⟩

theorem panels?_some (h : panels? f n = .ok (some (labels, panels))) :
    ∃ t, Split.addAll f ⟨[], [], [], false⟩ (f.children n) = .ok t ∧ t.started = true ∧
      t.labels = labels ∧ t.panels ++ [t.current] = panels := by
  obtain ⟨t, hs, ⟨hstarted, hr⟩ | ⟨-, hr⟩⟩ := panels?_cases h
  · cases hr
    exact ⟨t, hs, hstarted, rfl, rfl⟩
  · cases hr

/-- An admonition has panels exactly if one of its children is a heading. -/
theorem isSome_of_panels? {r : Option (List String × List (List NodeId))}
    (h : panels? f n = .ok r) : r.isSome = hasHeading f n := by
  obtain ⟨t, hs, hcases⟩ := panels?_cases h
  have hstarted : t.started = hasHeading f n := by
    simpa [hasHeading] using (Split.addAll_eq hs).2.1
  rw [← hstarted]
  rcases hcases with ⟨ht, rfl⟩ | ⟨ht, rfl⟩ <;> rw [ht] <;> rfl

theorem panels?_eq_some (h : panels? f n = .ok (some (labels, panels))) :
    panels.flatten = contentOf f n ∧ labels.length = panels.length := by
  obtain ⟨t, hs, hstarted, rfl, rfl⟩ := panels?_some h
  obtain ⟨hcontent, -, hbalanced⟩ := Split.addAll_eq hs
  have hb : t.Balanced := hbalanced rfl
  simp only [Split.Balanced, hstarted, if_true] at hb
  refine ⟨?_, by simpa using hb⟩
  simpa [Split.content, contentOf] using hcontent

/-- There is a label for each heading. -/
theorem length_labels_of_panels? (h : panels? f n = .ok (some (labels, panels))) :
    labels.length = ((f.children n).filter (isHeading f)).length := by
  obtain ⟨t, hs, -, rfl, -⟩ := panels?_some h
  simpa using Split.length_labels hs

theorem mem_children_of_panels? {panel : List NodeId} {m : NodeId}
    (h : panels? f n = .ok (some (labels, panels))) (hp : panel ∈ panels) (hm : m ∈ panel) :
    m ∈ f.children n := by
  have hflat : m ∈ panels.flatten := List.mem_flatten.2 ⟨panel, hp, hm⟩
  rw [(panels?_eq_some h).1] at hflat
  exact (List.mem_filter.1 hflat).1

namespace Interleaved

variable {members : List NodeId} {category : Value} {grouped : Bool} {m : NodeId}

theorem mem_children_of_laterSiblings {siblings : List NodeId}
    (h : f.laterSiblings n = .ok siblings) (hm : m ∈ siblings) :
    ∃ p, f.parent? n = some p ∧ m ∈ f.children p := by
  unfold Forest.laterSiblings at h
  cases hp : f.parent? n with
  | none =>
      simp only [hp, Except.ok.injEq] at h
      subst h
      cases hm
  | some p =>
      simp only [hp] at h
      obtain ⟨i, -, h⟩ := bind_eq_ok_iff.1 h
      cases h
      exact ⟨p, rfl, List.mem_of_mem_drop hm⟩

theorem mem_of_mem_following {siblings : List NodeId}
    (h : following f category siblings = .ok members) (hm : m ∈ members) :
    m ∈ siblings := by
  induction siblings generalizing members with
  | nil =>
      cases h
      exact hm
  | cons k siblings ih =>
      unfold following at h
      obtain ⟨divides, -, h⟩ := bind_eq_ok_iff.1 h
      cases divides with
      | false =>
          cases h
          cases hm
      | true =>
          rw [if_pos rfl] at h
          obtain ⟨rest, hrest, h⟩ := bind_eq_ok_iff.1 h
          cases h
          rcases List.mem_cons.1 hm with rfl | hm
          · exact List.mem_cons_self
          · exact List.mem_cons_of_mem k (ih hrest hm)

/-- The admonitions of a run are the first of them and children of its parent. -/
theorem mem_of_mem_run (h : run f category grouped n = .ok members) (hm : m ∈ members) :
    m = n ∨ ∃ p, f.parent? n = some p ∧ m ∈ f.children p := by
  unfold run at h
  cases grouped with
  | false =>
      cases h
      exact Or.inl (List.mem_singleton.1 hm)
  | true =>
      rw [if_pos rfl] at h
      obtain ⟨siblings, hlater, h⟩ := bind_eq_ok_iff.1 h
      obtain ⟨rest, hrest, h⟩ := bind_eq_ok_iff.1 h
      cases h
      refine (List.mem_cons.1 hm).imp id fun hm => ?_
      exact mem_children_of_laterSiblings hlater (mem_of_mem_following hrest hm)

theorem gather_cons {all : List String × List (List NodeId)}
    (h : gather f (n :: members) = .ok all) :
    ∃ own rest, panels? f n = .ok own ∧ gather f members = .ok rest ∧
      all = match own with
        | some (ls, ps) => (ls ++ rest.1, ps ++ rest.2)
        | none => rest := by
  unfold gather at h
  obtain ⟨own, hown, h⟩ := bind_eq_ok_iff.1 h
  obtain ⟨rest, hrest, h⟩ := bind_eq_ok_iff.1 h
  refine ⟨own, rest, hown, hrest, ?_⟩
  rcases own with _ | ⟨ls, ps⟩ <;> exact (Except.ok.inj h).symm

theorem mem_children_of_gather {panel : List NodeId}
    (h : gather f members = .ok (labels, panels)) (hp : panel ∈ panels) (hm : m ∈ panel) :
    ∃ n ∈ members, m ∈ f.children n := by
  induction members generalizing labels panels with
  | nil =>
      cases h
      exact absurd hp List.not_mem_nil
  | cons n members ih =>
      obtain ⟨own, ⟨ls, ps⟩, hown, hrest, hall⟩ := gather_cons h
      have hbelow (hps : panel ∈ ps) : ∃ n' ∈ n :: members, m ∈ f.children n' := by
        obtain ⟨n', hn', hmn'⟩ := ih hrest hps
        exact ⟨n', List.mem_cons_of_mem n hn', hmn'⟩
      rcases own with _ | ⟨ls', ps'⟩
      · cases hall
        exact hbelow hp
      · cases hall
        rcases List.mem_append.1 hp with hp | hp
        · exact ⟨n, List.mem_cons_self, mem_children_of_panels? hown hp hm⟩
        · exact hbelow hp

/-- The panels of divided admonitions hold the content of all of them in order. -/
theorem gather_eq (hheading : ∀ n ∈ members, hasHeading f n = true)
    (h : gather f members = .ok (labels, panels)) :
    panels.flatten = members.flatMap (contentOf f) ∧ labels.length = panels.length ∧
      labels.length = (members.flatMap fun n => (f.children n).filter (isHeading f)).length := by
  induction members generalizing labels panels with
  | nil =>
      cases h
      simp
  | cons n members ih =>
      obtain ⟨own, ⟨ls, ps⟩, hown, hrest, hall⟩ := gather_cons h
      obtain ⟨hflat, hlength, hcount⟩ := ih (fun m hm => hheading m (List.mem_cons_of_mem n hm))
        hrest
      rcases own with _ | ⟨ls', ps'⟩
      · have hsome := isSome_of_panels? hown
        rw [hheading n List.mem_cons_self] at hsome
        cases hsome
      · cases hall
        obtain ⟨hflat', hlength'⟩ := panels?_eq_some hown
        have hcount' := length_labels_of_panels? hown
        refine ⟨?_, ?_, ?_⟩
        · rw [List.flatten_append, hflat', hflat, List.flatMap_cons]
        · rw [List.length_append, List.length_append, hlength, hlength']
        · rw [List.length_append, List.flatMap_cons, List.length_append, hcount, hcount']

end Interleaved

end MarkdownTree.Tabs
