import MarkdownTree.Proofs.ExpandedLists
import MarkdownTree.Proofs.MarkupSkeletons
import MarkdownTree.Proofs.SameShapes

/-!
Tabs of trees of one shape that say different things. The same admonitions are divided, into as many
panels with counterparts in them, and the labels have the same delimiters, namely none. So lists of
counterparts expand to pieces that are alike: markup with the same delimiters in the same places.
-/

namespace MarkdownTree

open Forest Tabs Interleaved Markup

variable {f f' : Forest} {n n' root root' : NodeId} {list list' members members' : List NodeId}

namespace Forest.SameShape

variable (h : SameShape f f' root root')

include h

theorem isTabs_eq (category : Value) (hn : Counterpart f f' root root' n n') :
    isTabs f' category n' = isTabs f category n := by
  have hcategory : (f'.element n').get? "category" = (f.element n).get? "category" := by
    refine ((h.element n n' hn).field "category").resolve_right ?_
    rintro ⟨hname, -⟩
    generalize (f.element n).kind = kind at hname
    cases kind <;> simp [proseField?] at hname
  rw [isTabs, isTabs, h.kind_eq hn, hcategory]

theorem isHeading_eq (hn : Counterpart f f' root root' n n') : isHeading f' n' = isHeading f n := by
  rw [isHeading, isHeading, h.kind_eq hn]

theorem any_isHeading_eq (hlist : List.Forall₂ (Counterpart f f' root root') list list') :
    list'.any (isHeading f') = list.any (isHeading f) := by
  induction hlist with
  | nil => rfl
  | cons hn _ ih => rw [List.any_cons, List.any_cons, ih, h.isHeading_eq hn]

theorem divided_eq (category : Value) (hn : Counterpart f f' root root' n n') :
    divided f' category n' = divided f category n := by
  rw [divided, divided, hasHeading, hasHeading, h.isTabs_eq category hn,
    h.any_isHeading_eq (h.children hn)]

end Forest.SameShape

namespace Tabs

/-- Two labels have the same delimiters. -/
def LabelsAlike (l l' : String) : Prop :=
  skeleton l = skeleton l'

/-- Labels and panels that differ in what the labels say only: as many labels, with the same
delimiters, and panels of counterparts. -/
structure PanelsAlike (f f' : Forest) (root root' : NodeId)
    (own own' : List String × List (List NodeId)) : Prop where
  labels : List.Forall₂ LabelsAlike own.1 own'.1
  panels : List.Forall₂ (List.Forall₂ (Counterpart f f' root root')) own.2 own'.2

/-- Splits that differ in what the labels say only. -/
structure SplitsAlike (f f' : Forest) (root root' : NodeId) (s s' : Split) : Prop where
  labels : List.Forall₂ LabelsAlike s.labels s'.labels
  panels : List.Forall₂ (List.Forall₂ (Counterpart f f' root root')) s.panels s'.panels
  current : List.Forall₂ (Counterpart f f' root root') s.current s'.current
  started : s'.started = s.started

section
variable (h : SameShape f f' root root') (hf : f.WellFormed) (hf' : f'.WellFormed)

include h hf hf'

/-- Labels say what the document says, but escaped. -/
theorem label_alongside (hn : Counterpart f f' root root' n n') :
    Alongside LabelsAlike (label f n) (label f' n') := by
  refine (h.plainText_alongside hf hf' hn).bind fun v w _ hvw => ?_
  have htext : Alongside (fun _ _ => True) (needText "replace" v) (needText "replace" w) := by
    rcases hvw with rfl | ⟨s, t, rfl, rfl⟩
    · cases needText "replace" w with
      | ok s => exact .ok trivial
      | error e => exact .error e e
    · exact .ok trivial
  refine htext.bind fun s t _ _ => .ok ?_
  rw [LabelsAlike, skeleton_escape, skeleton_escape]

theorem Split.add_alongside {s s' : Split} (hs : SplitsAlike f f' root root' s s')
    (hn : Counterpart f f' root root' n n') :
    Alongside (SplitsAlike f f' root root') (s.add f n) (s'.add f' n') := by
  unfold Split.add
  rw [h.isHeading_eq hn, hs.started]
  by_cases hheading : isHeading f n = true
  · rw [if_pos hheading, if_pos hheading]
    refine (label_alongside h hf hf' hn).bind fun l l' _ hl => ?_
    have hlabels := List.rel_append hs.labels (.cons hl .nil)
    by_cases hstarted : s.started = true
    · rw [if_pos hstarted, if_pos hstarted]
      exact .ok ⟨hlabels, List.rel_append hs.panels (.cons hs.current .nil), .nil, rfl⟩
    · rw [if_neg hstarted, if_neg hstarted]
      exact .ok ⟨hlabels, hs.panels, hs.current, rfl⟩
  · rw [if_neg hheading, if_neg hheading]
    exact .ok ⟨hs.labels, hs.panels, List.rel_append hs.current (.cons hn .nil), rfl⟩

theorem Split.addAll_alongside {s s' : Split} (hs : SplitsAlike f f' root root' s s')
    (hlist : List.Forall₂ (Counterpart f f' root root') list list') :
    Alongside (SplitsAlike f f' root root') (s.addAll f list) (s'.addAll f' list') := by
  induction hlist generalizing s s' with
  | nil => exact .ok hs
  | cons hn _ ih => exact (Split.add_alongside h hf hf' hs hn).bind fun _ _ _ hadd => ih hadd

theorem panels?_alongside (hn : Counterpart f f' root root' n n') :
    Alongside (Option.Rel (PanelsAlike f f' root root')) (panels? f n) (panels? f' n') := by
  have hstart : SplitsAlike f f' root root' ⟨[], [], [], false⟩ ⟨[], [], [], false⟩ :=
    ⟨.nil, .nil, .nil, rfl⟩
  refine (Split.addAll_alongside h hf hf' hstart (h.children hn)).bind fun s s' _ hs => ?_
  rw [hs.started]
  by_cases hstarted : s.started = true
  · rw [if_pos hstarted, if_pos hstarted]
    exact .ok (.some ⟨hs.labels, List.rel_append hs.panels (.cons hs.current .nil)⟩)
  · rw [if_neg hstarted, if_neg hstarted]
    exact .ok .none

theorem gather_alongside (hmembers : List.Forall₂ (Counterpart f f' root root') members members') :
    Alongside (PanelsAlike f f' root root') (gather f members) (gather f' members') := by
  induction hmembers with
  | nil => exact .ok ⟨.nil, .nil⟩
  | cons hn _ ih =>
      refine (panels?_alongside h hf hf' hn).bind fun own own' _ hown => ?_
      refine ih.bind fun rest rest' _ hrest => ?_
      cases hown with
      | none => exact .ok hrest
      | some hown =>
          exact .ok ⟨List.rel_append hown.labels hrest.labels,
            List.rel_append hown.panels hrest.panels⟩

end

inductive GroupsAlike (f f' : Forest) (root root' : NodeId) : Group → Group → Prop
  | kept {n n' : NodeId} (hn : Counterpart f f' root root' n n') :
      GroupsAlike f f' root root' (.kept n) (.kept n')
  | run {members members' : List NodeId}
      (hmembers : List.Forall₂ (Counterpart f f' root root') members members') :
      GroupsAlike f f' root root' (.run members) (.run members')

/-- Pieces that differ in what the markup says only: pieces of markup have the same delimiters, and
nodes are counterparts. -/
inductive PiecesAlike (f f' : Forest) (root root' : NodeId) : List Piece → List Piece → Prop
  | nil : PiecesAlike f f' root root' [] []
  | marker {m m' : Marker} {rest rest' : List Piece} (hm : skeleton m.text = skeleton m'.text)
      (hrest : PiecesAlike f f' root root' rest rest') :
      PiecesAlike f f' root root' (.marker m :: rest) (.marker m' :: rest')
  | node {n n' : NodeId} {below below' rest rest' : List Piece}
      (hn : Counterpart f f' root root' n n') (hbelow : PiecesAlike f f' root root' below below')
      (hrest : PiecesAlike f f' root root' rest rest') :
      PiecesAlike f f' root root' (.node n below :: rest) (.node n' below' :: rest')

namespace PiecesAlike

variable {pieces pieces' more more' : List Piece} {labels labels' : List String}
  {contents contents' : List (List Piece)}

theorem append (h : PiecesAlike f f' root root' pieces pieces')
    (hmore : PiecesAlike f f' root root' more more') :
    PiecesAlike f f' root root' (pieces ++ more) (pieces' ++ more') := by
  induction h with
  | nil => exact hmore
  | marker hm _ ih => exact .marker hm ih
  | node hn hbelow _ _ ih => exact .node hn hbelow ih

theorem flatten (h : List.Forall₂ (PiecesAlike f f' root root') contents contents') :
    PiecesAlike f f' root root' contents.flatten contents'.flatten := by
  induction h with
  | nil => exact .nil
  | cons hc _ ih => exact hc.append ih

theorem buttons (h : List.Forall₂ LabelsAlike labels labels') (i : Nat) :
    PiecesAlike f f' root root' ((labels.zipIdx i).map fun (l, j) => .marker (.button j l))
      ((labels'.zipIdx i).map fun (l, j) => .marker (.button j l)) := by
  induction h generalizing i with
  | nil => exact .nil
  | cons hl _ ih => exact .marker (Marker.skeleton_button i hl) (ih (i + 1))

theorem panels (h : List.Forall₂ (PiecesAlike f f' root root') contents contents') (i : Nat) :
    PiecesAlike f f' root root'
      ((contents.zipIdx i).flatMap fun (pieces, j) =>
        .marker (.panelOpen j) :: pieces ++ [.marker .close])
      ((contents'.zipIdx i).flatMap fun (pieces, j) =>
        .marker (.panelOpen j) :: pieces ++ [.marker .close]) := by
  induction h generalizing i with
  | nil => exact .nil
  | cons hc _ ih =>
      rw [List.zipIdx_cons, List.zipIdx_cons, List.flatMap_cons, List.flatMap_cons]
      exact (marker rfl (hc.append (.marker rfl .nil))).append (ih (i + 1))

/-- The markup of a set of tabs is alike if the labels and the contents of the panels are. -/
theorem markup (hlabels : List.Forall₂ LabelsAlike labels labels')
    (hcontents : List.Forall₂ (PiecesAlike f f' root root') contents contents') :
    PiecesAlike f f' root root' (Tabs.markup labels contents) (Tabs.markup labels' contents') := by
  have hclose : PiecesAlike f f' root root' [.marker .close] [.marker .close] := .marker rfl .nil
  have hopen : PiecesAlike f f' root root' [.marker .containerOpen, .marker .labelsOpen]
      [.marker .containerOpen, .marker .labelsOpen] := .marker rfl (.marker rfl .nil)
  exact (((hopen.append (buttons hlabels 1)).append hclose).append (panels hcontents 1)).append
    hclose

end PiecesAlike

theorem joinRun_alike {gs gs' : List Group} (grouped : Bool) (hn : Counterpart f f' root root' n n')
    (hgs : List.Forall₂ (GroupsAlike f f' root root') gs gs') :
    List.Forall₂ (GroupsAlike f f' root root') (joinRun grouped n gs) (joinRun grouped n' gs') := by
  have hsingle : GroupsAlike f f' root root' (.run [n]) (.run [n']) := .run (.cons hn .nil)
  cases hgs with
  | nil => exact .cons hsingle .nil
  | cons hg hgs =>
      cases hg with
      | kept hk => exact .cons hsingle (.cons (.kept hk) hgs)
      | run hmembers =>
          cases grouped with
          | false => exact .cons hsingle (.cons (.run hmembers) hgs)
          | true => exact .cons (.run (.cons hn hmembers)) hgs

theorem groups_alike (h : SameShape f f' root root') (category : Value) (grouped : Bool)
    (hlist : List.Forall₂ (Counterpart f f' root root') list list') :
    List.Forall₂ (GroupsAlike f f' root root') (groups f category grouped list)
      (groups f' category grouped list') := by
  induction hlist with
  | nil => exact .nil
  | cons hn _ ih =>
      rw [groups, groups, h.divided_eq category hn]
      split
      · exact joinRun_alike grouped hn ih
      · exact .cons (.kept hn) ih

/-- Lists of counterparts both expand, to pieces that are alike, or neither does. -/
theorem expand_alongside (h : SameShape f f' root root') (hf : f.WellFormed) (hf' : f'.WellFormed)
    (category : Value) (grouped : Bool)
    (hlist : List.Forall₂ (Counterpart f f' root root') list list') :
    Alongside (PiecesAlike f f' root root') (expand f category grouped list)
      (expand f' category grouped list') := by
  induction list using below_induction hf generalizing list' with
  | nil =>
      cases hlist
      exact .ok .nil
  | step list ih =>
      rw [expand_eq hf, expand_eq hf']
      refine (Alongside.allOk ?_).bind fun parts parts' _ hparts => .ok (.flatten hparts)
      refine List.forall₂_map_left_iff.2 (List.forall₂_map_right_iff.2 ?_)
      refine forall₂_imp_of_mem (groups_alike h category grouped hlist)
        fun group hgroup _ _ hg => ?_
      have hnodes (k : NodeId) (hk : k ∈ group.nodes) : k ∈ list := mem_of_mem_groups hgroup hk
      -- What is expanded for a group is below nodes of the list, which the induction allows.
      cases hg with
      | @kept n n' hn =>
          have hbelow : ∀ c ∈ f.children n, ∃ k ∈ list, c ∈ f.children k :=
            fun c hc => ⟨n, hnodes n (List.mem_singleton_self n), hc⟩
          refine (ih _ hbelow (h.children hn)).bind fun below below' _ hpieces => .ok ?_
          exact .node hn hpieces .nil
      | @run members members' hmembers =>
          refine (gather_alongside h hf hf' hmembers).bind fun own own' hgather hown => ?_
          refine (Alongside.allOk ?_).bind fun contents contents' _ hcontents =>
            .ok (.markup hown.labels hcontents)
          refine List.forall₂_map_left_iff.2 (List.forall₂_map_right_iff.2 ?_)
          refine forall₂_imp_of_mem hown.panels fun panel hpanel _ _ hpanels => ih _ ?_ hpanels
          intro c hc
          obtain ⟨k, hk, hck⟩ := mem_children_of_gather hgather hpanel hc
          exact ⟨k, hnodes k hk, hck⟩

end Tabs

end MarkdownTree
