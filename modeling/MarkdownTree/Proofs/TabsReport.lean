import Mathlib.Data.List.Forall2
import MarkdownTree.Proofs.TabsVisitor

/-!
What a pass over tabs has counted and said when some tasks are done. Each visit accounts for the
whole tree of a node, whether its admonitions are met where they were or in the panel that they were
moved to, and a merged admonition is counted with the first of its run and dropped later; so nothing
is counted twice or left out.
-/

namespace MarkdownTree.Tabs

open Forest Interleaved

variable {f g : Forest} {category : Value} {c m n : NodeId} {list members : List NodeId}
  {tasks : List Task} {pieces below more : List Piece} {labels : List String}
  {panels : List (List NodeId)} {s t u : Interleaved.State} {α β : Type}

/-- In a heading, and in what stands in a line, nothing but what stands in a line may be. -/
theorem isInline_of_canContain {parent kind : Kind}
    (hp : parent.isA .heading = true ∨ parent.isInline = true)
    (hk : parent.canContain kind = true) : kind.isInline = true := by
  revert hk
  revert hp
  cases parent <;> first
    | exact fun _ hk => hk
    | exact fun hp _ => absurd hp (by decide)
    | exact fun _ hk => absurd (Kind.isContainer_of_canContain hk) (by decide)

/-- Below a heading there is nothing but what stands in a line. -/
theorem isInline_below_heading (hf : f.WellFormed) {h : NodeId} (hh : isHeading f h = true)
    (hm : f.Ancestor h m) : (f.kind m).isInline = true := by
  induction hm with
  | parent hp =>
      have hcan := hf.canContain_of_mem _ _ (hf.mem_of_parent? hp)
      exact isInline_of_canContain (Or.inl hh) hcan
  | above hp _ ih =>
      have hcan := hf.canContain_of_mem _ _ (hf.mem_of_parent? hp)
      exact isInline_of_canContain (Or.inr ih) hcan

/-- In the tree of a heading there is no admonition. -/
theorem not_isTabs_of_heading (hf : f.WellFormed) {h : NodeId} (hh : isHeading f h = true)
    (hm : f.AtOrAbove h m) : isTabs f category m = false := by
  rw [← Bool.not_eq_true]
  intro htabs
  have hkind := kind_of_isTabs htabs
  rcases hm with rfl | hm
  · rw [isHeading, hkind] at hh
    exact absurd hh (by decide)
  · have hinline := isInline_below_heading hf hh hm
    rw [hkind] at hinline
    exact absurd hinline (by decide)

theorem flatMap_filter_eq {F : α → List β} {keep : α → Bool} {list : List α}
    (h : ∀ a ∈ list, keep a = false → F a = []) :
    (list.filter keep).flatMap F = list.flatMap F := by
  induction list with
  | nil => rfl
  | cons a list ih =>
      obtain ⟨ha, hrest⟩ := List.forall_mem_cons.1 h
      cases hkeep : keep a with
      | true => rw [List.filter_cons_of_pos hkeep, List.flatMap_cons, List.flatMap_cons, ih hrest]
      | false =>
          rw [List.filter_cons_of_neg (by simp [hkeep]), List.flatMap_cons, ha hkeep, ih hrest]
          rfl

/-- Whether a node is an admonition of the category that no heading divides. -/
def plain (f : Forest) (category : Value) (n : NodeId) : Bool :=
  isTabs f category n && !hasHeading f n

theorem plain_of_divided (h : divided f category n = true) : plain f category n = false := by
  rw [plain, (Bool.and_eq_true_iff.1 h).2]
  exact Bool.and_false _

/-- The admonitions in the tree of an admonition are itself and those in its content. -/
theorem filter_preorder_eq (hf : f.WellFormed) {keep : NodeId → Bool}
    (hkeep : ∀ m, keep m = true → isTabs f category m = true) (n : NodeId) :
    (f.preorder n).filter keep =
      [n].filter keep ++ ((contentOf f n).flatMap f.preorder).filter keep := by
  have hchildren : ((f.children n).flatMap f.preorder).filter keep =
      ((contentOf f n).flatMap f.preorder).filter keep := by
    rw [List.filter_flatMap, List.filter_flatMap, contentOf, flatMap_filter_eq]
    intro h _ hheading
    apply List.filter_eq_nil_iff.2
    intro m hm htrue
    have hno : isTabs f category m = false :=
      not_isTabs_of_heading hf (by simpa using hheading) (hf.mem_preorder_iff.1 hm)
    rw [hkeep m htrue] at hno
    cases hno
  rw [hf.preorder_eq, ← hchildren, ← List.filter_append]
  rfl

section
variable (hf : f.WellFormed) (hdivided : ∀ k ∈ members, divided f category k = true)

include hf hdivided

/-- The admonitions that are not divided stand in the content of those that are. -/
theorem filter_plain_members :
    (members.flatMap f.preorder).filter (plain f category) =
      ((members.flatMap (contentOf f)).flatMap f.preorder).filter (plain f category) := by
  induction members with
  | nil => rfl
  | cons n members ih =>
      obtain ⟨hn, hrest⟩ := List.forall_mem_cons.1 hdivided
      have hown := filter_preorder_eq hf
        (fun m (hm : plain f category m = true) => (Bool.and_eq_true_iff.1 hm).1) n
      rw [List.filter_cons_of_neg (by simp [plain_of_divided hn])] at hown
      rw [List.flatMap_cons, List.filter_append, hown, ih hrest, List.flatMap_cons,
        List.flatMap_append, List.filter_append]
      rfl

/-- Divided admonitions count for themselves and for their content. -/
theorem countP_divided_members :
    (members.flatMap f.preorder).countP (divided f category) = members.length +
      ((members.flatMap (contentOf f)).flatMap f.preorder).countP (divided f category) := by
  induction members with
  | nil => rfl
  | cons n members ih =>
      obtain ⟨hn, hrest⟩ := List.forall_mem_cons.1 hdivided
      have hown := congrArg List.length (filter_preorder_eq hf
        (fun m (hm : divided f category m = true) => (Bool.and_eq_true_iff.1 hm).1) n)
      rw [List.filter_cons_of_pos hn, List.length_append, ← List.countP_eq_length_filter,
        ← List.countP_eq_length_filter] at hown
      simp only [List.flatMap_cons, List.flatMap_append, List.countP_append, List.length_cons,
        List.filter_nil, List.length_nil] at hown ⊢
      rw [ih hrest]
      omega

end

mutual

def Piece.markers : Piece → List Marker
  | .marker m => [m]
  | .node _ below => markersOf below

def markersOf : List Piece → List Marker
  | [] => []
  | piece :: rest => piece.markers ++ markersOf rest

end

@[simp] theorem markersOf_nil : markersOf [] = [] := rfl

@[simp] theorem markersOf_marker (m : Marker) (rest : List Piece) :
    markersOf (.marker m :: rest) = m :: markersOf rest := rfl

@[simp] theorem markersOf_node (n : NodeId) (below rest : List Piece) :
    markersOf (.node n below :: rest) = markersOf below ++ markersOf rest := rfl

def Task.markers : Task → List Marker
  | .skip m => [m]
  | .drop _ | .visit _ => []

def Task.nodes (f : Forest) : Task → List NodeId
  | .skip _ | .drop _ => []
  | .visit n => f.preorder n

theorem markers_visits (list : List NodeId) : (list.map Task.visit).flatMap Task.markers = [] := by
  simp [List.flatMap_map, Task.markers]

theorem nodes_visits (list : List NodeId) :
    (list.map Task.visit).flatMap (Task.nodes f) = list.flatMap f.preorder := by
  rw [List.flatMap_map]
  rfl

theorem markers_drops (list : List NodeId) : (list.map Task.drop).flatMap Task.markers = [] := by
  simp [List.flatMap_map, Task.markers]

theorem nodes_drops (list : List NodeId) : (list.map Task.drop).flatMap (Task.nodes f) = [] := by
  simp [List.flatMap_map, Task.nodes]

/-- A set of tabs opens one container. -/
theorem count_markers_layout (labels : List String) (panels : List (List NodeId)) :
    (((layout labels panels).map Part.task).flatMap Task.markers).count .containerOpen = 1 := by
  have hbuttons (labels : List String) (i : Nat) :
      (((buttons i labels).map Part.task).flatMap Task.markers).count .containerOpen = 0 := by
    induction labels generalizing i with
    | nil => rfl
    | cons l labels ih =>
        rw [buttons, List.map_cons, List.flatMap_cons, List.count_append, ih]
        rfl
  have hpanels (panels : List (List NodeId)) (i : Nat) :
      (((panelParts i panels).map Part.task).flatMap Task.markers).count .containerOpen = 0 := by
    induction panels generalizing i with
    | nil => rfl
    | cons p panels ih =>
        have hcontent : (p.map Part.content).map Part.task = p.map .visit := by
          simp [Part.task, Function.comp_def]
        simp only [panelParts, List.map_append, List.map_cons, List.flatMap_append,
          List.flatMap_cons, List.count_append, hcontent, markers_visits, ih]
        rfl
  simp only [layout, List.map_append, List.flatMap_append, List.count_append, hbuttons, hpanels]
  rfl

/-- The content of a set of tabs is accounted for panel after panel. -/
theorem nodes_layout (labels : List String) (panels : List (List NodeId)) :
    ((layout labels panels).map Part.task).flatMap (Task.nodes f) =
      panels.flatten.flatMap f.preorder := by
  have hparts (parts : List Part) : (parts.map Part.task).flatMap (Task.nodes f) =
      (parts.filterMap Part.content?).flatMap f.preorder := by
    induction parts with
    | nil => rfl
    | cons part parts ih =>
        rw [List.map_cons, List.flatMap_cons, ih]
        cases part <;> rfl
  rw [hparts, filterMap_layout]

/-- What is said about an admonition without headings, where nodes in its title are shown as
given. -/
def warning (f : Forest) (nodeText : NodeId → String) (n : NodeId) : Log.Message :=
  ⟨.warning, "Tabs admonition '" ++
    (((f.element n).get? "title").getD .null).display nodeText ++
    "' contains no heading to use as tab label. Left unchanged."⟩

/-- A message is about an admonition without headings. -/
def Warns (f : Forest) (n : NodeId) (message : Log.Message) : Prop :=
  ∃ nodeText, message = warning f nodeText n

/-- A node that is kept is reported if it is an admonition of the category. -/
theorem warns_unchanged (hn : divided f category n = false)
    (htabs : isTabs g category n = isTabs f category n) (helement : g.element n = f.element n) :
    List.Forall₂ (Warns f) ([n].filter (plain f category)) (unchangedMessages g category [n]) := by
  by_cases ht : isTabs f category n = true
  · have hno : hasHeading f n = false := by simpa [divided, ht] using hn
    have hwarn : Warns f n (unchangedMessage g n) := by
      refine ⟨g.shortText, ?_⟩
      rw [unchangedMessage, helement]
      rfl
    rw [unchangedMessages, List.filter_cons_of_pos (by simp [plain, ht, hno]),
      List.filter_cons_of_pos (by rw [htabs, ht])]
    exact .cons hwarn .nil
  · rw [unchangedMessages, List.filter_cons_of_neg (by simp [plain, ht]),
      List.filter_cons_of_neg (by rwa [htabs])]
    exact .nil

/-- While tasks came to pieces, all divided admonitions in their trees were counted, and all
containers that were opened since but for those of the markup that was to be skipped; and the other
admonitions of the category were reported in order. -/
structure Told (f : Forest) (category : Value) (tasks : List Task) (pieces : List Piece)
    (s t : Interleaved.State) : Prop where
  admonitions_eq : t.admonitions =
    s.admonitions + (tasks.flatMap (Task.nodes f)).countP (divided f category)
  containers_eq : t.containers + (tasks.flatMap Task.markers).count .containerOpen =
    s.containers + (markersOf pieces).count .containerOpen
  messages_eq : ∃ warnings, t.messages = s.messages ++ warnings ∧
    List.Forall₂ (Warns f) ((tasks.flatMap (Task.nodes f)).filter (plain f category)) warnings

namespace Told

theorem nil (s : Interleaved.State) : Told f category [] [] s s where
  admonitions_eq := rfl
  containers_eq := rfl
  messages_eq := ⟨[], (List.append_nil _).symm, .nil⟩

theorem skip (m : Marker) (h : Told f category tasks pieces s t) :
    Told f category (.skip m :: tasks) (.marker m :: pieces) s t where
  admonitions_eq := h.admonitions_eq
  containers_eq := by
    have hrest := h.containers_eq
    simp only [List.flatMap_cons, Task.markers, List.singleton_append, markersOf_marker,
      List.count_cons]
    omega
  messages_eq := h.messages_eq

theorem drop (n : NodeId) (h : Told f category tasks pieces s t) :
    Told f category (.drop n :: tasks) pieces s t where
  admonitions_eq := h.admonitions_eq
  containers_eq := h.containers_eq
  messages_eq := h.messages_eq

/-- A node that stays is reported before what is below it. -/
theorem keep (hf : f.WellFormed) (hn : divided f category n = false)
    (htabs : isTabs g category n = isTabs f category n) (helement : g.element n = f.element n)
    (hbelow : Told f category ((f.children n).map .visit) below (noteKept g category s n) t)
    (h : Told f category tasks pieces t u) :
    Told f category (.visit n :: tasks) (.node n below :: pieces) s u := by
  obtain ⟨hadmonitions, hcontainers, warnings, hmessages, hwarns⟩ := hbelow
  obtain ⟨hadmonitions', hcontainers', warnings', hmessages', hwarns'⟩ := h
  rw [nodes_visits] at hadmonitions hwarns
  rw [markers_visits, List.count_nil, Nat.add_zero] at hcontainers
  simp only [noteKept_eq] at hadmonitions hcontainers hmessages
  have hnodes : (Task.visit n :: tasks).flatMap (Task.nodes f) =
      n :: (f.children n).flatMap f.preorder ++ tasks.flatMap (Task.nodes f) := by
    rw [List.flatMap_cons, Task.nodes, hf.preorder_eq]
  refine ⟨?_, ?_, unchangedMessages g category [n] ++ (warnings ++ warnings'), ?_, ?_⟩
  · rw [hnodes, List.cons_append, List.countP_cons_of_neg (by simp [hn]), List.countP_append]
    omega
  · rw [markersOf_node, List.count_append, List.flatMap_cons, Task.markers, List.nil_append]
    omega
  · rw [hmessages', hmessages]
    simp only [List.append_assoc]
  · rw [hnodes, ← List.singleton_append, List.filter_append, List.filter_append, List.append_assoc]
    exact List.rel_append (warns_unchanged hn htabs helement) (List.rel_append hwarns hwarns')

/-- A run of divided admonitions is counted at once, and the admonitions in its panels are accounted
for where they are met. -/
theorem divide (hf : f.WellFormed) (hdivided : ∀ k ∈ n :: members, divided f category k = true)
    (hflat : panels.flatten = (n :: members).flatMap (contentOf f))
    (h : Told f category ((layout labels panels).map Part.task ++ (members.map .drop ++ tasks))
      pieces (noteDivided s members) t) :
    Told f category (.visit n :: (members.map .visit ++ tasks)) pieces s t := by
  have hvisits : Task.visit n :: (members.map .visit ++ tasks) =
      (n :: members).map .visit ++ tasks := rfl
  obtain ⟨hadmonitions, hcontainers, warnings, hmessages, hwarns⟩ := h
  simp only [List.flatMap_append, nodes_layout, nodes_drops, markers_drops, List.nil_append, hflat,
    List.countP_append, List.count_append, count_markers_layout, List.filter_append]
    at hadmonitions hcontainers hwarns
  have hcounted : (noteDivided s members).admonitions = s.admonitions + (members.length + 1) := rfl
  have hopened : (noteDivided s members).containers = s.containers + 1 := rfl
  rw [hvisits]
  refine ⟨?_, ?_, warnings, hmessages, ?_⟩
  · rw [hadmonitions, List.flatMap_append, nodes_visits, List.countP_append,
      countP_divided_members hf hdivided, List.length_cons]
    omega
  · rw [List.flatMap_append, markers_visits, List.nil_append]
    omega
  · rw [List.flatMap_append, nodes_visits, List.filter_append, filter_plain_members hf hdivided]
    exact hwarns

end Told

end MarkdownTree.Tabs
