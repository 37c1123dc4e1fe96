import MarkdownTree.Proofs.PassRuns
import MarkdownTree.Proofs.Tasks
import MarkdownTree.Proofs.TabsGrowth

/-!
The decisions of the visitor that turns tabs into markup. What it reads of a node lies in the tree
of the node and of the siblings that it merges, so its decision is the one for the forest as it was,
as long as these trees are as they were.
-/

namespace MarkdownTree.Tabs

open Forest

variable {f g : Forest} {category : Value} {grouped : Bool} {n : NodeId}
  {members others : List NodeId} {labels : List String} {panels : List (List NodeId)}

section
variable (hf : f.WellFormed) (hg : g.WellFormed)

theorem isTabs_eq (hsame : f.SameTree g n) : isTabs g category n = isTabs f category n := by
  rw [isTabs, isTabs, hsame.kind_eq, hsame.element_eq]

include hf

theorem isHeading_eq (hsame : f.SameTree g n) {c : NodeId} (hc : c ∈ f.children n) :
    isHeading g c = isHeading f c := by
  rw [isHeading, isHeading, (hsame.child hf hc).kind_eq]

theorem hasHeading_eq (hsame : f.SameTree g n) : hasHeading g n = hasHeading f n := by
  rw [hasHeading, hasHeading, hsame.children_eq, Bool.eq_iff_iff, List.any_eq_true,
    List.any_eq_true]
  refine exists_congr fun c => and_congr_right fun hc => ?_
  rw [isHeading_eq hf hsame hc]

theorem divided_eq (hsame : f.SameTree g n) : divided g category n = divided f category n := by
  rw [divided, divided, isTabs_eq hsame, hasHeading_eq hf hsame]

include hg

theorem Split.addAll_congr {children : List NodeId} (hsame : ∀ c ∈ children, f.SameTree g c)
    (s : Split) : s.addAll g children = s.addAll f children := by
  induction children generalizing s with
  | nil => rfl
  | cons c children ih =>
      have hc := hsame c List.mem_cons_self
      have hadd : s.add g c = s.add f c := by
        rw [Split.add, Split.add, label, label, isHeading, isHeading, hc.kind_eq,
          hc.plainText_eq hf hg]
      rw [Split.addAll, Split.addAll, hadd]
      congr 1
      funext t
      exact ih (fun d hd => hsame d (List.mem_cons_of_mem c hd)) t

theorem panels?_eq (hsame : f.SameTree g n) : panels? g n = panels? f n := by
  rw [panels?, panels?, hsame.children_eq,
    Split.addAll_congr hf hg fun c hc => hsame.child hf hc]

theorem gather_congr (hsame : ∀ k ∈ members, f.SameTree g k) :
    Interleaved.gather g members = Interleaved.gather f members := by
  induction members with
  | nil => rfl
  | cons n members ih =>
      rw [Interleaved.gather, Interleaved.gather, panels?_eq hf hg (hsame n List.mem_cons_self),
        ih fun k hk => hsame k (List.mem_cons_of_mem n hk)]

end

theorem addAll_of_no_heading {children : List NodeId} (h : children.any (isHeading f) = false)
    (s : Split) : s.addAll f children = .ok { s with current := s.current ++ children } := by
  induction children generalizing s with
  | nil => simp [Split.addAll]
  | cons c children ih =>
      simp only [List.any_cons, Bool.or_eq_false_iff] at h
      have hadd : s.add f c = .ok { s with current := s.current ++ [c] } := by
        simp [Split.add, h.1]
      rw [Split.addAll, hadd]
      simp [bind, Except.bind, ih h.2]

theorem panels?_of_no_heading (h : hasHeading f n = false) : panels? f n = .ok none := by
  rw [panels?, addAll_of_no_heading h]
  rfl

/-- A divided admonition has panels, unless one of its labels is no text. -/
theorem panels?_of_divided (h : divided f category n = true)
    {own : Option (List String × List (List NodeId))} (hown : panels? f n = .ok own) :
    ∃ r, own = some r := by
  have hsome := isSome_of_panels? hown
  rw [(Bool.and_eq_true_iff.1 h).2] at hsome
  exact Option.isSome_iff_exists.1 hsome

namespace Interleaved

theorem isDivided_of_undivided (h : divided f category n = false) :
    isDivided f category n = .ok false := by
  unfold isDivided
  by_cases ht : isTabs f category n = true
  · have hno : hasHeading f n = false := by simpa [divided, ht] using h
    simp [ht, panels?_of_no_heading hno, bind, Except.bind]
  · simp [ht]

/-- The siblings that are merged are all divided ones at the front, if their labels are texts; or
else the first label that is none is the fault. -/
theorem following_eq (hdivided : ∀ k ∈ members, divided f category k = true)
    (hothers : ∀ k ∈ others.head?, divided f category k = false) :
    following f category (members ++ others) = (gather f members).map fun _ => members := by
  induction members with
  | nil =>
      rcases others with _ | ⟨k, others⟩
      · rfl
      · rw [List.nil_append, following, isDivided_of_undivided (hothers k rfl)]
        rfl
  | cons n members ih =>
      have hn := hdivided n List.mem_cons_self
      have hrest := ih fun k hk => hdivided k (List.mem_cons_of_mem n hk)
      rw [List.cons_append, following, isDivided, if_pos (Bool.and_eq_true_iff.1 hn).1, gather]
      rcases hown : panels? f n with e | own
      · rfl
      · obtain ⟨⟨ls, ps⟩, rfl⟩ := panels?_of_divided hn hown
        simp only [bind, Except.bind, Option.isSome_some, if_true, hrest]
        rcases gather f members with e | ⟨ls', ps'⟩ <;> rfl

variable {s : State}

theorem visit_absorbed (h : n ∈ s.absorbed) :
    visit category grouped n f s = (.ok (.action .delete), f, s) := by
  simp [visit, h]

/-- What a pass remembers about a node that it keeps: tabs without headings are reported. -/
def noteKept (f : Forest) (category : Value) (s : State) (n : NodeId) : State :=
  if isTabs f category n then { s with messages := s.messages ++ [unchangedMessage f n] } else s

/-- What a pass says about the nodes that it keeps. -/
def unchangedMessages (f : Forest) (category : Value) (nodes : List NodeId) : List Log.Message :=
  (nodes.filter (isTabs f category)).map (unchangedMessage f)

theorem noteKept_eq (f : Forest) (category : Value) (s : State) (n : NodeId) :
    noteKept f category s n =
      { s with messages := s.messages ++ unchangedMessages f category [n] } := by
  unfold noteKept unchangedMessages
  by_cases ht : isTabs f category n = true <;> simp [ht]

@[simp] theorem absorbed_noteKept (f : Forest) (category : Value) (s : State) (n : NodeId) :
    (noteKept f category s n).absorbed = s.absorbed := by
  rw [noteKept_eq]

theorem visit_kept (habsorbed : n ∉ s.absorbed) (h : divided f category n = false) :
    visit category grouped n f s = (.ok (.action .keep), f, noteKept f category s n) := by
  unfold visit noteKept
  by_cases ht : isTabs f category n = true
  · have hno : hasHeading f n = false := by simpa [divided, ht] using h
    simp [habsorbed, ht, panels?_of_no_heading hno]
  · simp [habsorbed, ht]

/-- What a pass remembers about a run of admonitions, of which the first one is met. -/
def noteDivided (s : State) (members : List NodeId) : State where
  absorbed := members ++ s.absorbed
  admonitions := s.admonitions + (members.length + 1)
  containers := s.containers + 1
  messages := s.messages

/-- The members of a run are the ones that the visitor merges. -/
theorem run_eq (hdivided : ∀ k ∈ members, divided f category k = true)
    (halone : grouped = false → members = [])
    (hothers : grouped = true → ∀ k ∈ others.head?, divided f category k = false)
    (hlater : f.laterSiblings n = .ok (members ++ others)) :
    run f category grouped n = (gather f members).map fun _ => n :: members := by
  cases grouped with
  | false =>
      rw [halone rfl]
      rfl
  | true =>
      rw [run, if_pos rfl, hlater]
      simp only [bind, Except.bind, following_eq hdivided (hothers rfl)]
      rcases gather f members with e | r <;> rfl

section
variable (habsorbed : n ∉ s.absorbed) (hn : divided f category n = true)
  (hrun : run f category grouped n = (gather f members).map fun _ => n :: members)

include habsorbed hn hrun

theorem visit_fault {e : TreeFault} (he : gather f (n :: members) = .error e) :
    visit category grouped n f s = (.error e, f, s) := by
  unfold visit
  rw [if_neg (by simpa using habsorbed), if_neg (by simp [(Bool.and_eq_true_iff.1 hn).1])]
  rcases hown : panels? f n with e' | own
  · simp only [gather, hown, bind, Except.bind, Except.error.injEq] at he
    rw [he]
  · obtain ⟨r, rfl⟩ := panels?_of_divided hn hown
    simp only [gather, hown, bind, Except.bind] at he
    rcases hrest : gather f members with e' | r'
    · simp only [hrest, Except.error.injEq] at he
      simp [hrun, hrest, he, bind, Except.bind, Except.map]
    · simp [hrest] at he

/-- A divided admonition gives way to the markup of its run, and the other members are absorbed. -/
theorem visit_divided (hgather : gather f (n :: members) = .ok (labels, panels)) :
    visit category grouped n f s =
      (.ok (.action (.splice ((realize f (layout labels panels)).1.1.map .node)
        (.these ((realize f (layout labels panels)).1.2.map .node)))),
        (realize f (layout labels panels)).2, noteDivided s members) := by
  obtain ⟨own, rest, hown, hrest, -⟩ := gather_cons hgather
  obtain ⟨r, rfl⟩ := panels?_of_divided hn hown
  unfold visit
  rw [if_neg (by simpa using habsorbed), if_neg (by simp [(Bool.and_eq_true_iff.1 hn).1]), hown]
  simp only [hrun, hrest, bind, Except.bind, Except.map, hgather, List.drop_succ_cons,
    List.drop_zero, List.length_cons, noteDivided]

end

end Interleaved

def Part.content? : Part → Option NodeId
  | .content n => some n
  | .marker _ => none

/-- The content of a set of tabs is the content of its panels. -/
theorem filterMap_layout (labels : List String) (panels : List (List NodeId)) :
    (layout labels panels).filterMap Part.content? = panels.flatten := by
  have hbuttons (labels : List String) (i : Nat) :
      (buttons i labels).filterMap Part.content? = [] := by
    induction labels generalizing i with
    | nil => rfl
    | cons l labels ih => exact ih (i + 1)
  have hpanels (panels : List (List NodeId)) (i : Nat) :
      (panelParts i panels).filterMap Part.content? = panels.flatten := by
    induction panels generalizing i with
    | nil => rfl
    | cons p panels ih =>
        rw [panelParts, List.filterMap_append, List.filterMap_cons_none rfl,
          List.filterMap_cons_none rfl, ih, List.flatten_cons]
        congr 1
        simp [List.filterMap_map, Function.comp_def, Part.content?]
  simp [layout, List.filterMap_cons, hbuttons, hpanels, Part.content?]

/-- A node that stands for a part of a set of tabs: content is itself, markup is a new root. -/
def StandsFor (f g : Forest) (made : List NodeId) : Part → NodeId → Prop
  | .content n, k => k = n
  | .marker m, k => k ∈ made ∧ f.size ≤ k ∧ k < g.size ∧ g.element k = Element.html m.text ∧
      g.metadata k = [] ∧ g.children k = []

/-- What is known of the nodes for the parts of a set of tabs. -/
structure Realized (f g : Forest) (parts : List Part) (nodes made : List NodeId) : Prop where
  extension : f.Extends g
  standsFor : List.Forall₂ (StandsFor f g made) parts nodes
  le_of_mem_made : ∀ k ∈ made, f.size ≤ k
  content_or_new : ∀ k ∈ nodes, .content k ∈ parts ∨ f.size ≤ k
  nodup : (∀ n, .content n ∈ parts → n < f.size) → (parts.filterMap Part.content?).Nodup →
    nodes.Nodup

namespace Realized

variable {parts : List Part} {nodes made : List NodeId}

/-- Content in front of parts is not made. -/
theorem content (h : Realized f g parts nodes made) (n : NodeId) :
    Realized f g (.content n :: parts) (n :: nodes) made where
  extension := h.extension
  standsFor := .cons rfl h.standsFor
  le_of_mem_made := h.le_of_mem_made
  content_or_new k hk := by
    rcases List.mem_cons.1 hk with rfl | hk
    · exact Or.inl List.mem_cons_self
    · exact (h.content_or_new k hk).imp (List.mem_cons_of_mem _) id
  nodup hlt hnodup := by
    have hrest : (n :: parts.filterMap Part.content?).Nodup := hnodup
    rw [List.nodup_cons] at hrest
    refine List.nodup_cons.2 ⟨fun hn => ?_, ?_⟩
    · rcases h.content_or_new n hn with hn | hn
      · exact hrest.1 (List.mem_filterMap.2 ⟨.content n, hn, rfl⟩)
      · exact absurd (hlt n List.mem_cons_self) (Nat.not_lt.2 hn)
    · exact h.nodup (fun m hm => hlt m (List.mem_cons_of_mem _ hm)) hrest.2

/-- Markup in front of parts is a new root, made before those for the parts. -/
theorem marker {f' : Forest} {m : Marker} (hadd : f.Extends f') (hnew : f.size < f'.size)
    (helement : f'.element f.size = Element.html m.text) (hmetadata : f'.metadata f.size = [])
    (h : Realized f' g parts nodes made) :
    Realized f g (.marker m :: parts) (f.size :: nodes) (f.size :: made) where
  extension := hadd.trans h.extension
  standsFor := by
    have hchildren : g.children f.size = [] := by
      rw [h.extension.children_eq, hadd.children_eq]
      refine List.eq_nil_iff_forall_not_mem.2 fun c hc => ?_
      exact absurd (lt_size_of_mem_children hc) (Nat.lt_irrefl _)
    refine .cons ⟨List.mem_cons_self, Nat.le_refl _, Nat.lt_of_lt_of_le hnew h.extension.size_le,
      ?_, ?_, hchildren⟩ (h.standsFor.imp fun part k hk => ?_)
    · rw [h.extension.element_eq _ hnew, helement]
    · rw [h.extension.metadata_eq _ hnew, hmetadata]
    · cases part with
      | content n => exact hk
      | marker m =>
          obtain ⟨hmade, hle, hrest⟩ := hk
          exact ⟨List.mem_cons_of_mem _ hmade, Nat.le_trans hadd.size_le hle, hrest⟩
  le_of_mem_made k hk := by
    rcases List.mem_cons.1 hk with rfl | hk
    · exact Nat.le_refl _
    · exact Nat.le_trans hadd.size_le (h.le_of_mem_made k hk)
  content_or_new k hk := by
    rcases List.mem_cons.1 hk with rfl | hk
    · exact Or.inr (Nat.le_refl _)
    · exact (h.content_or_new k hk).imp (List.mem_cons_of_mem _) (Nat.le_trans hadd.size_le)
  nodup hlt hnodup := by
    have hold : ∀ n, .content n ∈ parts → n < f.size := fun n hn =>
      hlt n (List.mem_cons_of_mem _ hn)
    refine List.nodup_cons.2 ⟨fun hn => ?_, h.nodup (fun n hn => ?_) hnodup⟩
    · rcases h.content_or_new _ hn with hn | hn
      · exact absurd (hold _ hn) (Nat.lt_irrefl _)
      · exact absurd hnew (Nat.not_lt.2 hn)
    · exact Nat.lt_of_lt_of_le (hold n hn) hadd.size_le

end Realized

theorem realized (hf : f.WellFormed) (parts : List Part) :
    Realized f (realize f parts).2 parts (realize f parts).1.1 (realize f parts).1.2 := by
  induction parts generalizing f with
  | nil => exact ⟨.refl hf, .nil, nofun, nofun, fun _ _ => List.nodup_nil⟩
  | cons part parts ih =>
      cases part with
      | content n => exact (ih hf).content n
      | marker m =>
          have hadd : f.Extends (f.addNode (Element.html m.text) []).2 :=
            extends_addNode hf _ (by simp [Value.nodesEntries])
          have hsize := size_addNode f (Element.html m.text) []
          have hnew : f.size < (f.addNode (Element.html m.text) []).2.size := by omega
          exact (ih hadd.wellFormed).marker hadd hnew (element_addNode f _ _)
            (metadata_addNode f _ _)

end MarkdownTree.Tabs
