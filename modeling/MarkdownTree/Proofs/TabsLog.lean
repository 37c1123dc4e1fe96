import MarkdownTree.Log.Recorder
import MarkdownTree.Proofs.SettledTabs

/-!
The log of a pass over tabs. It says of each admonition without a heading that it was left, in the
order of the tree as it was, and at the end how many admonitions were transformed into how many
containers; the containers are counted in the tree as it is then.
-/

namespace MarkdownTree.Tabs

open Forest Revision Asking Interleaved

variable {f g : Forest} {category : Value} {grouped : Bool} {n root : NodeId}
  {nodes : List NodeId} {pieces : List Piece}

def entry (message : Log.Message) : Value :=
  .mapping [(message.severity.name, .str message.text)]

/-- A list takes an entry for each message. -/
theorem keepAll_collected (entries : List Value) (messages : List Log.Message) :
    (Log.Recorder.collected entries).keepAll messages =
      .collected (entries ++ messages.map entry) := by
  induction messages generalizing entries with
  | nil => rw [List.map_nil, List.append_nil]; rfl
  | cons message messages ih =>
      show (Log.Recorder.collected (entries ++ [entry message])).keepAll messages = _
      rw [ih, List.append_assoc]
      rfl

def html? (e : Element) : Option String :=
  if e.kind = .htmlBlock then
    match e.get? "html" with
    | some (.str s) => some s
    | _ => none
  else
    none

@[simp] theorem html?_html (s : String) : html? (Element.html s) = some s := rfl

theorem lt_length_append {k : Nat} {s : String} (h : k < s.length) (t : String) :
    k < (s ++ t).length := by
  rw [String.length_append]
  omega

/-- No other markup is as long as the one that opens a container. -/
theorem length_text_ne {m : Marker} (hm : m ≠ .containerOpen) :
    m.text.length ≠ Marker.containerOpen.text.length := by
  have hopen : Marker.containerOpen.text.length = 22 := by decide
  rw [hopen]
  cases m with
  | containerOpen => exact absurd rfl hm
  | labelsOpen => decide
  | close => decide
  | button index label =>
      have htext : (Marker.button index label).text =
        "<button class=\"doc-tabs__label\" data-tab=\"" ++ toString index ++ "\">" ++ label ++
          "</button>" := rfl
      rw [htext]
      apply Nat.ne_of_gt
      apply lt_length_append (lt_length_append (lt_length_append (lt_length_append _ _) _) _)
      decide
  | panelOpen index =>
      have htext : (Marker.panelOpen index).text =
        "<div class=\"doc-tabs__panel\" data-tab=\"" ++ toString index ++ "\">" := rfl
      rw [htext]
      apply Nat.ne_of_gt
      apply lt_length_append (lt_length_append _ _)
      decide

theorem text_eq_containerOpen_iff (m : Marker) :
    m.text = Marker.containerOpen.text ↔ m = .containerOpen := by
  constructor
  · intro h
    by_contra hm
    exact length_text_ne hm (congrArg String.length h)
  · rintro rfl
    rfl

def opened (f g : Forest) (m : NodeId) : Bool :=
  decide (f.size ≤ m) && html? (g.element m) == some Marker.containerOpen.text

/-- Where pieces are shown, the containers among the new nodes are those that the pieces open. -/
theorem countP_opened_of_shown (hg : g.WellFormed) (h : Shown f g pieces nodes) :
    (nodes.flatMap g.preorder).countP (opened f g) = (markersOf pieces).count .containerOpen := by
  induction h with
  | nil => rfl
  | @marker m k pieces nodes hnew helement _ hchildren _ ih =>
      have hopened : opened f g k = (m == .containerOpen) := by
        rw [opened, helement, html?_html, decide_eq_true hnew, Bool.true_and, Bool.eq_iff_iff,
          beq_iff_eq, beq_iff_eq, Option.some.injEq, text_eq_containerOpen_iff]
      rw [List.flatMap_cons, List.countP_append, ih, hg.preorder_eq, hchildren, markersOf_marker,
        List.count_cons, List.flatMap_nil, List.countP_singleton, hopened, Nat.add_comm]
  | @node n below pieces nodes hold _ _ _ _ ihbelow ih =>
      have hopened : opened f g n = false := by
        rw [opened, decide_eq_false (Nat.not_le.2 hold), Bool.false_and]
      rw [List.flatMap_cons, List.countP_append, ih, hg.preorder_eq,
        List.countP_cons_of_neg (by simp [hopened]), ihbelow, markersOf_node, List.count_append]

/-- What is said at the end of a pass that transformed so many admonitions into so many
containers. -/
def summaryMessage (admonitions containers : Nat) : Log.Message :=
  ⟨.info, "Transformed " ++ toString admonitions ++ " tabs admonition(s) into " ++
    toString containers ++ " tab container(s)."⟩

/-- There is something to say at the end just if an admonition was transformed. -/
theorem summary_eq {s : State} {keep : NodeId → Bool} (h : s.admonitions = nodes.countP keep) :
    summary s =
      if nodes.any keep then [summaryMessage (nodes.countP keep) s.containers] else [] := by
  by_cases hany : nodes.any keep = true
  · have hpos : 0 < nodes.countP keep := List.countP_pos_iff.2 (List.any_eq_true.1 hany)
    rw [summary, h, if_neg (Nat.ne_of_gt hpos), if_pos hany]
    rfl
  · have hzero : nodes.countP keep = 0 := by
      simpa [List.countP_eq_zero, List.any_eq_true] using hany
    rw [summary, h, if_pos hzero, if_neg hany]

/-- If the pass over tabs succeeds, a list logger has recorded a warning for each admonition of the
category without a heading, in the order of the tree as it was, and then, just if there was an
admonition with one, how many of those there were, and how many containers are opened by new markup
in the tree as it is. -/
theorem interleave_log (category : Value) (grouped : Bool) (root new : NodeId) (f g : Forest)
    (messages : List Log.Message) (entries : List Value) (hf : f.WellFormed) (hlt : root < f.size)
    (h : interleave category grouped root f = (.ok new, messages, g)) :
    ∃ warnings : List Log.Message,
      List.Forall₂ (Warns f) ((f.preorder root).filter (plain f category)) warnings ∧
        (Log.Recorder.collected entries).keepAll messages =
          .collected (entries ++ (warnings ++
            if (f.preorder root).any (divided f category) then
              [summaryMessage ((f.preorder root).countP (divided f category))
                ((g.preorder new).countP (opened f g))]
            else []).map entry) := by
  obtain ⟨pieces, hroot, hexpand, -, rfl⟩ := expanded_of_interleave hf hlt h
  have hcomes := revise_comes grouped hf hlt hroot
  rw [hexpand] at hcomes
  obtain ⟨g', t, hexpanded, htold, hrevise⟩ := hcomes
  have hresult := interleave_of_revise hrevise
  rw [h] at hresult
  obtain ⟨rfl, rfl⟩ : messages = t.messages ++ summary t ∧ g = g' := by
    simpa using hresult
  obtain ⟨hadmonitions, hcontainers, warnings, hmessages, hwarns⟩ := htold
  have hopened := countP_opened_of_shown hexpanded.wellFormed hexpanded.shown
  have hnodes : [Task.visit new].flatMap (Task.nodes f) = f.preorder new :=
    List.flatMap_singleton ..
  rw [hnodes] at hadmonitions hwarns
  rw [List.flatMap_singleton] at hopened
  -- The counts and the messages begin with nothing.
  have hcounted : t.admonitions = (f.preorder new).countP (divided f category) :=
    hadmonitions.trans (Nat.zero_add _)
  have hcontained : t.containers = (g.preorder new).countP (opened f g) := by
    rw [hopened]
    exact hcontainers.trans (Nat.zero_add _)
  have hsaid : t.messages = warnings := hmessages
  refine ⟨warnings, hwarns, ?_⟩
  rw [keepAll_collected, hsaid, summary_eq hcounted, hcontained]

/-- Two sets of tabs are turned into two containers, and the admonition without a heading is
reported first. -/
theorem interleave_log_tabsWithin : ∃ messages g,
    interleave (.str "tabs") true 6 tabsWithin = (.ok 6, messages, g) ∧
      ∃ warnings, List.Forall₂ (Warns tabsWithin) [4] warnings ∧
        (Log.Recorder.collected []).keepAll messages = .collected ((warnings ++
          [summaryMessage 2 ((g.preorder 6).countP (opened tabsWithin g))]).map entry) := by
  have hf := wellFormed_tabsWithin
  have hlt : 6 < tabsWithin.size := by decide
  obtain ⟨messages, g, h⟩ : ∃ messages g,
      interleave (.str "tabs") true 6 tabsWithin = (.ok 6, messages, g) :=
    interleave_returns true hf hlt (by decide) textual_tabsWithin
  obtain ⟨warnings, hwarns, hlog⟩ :=
    interleave_log (.str "tabs") true 6 6 tabsWithin g messages [] hf hlt h
  have hplain : (tabsWithin.preorder 6).filter (plain tabsWithin (.str "tabs")) = [4] := by decide
  have hcount : (tabsWithin.preorder 6).countP (divided tabsWithin (.str "tabs")) = 2 := by decide
  have hany : (tabsWithin.preorder 6).any (divided tabsWithin (.str "tabs")) = true := by decide
  rw [hplain] at hwarns
  rw [hcount, if_pos hany, List.nil_append] at hlog
  exact ⟨messages, g, h, warnings, hwarns, hlog⟩

end MarkdownTree.Tabs
