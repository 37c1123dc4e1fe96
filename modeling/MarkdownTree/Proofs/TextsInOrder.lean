import MarkdownTree.Proofs.ExpandedLists
import MarkdownTree.Proofs.Growth

/-!
The text of a tree in pre-order. The recursion that collects it stops at the elements that hold a
text, and those have no children; so nothing with a text of its own is below them, and what is
collected are the texts of all nodes of their kinds in the tree, one behind the other. Main
statement: the text of a tree is the concatenation of these, and on one line each break is a space
among them.
-/

namespace MarkdownTree.Forest

variable {f : Forest} {own : Element → Option Value} {n : NodeId} {s : String} {v : Value}
  {nodes : List NodeId} {values : List Value}

/-- Only texts are joined. -/
theorem joinTexts_eq_ok_iff {position : Nat} :
    joinTexts position values = .ok s ↔
      ∃ texts, values = texts.map .str ∧ s = String.join texts := by
  induction values generalizing position s with
  | nil =>
      constructor
      · intro h
        cases h
        exact ⟨[], rfl, rfl⟩
      · rintro ⟨texts, htexts, rfl⟩
        rw [List.map_eq_nil_iff.1 htexts.symm]
        rfl
  | cons v values ih =>
      constructor
      · intro h
        cases v with
        | str t =>
            obtain ⟨more, hrest, h⟩ := bind_eq_ok_iff.1 h
            obtain ⟨texts, rfl, rfl⟩ := ih.1 hrest
            exact ⟨t :: texts, rfl, by rw [String.join_cons, Except.ok.inj h]⟩
        | _ => cases h
      · rintro ⟨texts, htexts, rfl⟩
        obtain ⟨t, texts, rfl, rfl, hrest⟩ := List.map_eq_cons_iff.1 htexts.symm
        have hmore : joinTexts (position + 1) values = .ok (String.join texts) :=
          ih.2 ⟨texts, hrest.symm, rfl⟩
        rw [joinTexts, hmore, String.join_cons]
        rfl

/-- Parts are joined if each of them is a text, and only then. -/
theorem joined_eq_ok_iff {parts : List (Except TreeFault Value)} :
    (do
      let values ← allOk parts
      let text ← joinTexts 0 values
      .ok (.str text)) = Except.ok (Value.str s) ↔
      ∃ texts, List.Forall₂ (fun r t => r = .ok (.str t)) parts texts ∧ s = String.join texts := by
  simp only [bind_eq_ok_iff, Tabs.allOk_eq_ok_iff, joinTexts_eq_ok_iff, Except.ok.injEq,
    Value.str.injEq]
  constructor
  · rintro ⟨_, hparts, _, ⟨texts, rfl, rfl⟩, rfl⟩
    rw [List.forall₂_map_right_iff] at hparts
    exact ⟨texts, hparts, rfl⟩
  · rintro ⟨texts, htexts, rfl⟩
    refine ⟨texts.map .str, ?_, String.join texts, ⟨texts, rfl, rfl⟩, rfl⟩
    rw [List.forall₂_map_right_iff]
    exact htexts

/-- The texts of parts, where each part is a concatenation itself. -/
theorem joined_parts_iff {part : NodeId → Except TreeFault Value} {inside : NodeId → List Value}
    (h : ∀ c ∈ nodes, ∀ s, part c = .ok (.str s) ↔
      ∃ texts, inside c = texts.map .str ∧ s = String.join texts) :
    (∃ parts, List.Forall₂ (fun c s => part c = .ok (.str s)) nodes parts ∧ s = String.join parts) ↔
      ∃ texts, nodes.flatMap inside = texts.map .str ∧ s = String.join texts := by
  induction nodes generalizing s with
  | nil =>
      constructor
      · rintro ⟨parts, hparts, rfl⟩
        cases hparts
        exact ⟨[], rfl, rfl⟩
      · rintro ⟨texts, htexts, rfl⟩
        rw [List.map_eq_nil_iff.1 htexts.symm]
        exact ⟨[], .nil, rfl⟩
  | cons c nodes ih =>
      obtain ⟨hc, hrest⟩ := List.forall_mem_cons.1 h
      rw [List.flatMap_cons]
      constructor
      · rintro ⟨parts, hparts, rfl⟩
        obtain ⟨t, rest, ht, hmore, rfl⟩ := List.forall₂_cons_left_iff.1 hparts
        obtain ⟨front, hfront, rfl⟩ := (hc t).1 ht
        obtain ⟨back, hback, hjoin⟩ := (ih hrest).1 ⟨rest, hmore, rfl⟩
        refine ⟨front ++ back, by rw [hfront, hback, List.map_append], ?_⟩
        rw [String.join_cons, hjoin, String.join_append]
      · rintro ⟨texts, htexts, rfl⟩
        obtain ⟨front, back, rfl, hfront, hback⟩ := List.append_eq_map_iff.1 htexts
        obtain ⟨rest, hmore, hjoin⟩ := (ih hrest).2 ⟨back, hback.symm, rfl⟩
        have ht := (hc (String.join front)).2 ⟨front, hfront.symm, rfl⟩
        refine ⟨String.join front :: rest, .cons ht hmore, ?_⟩
        rw [String.join_append, hjoin, String.join_cons]

/-- What the nodes of a tree hold themselves, in pre-order. -/
def ownValues (f : Forest) (own : Element → Option Value) (n : NodeId) : List Value :=
  (f.preorder n).filterMap fun m => own (f.element m)

theorem ownValues_eq (hf : f.WellFormed) (own : Element → Option Value) (n : NodeId) :
    f.ownValues own n = (own (f.element n)).toList ++ (f.children n).flatMap (f.ownValues own) := by
  have hbelow : (f.children n).flatMap (f.ownValues own) =
      ((f.children n).flatMap f.preorder).filterMap fun m => own (f.element m) := by
    rw [List.filterMap_flatMap]
    rfl
  rw [ownValues, hf.preorder_eq, List.filterMap_cons, hbelow]
  cases own (f.element n) <;> rfl

/-- Where elements with a text of their own have no children, the content of a tree is a text if all
that its nodes hold are texts, and only then, and it is their concatenation. -/
theorem content_eq_ok_iff (hf : f.WellFormed)
    (hleaf : ∀ n v, own (f.element n) = some v → f.children n = []) (n : NodeId) (s : String) :
    f.contentWithin own (f.size + 1) n = .ok (.str s) ↔
      ∃ texts, f.ownValues own n = texts.map .str ∧ s = String.join texts := by
  induction n using hf.down_induction generalizing s with
  | h n ih =>
      rw [hf.content_eq, ownValues_eq hf]
      cases hown : own (f.element n) with
      | some v =>
          rw [hleaf n v hown]
          constructor
          · intro h
            cases h
            exact ⟨[s], rfl, by simp⟩
          · rintro ⟨texts, htexts, rfl⟩
            obtain ⟨t, rest, rfl, rfl, hrest⟩ := List.map_eq_cons_iff.1 htexts.symm
            rw [List.map_eq_nil_iff.1 hrest]
            simp
      | none =>
          simp only [joined_eq_ok_iff, List.forall₂_map_left_iff]
          rw [Option.toList_none, List.nil_append]
          exact joined_parts_iff ih

/-- What is written at a node: the text or the code of its element, a space for a break. -/
def written (e : Element) : Value :=
  match e.kind with
  | .code => (e.get? "code").getD .null
  | .softBreak | .lineBreak => .str " "
  | _ => (e.get? "text").getD .null

/-- What is written at the nodes of some kinds of a tree, in pre-order. -/
def writtenAt (f : Forest) (kinds : List Kind) (root : NodeId) : List Value :=
  collect (f.preorder root) (f.isOfKind kinds) fun n => written (f.element n)

theorem filterMap_eq_collect {kinds : List Kind} (nodes : List NodeId)
    (h : ∀ n, own (f.element n) =
      if f.isOfKind kinds n then some (written (f.element n)) else none) :
    nodes.filterMap (fun n => own (f.element n)) =
      collect nodes (f.isOfKind kinds) fun n => written (f.element n) := by
  induction nodes with
  | nil => rfl
  | cons n nodes ih =>
      rw [List.filterMap_cons, h n, ih, collect, collect, List.filter_cons]
      split <;> simp_all

theorem isOfKind_eq_contains {kinds : List Kind} (f : Forest)
    (h : ∀ k ∈ Kind.all, kinds.any k.isA = kinds.contains k) (n : NodeId) :
    f.isOfKind kinds n = kinds.contains (f.kind n) :=
  h (f.kind n) (Kind.mem_all _)

theorem ownText?_eq (f : Forest) (n : NodeId) : ownText? (f.element n) =
    if f.isOfKind [.text, .code] n then some (written (f.element n)) else none := by
  rw [isOfKind_eq_contains f (by decide) n, kind, ownText?, written]
  cases (f.element n).kind <;> rfl

theorem inlineText?_eq (f : Forest) (n : NodeId) : inlineText? (f.element n) =
    if f.isOfKind [.text, .code, .softBreak, .lineBreak] n then some (written (f.element n))
    else none := by
  rw [isOfKind_eq_contains f (by decide) n, kind, inlineText?, ownText?, written]
  cases (f.element n).kind <;> rfl

/-- Elements of kinds that may contain nothing have no children. -/
theorem children_eq_nil_of_barren {kinds : List Kind} (hf : f.WellFormed)
    (h : ∀ k ∈ kinds, ∀ c ∈ Kind.all, k.canContain c = false)
    (hn : f.kind n ∈ kinds) : f.children n = [] := by
  refine List.eq_nil_iff_forall_not_mem.2 fun c hc => ?_
  have hcan := hf.canContain_of_mem n c hc
  rw [h (f.kind n) hn (f.kind c) (Kind.mem_all _)] at hcan
  cases hcan

theorem children_of_inlineText? (hf : f.WellFormed) (n : NodeId) (v : Value)
    (h : inlineText? (f.element n) = some v) : f.children n = [] := by
  rw [inlineText?_eq] at h
  split at h
  · rename_i hkind
    rw [isOfKind_eq_contains f (by decide), List.contains_iff_mem] at hkind
    exact children_eq_nil_of_barren hf (by decide) hkind
  · cases h

theorem inlineText?_of_ownText? {e : Element} (h : ownText? e = some v) :
    inlineText? e = some v := by
  unfold inlineText?
  cases hkind : e.kind with
  | softBreak | lineBreak => simp [ownText?, hkind] at h
  | _ => exact h

theorem children_of_ownText? (hf : f.WellFormed) (n : NodeId) (v : Value)
    (h : ownText? (f.element n) = some v) : f.children n = [] :=
  children_of_inlineText? hf n v (inlineText?_of_ownText? h)

/-- The text of a tree is the concatenation, in pre-order, of what is written at its text and code
nodes; on one line its breaks come in between as spaces. A text comes out whenever all that is
written there are texts, and never otherwise. -/
theorem plainText_concatenates (hf : f.WellFormed) (n : NodeId) (s : String) :
    (f.plainText n = .ok (.str s) ↔
      ∃ texts, f.writtenAt [.text, .code] n = texts.map .str ∧ s = String.join texts) ∧
    (f.lineText n = .ok (.str s) ↔
      ∃ texts, f.writtenAt [.text, .code, .softBreak, .lineBreak] n = texts.map .str ∧
        s = String.join texts) := by
  have hplain : f.ownValues ownText? n = f.writtenAt [.text, .code] n :=
    filterMap_eq_collect _ (ownText?_eq f)
  have hline : f.ownValues inlineText? n = f.writtenAt [.text, .code, .softBreak, .lineBreak] n :=
    filterMap_eq_collect _ (inlineText?_eq f)
  rw [← hplain, ← hline]
  exact ⟨content_eq_ok_iff hf (children_of_ownText? hf) n s,
    content_eq_ok_iff hf (children_of_inlineText? hf) n s⟩

/-- A paragraph of a text, a break, and an emphasis on a piece of code and a text. -/
def brokenLine : Forest where
  nodes := #[⟨0, some 5, [], 0⟩, ⟨1, some 5, [], 1⟩, ⟨2, some 4, [], 2⟩, ⟨3, some 4, [], 3⟩,
    ⟨4, some 5, [2, 3], 4⟩, ⟨5, none, [0, 1, 4], 5⟩]
  elements := #[.ofFields .text [("text", .str "see")], .ofFields .softBreak [],
    .ofFields .code [("code", .str "f")], .ofFields .text [("text", .str "!")],
    .ofFields .emph [], .ofFields .paragraph []]
  records := #[[], [], [], [], [], []]

theorem wellFormed_brokenLine : brokenLine.WellFormed := by
  have hfirst := wellFormed_newNode wellFormed_empty (.ofFields .text [("text", .str "see")]) []
    (by simp)
  have hbreak := wellFormed_newNode hfirst (.ofFields .softBreak []) [] (by simp)
  have hcode := wellFormed_newNode hbreak (.ofFields .code [("code", .str "f")]) [] (by simp)
  have hlast := wellFormed_newNode hcode (.ofFields .text [("text", .str "!")]) [] (by simp)
  have hemph := wellFormed_newNode hlast (.ofFields .emph []) [2, 3] (by decide)
  exact wellFormed_newNode hemph (.ofFields .paragraph []) [0, 1, 4] (by decide)

/-- The break is left out of the text of the paragraph, and is a space on one line. -/
theorem plainText_concatenates_brokenLine : brokenLine.WellFormed ∧
    brokenLine.plainText 5 = .ok (.str "seef!") ∧ brokenLine.lineText 5 = .ok (.str "see f!") := by
  have hf := wellFormed_brokenLine
  refine ⟨hf, (plainText_concatenates hf 5 "seef!").1.2 ⟨["see", "f", "!"], rfl, rfl⟩, ?_⟩
  exact (plainText_concatenates hf 5 "see f!").2.2 ⟨["see", " ", "f", "!"], rfl, rfl⟩

end MarkdownTree.Forest
