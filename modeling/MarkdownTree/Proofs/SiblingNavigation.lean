import MarkdownTree.Forest.Description
import MarkdownTree.Forest.Sibling
import MarkdownTree.Proofs.Destinations
import MarkdownTree.Yaml.Block

/-!
Finding one's way among siblings and down a tree. In a well-formed forest a node has one place among
the children of its parent, and the siblings beside it are the ones listed there; so steps forward
and back undo each other, and steps forward from the first child come by all children. The
description of a tree goes up from each node to find how far it is to be indented, which is how far
the node lies below the root of the description. Main statement: all this agrees with the lists of
children.
-/

namespace MarkdownTree.Forest

variable {f : Forest} {c m n p q root : NodeId} {front back list : List NodeId} {i j k : Nat}

theorem previousSibling_of_isRoot (hroot : f.parent? n = none) :
    f.previousSibling n = .ok none := by
  rw [previousSibling, hroot]

theorem nextSibling_of_isRoot (hroot : f.parent? n = none) : f.nextSibling n = .ok none := by
  rw [nextSibling, laterSiblings, hroot]
  rfl

theorem WellFormed.indexOf_children (hf : f.WellFormed)
    (hlist : f.children p = front ++ n :: back) :
    f.parent? n = some p ∧ indexOf (f.children p) n = .ok front.length := by
  refine ⟨hf.parent?_of_mem (by simp [hlist]), ?_⟩
  rw [hlist, indexOf_append (hf.not_mem_of_split hlist).1]

/-- The sibling before a node is the last one in front of it. -/
theorem previousSibling_eq (hf : f.WellFormed) (hlist : f.children p = front ++ n :: back) :
    f.previousSibling n = .ok front.getLast? := by
  obtain ⟨hparent, hindex⟩ := hf.indexOf_children hlist
  rw [previousSibling, hparent]
  simp only [hindex, bind, Except.bind]
  rw [hlist, List.getLast?_eq_getElem?]
  cases front with
  | nil => rfl
  | cons m front =>
      rw [if_neg (by simp), List.getElem?_append_left (by simp)]

/-- The sibling after a node is the first one behind it. -/
theorem nextSibling_eq (hf : f.WellFormed) (hlist : f.children p = front ++ n :: back) :
    f.nextSibling n = .ok back.head? := by
  obtain ⟨hparent, hindex⟩ := hf.indexOf_children hlist
  rw [nextSibling, laterSiblings, hparent]
  simp only [hindex, bind, Except.bind]
  rw [hlist, List.drop_append, List.drop_eq_nil_of_le (Nat.le_succ _)]
  simp

/-- The sibling after `n` is `m` if the two stand side by side, and only then. -/
theorem nextSibling_iff (hf : f.WellFormed) :
    f.nextSibling n = .ok (some m) ↔ ∃ p front back, f.children p = front ++ n :: m :: back := by
  constructor
  · intro h
    cases hp : f.parent? n with
    | none =>
        rw [nextSibling_of_isRoot hp] at h
        cases h
    | some p =>
        obtain ⟨front, back, hlist⟩ := List.append_of_mem (hf.mem_of_parent? hp)
        rw [nextSibling_eq hf hlist, Except.ok.injEq, List.head?_eq_some_iff] at h
        obtain ⟨rest, rfl⟩ := h
        exact ⟨p, front, rest, hlist⟩
  · rintro ⟨p, front, back, hlist⟩
    rw [nextSibling_eq hf hlist]
    rfl

theorem previousSibling_iff (hf : f.WellFormed) :
    f.previousSibling m = .ok (some n) ↔
      ∃ p front back, f.children p = front ++ n :: m :: back := by
  constructor
  · intro h
    cases hp : f.parent? m with
    | none =>
        rw [previousSibling_of_isRoot hp] at h
        cases h
    | some p =>
        obtain ⟨front, back, hlist⟩ := List.append_of_mem (hf.mem_of_parent? hp)
        rw [previousSibling_eq hf hlist, Except.ok.injEq, List.getLast?_eq_some_iff] at h
        obtain ⟨before, rfl⟩ := h
        exact ⟨p, before, back, by rw [hlist, List.append_assoc]; rfl⟩
  · rintro ⟨p, front, back, hlist⟩
    have hsplit : f.children p = (front ++ [n]) ++ m :: back := by
      rw [hlist, List.append_assoc]
      rfl
    rw [previousSibling_eq hf hsplit, List.getLast?_concat]

/-- `Onward f start list` says that steps to the next sibling, from `start` on, come by the nodes of
`list` and end there. -/
inductive Onward (f : Forest) : Option NodeId → List NodeId → Prop
  | stop : Onward f none []
  | step {n : NodeId} {next : Option NodeId} {list : List NodeId}
      (h : f.nextSibling n = .ok next) (hnext : Onward f next list) : Onward f (some n) (n :: list)

theorem Onward.unique {start : Option NodeId} {list' : List NodeId} (h : f.Onward start list)
    (h' : f.Onward start list') : list = list' := by
  induction h generalizing list' with
  | stop =>
      cases h'
      rfl
  | step hnext _ ih =>
      cases h' with
      | step hnext' htail =>
          rw [hnext, Except.ok.injEq] at hnext'
          rw [ih (hnext' ▸ htail)]

/-- From any child on, the steps come by the children from there on. -/
theorem onward_children (hf : f.WellFormed) (hlist : f.children p = front ++ back) :
    f.Onward back.head? back := by
  induction back generalizing front with
  | nil => exact .stop
  | cons n back ih =>
      have hrest : f.children p = (front ++ [n]) ++ back := by rw [hlist, List.append_assoc]; rfl
      exact .step (nextSibling_eq hf hlist) (ih hrest)

/-- `StepsBelow f root k n` says that `k` steps from a node to one of its children lead from `root`
to `n`. -/
inductive StepsBelow (f : Forest) (root : NodeId) : Nat → NodeId → Prop
  | here : StepsBelow f root 0 root
  | child {k : Nat} {m c : NodeId} (h : StepsBelow f root k m) (hc : c ∈ f.children m) :
      StepsBelow f root (k + 1) c

theorem StepsBelow.atOrAbove (hf : f.WellFormed) (h : f.StepsBelow root k n) :
    f.AtOrAbove root n := by
  induction h with
  | here => exact .refl f root
  | child _ hc ih => exact (ih.trans_ancestor (hf.ancestor_of_mem hc)).atOrAbove

theorem exists_stepsBelow (hf : f.WellFormed) (h : f.AtOrAbove root n) :
    ∃ k, f.StepsBelow root k n := by
  rcases h with rfl | h
  · exact ⟨0, .here⟩
  · induction h with
    | parent hp => exact ⟨1, .child .here (hf.mem_of_parent? hp)⟩
    | above hp _ ih =>
        obtain ⟨k, hk⟩ := ih
        exact ⟨k + 1, .child hk (hf.mem_of_parent? hp)⟩

theorem depthBelow_self (hf : f.WellFormed) (root : NodeId) : f.depthBelow root root = 0 := by
  simp [depthBelow, hf.lineage_eq root]

/-- Each step down is one step more on the way up. -/
theorem depthBelow_child (hf : f.WellFormed) (hroot : f.AtOrAbove root m) (hc : c ∈ f.children m) :
    f.depthBelow root c = f.depthBelow root m + 1 := by
  have hne : c ≠ root := by
    rintro rfl
    exact hf.not_atOrAbove_of_mem hc (.refl f m) hroot
  have hlineage : f.lineage c = c :: f.lineage m := by
    rw [hf.lineage_eq c, hf.parent?_of_mem hc]
  have hpos : 0 < (f.lineage m).length := by simp [hf.lineage_eq m]
  simp only [depthBelow, hlineage, List.takeWhile_cons, bne_iff_ne.2 hne, if_true, List.length_cons]
  omega

theorem depthBelow_of_stepsBelow (hf : f.WellFormed) (h : f.StepsBelow root k n) :
    f.depthBelow root n = k := by
  induction h with
  | here => exact depthBelow_self hf root
  | child hm hc ih => rw [depthBelow_child hf (hm.atOrAbove hf) hc, ih]

theorem stepsBelow_iff (hf : f.WellFormed) (h : f.AtOrAbove root n) :
    f.StepsBelow root j n ↔ j = f.depthBelow root n := by
  refine ⟨fun hj => (depthBelow_of_stepsBelow hf hj).symm, ?_⟩
  rintro rfl
  obtain ⟨k, hk⟩ := exists_stepsBelow hf h
  rwa [depthBelow_of_stepsBelow hf hk]

variable {δ : Type} {dump : Entries → Except δ String} {fields texts : List String}

/-- The lines of the description of a node with the given lines for its fields, not indented. -/
def descriptionLines (f : Forest) (n : NodeId) (fields : List String) : List String :=
  ((f.kind n).name ++ " node" ++ if f.isRoot n then " (root)" else "") ::
    (fields.map ("  " ++ ·) ++
    (if (f.children n).isEmpty then []
      else ["Has " ++ toString (f.children n).length ++ " children"]) ++
    (if (f.metadata n).isEmpty then []
      else ["Metadata keys: " ++ String.intercalate ", " (f.metadata n).names]))

/-- A line moved in by two spaces for each level, with its end. -/
def indented (levels : Nat) (line : String) : String :=
  String.ofList (List.replicate (2 * levels) ' ') ++ line ++ "\n"

theorem describe_eq_ok_iff {levels : Nat} {text : String} :
    f.describe dump levels n = .ok text ↔ ∃ fields, f.fieldLines dump n = .ok fields ∧
      text = String.join ((f.descriptionLines n fields).map (indented levels)) := by
  rw [describe, bind_eq_ok_iff]
  refine exists_congr fun fields => and_congr_right fun _ => ?_
  rw [Except.ok.injEq, eq_comm, Int.toNat_natCast, descriptionLines, List.map_cons]
  refine Eq.congr_right (congrArg String.join (congrArg₂ List.cons rfl ?_))
  simp only [List.map_append, List.map_map]
  refine congrArg₂ (· ++ ·) (congrArg₂ (· ++ ·) rfl ?_) ?_
  · cases (f.children n).isEmpty <;> rfl
  · cases (f.metadata n).isEmpty <;> rfl

theorem mapM_eq_ok_iff {α β : Type} {g : α → Except δ β} {as : List α} {bs : List β} :
    as.mapM g = .ok bs ↔ List.Forall₂ (fun a b => g a = .ok b) as bs := by
  induction as generalizing bs with
  | nil => simp [pure, Except.pure, eq_comm]
  | cons a as ih =>
      simp only [List.mapM_cons, bind_eq_ok_iff, ih, List.forall₂_cons_left_iff, pure, Except.pure,
        Except.ok.injEq]
      constructor
      · rintro ⟨b, hb, more, hmore, rfl⟩
        exact ⟨b, more, hb, hmore, rfl⟩
      · rintro ⟨b, more, hb, hmore, rfl⟩
        exact ⟨b, hb, more, hmore, rfl⟩

theorem describeTree_eq_ok_iff : f.describeTree dump root = .ok texts ↔
    List.Forall₂ (fun n text => f.describe dump (f.depthBelow root n) n = .ok text)
      (f.preorder root) texts := by
  rw [describeTree, mapM_eq_ok_iff]
  simp [collect]

/-- A tree is described if the fields of all its nodes can be set down. -/
theorem exists_describeTree_iff : (∃ texts, f.describeTree dump root = .ok texts) ↔
    ∀ n ∈ f.preorder root, ∃ fields, f.fieldLines dump n = .ok fields := by
  have hone (n : NodeId) : (∃ text, f.describe dump (f.depthBelow root n) n = .ok text) ↔
      ∃ fields, f.fieldLines dump n = .ok fields := by
    simp only [describe_eq_ok_iff]
    exact ⟨fun ⟨_, fields, h, _⟩ => ⟨fields, h⟩, fun ⟨fields, h⟩ => ⟨_, fields, h, rfl⟩⟩
  simp only [describeTree_eq_ok_iff, ← hone]
  induction f.preorder root with
  | nil => simp
  | cons n rest ih =>
      simp only [List.forall₂_cons_left_iff, List.forall_mem_cons, ← ih]
      constructor
      · rintro ⟨_, text, texts, htext, htexts, -⟩
        exact ⟨⟨text, htext⟩, texts, htexts⟩
      · rintro ⟨⟨text, htext⟩, texts, htexts⟩
        exact ⟨_, text, texts, htext, htexts, rfl⟩

/-- How the ways beside and below a node agree with the lists of children. -/
structure Navigable (f : Forest) : Prop where
  /-- A node stands at its index among the children of its parent. -/
  getElem?_index (n p : NodeId) (hp : f.parent? n = some p) :
    ∃ i, f.indexInParent n = .ok (some i) ∧ (f.children p)[i]? = some n
  /-- A step forward is a step back from the other side. -/
  next_iff_previous (n m : NodeId) :
    f.nextSibling n = .ok (some m) ↔ f.previousSibling m = .ok (some n)
  /-- From the first child on, the steps forward end, and come by the children in order. -/
  onward_iff (p : NodeId) (list : List NodeId) :
    f.Onward (f.children p).head? list ↔ list = f.children p
  /-- A tree is described with any writer that sets down the fields of all its nodes. -/
  described {δ : Type} (dump : Entries → Except δ String) (root : NodeId) :
    (∃ texts, f.describeTree dump root = .ok texts) ↔
      ∀ n ∈ f.preorder root, ∃ fields, f.fieldLines dump n = .ok fields
  /-- Each of its nodes is then described in its turn, on lines moved in by as many levels as there
  are steps down to it. -/
  description {δ : Type} (dump : Entries → Except δ String) (root : NodeId) (texts : List String)
    (h : f.describeTree dump root = .ok texts) :
    texts.length = (f.preorder root).length ∧
      ∀ (i : Nat) (n : NodeId), (f.preorder root)[i]? = some n →
        ∃ (k : Nat) (fields : List String), (∀ j, f.StepsBelow root j n ↔ j = k) ∧
          f.fieldLines dump n = .ok fields ∧
          texts[i]? = some (String.join ((f.descriptionLines n fields).map (indented k)))

theorem navigable_of_wellFormed (hf : f.WellFormed) : f.Navigable where
  getElem?_index n p hp := by
    obtain ⟨front, back, hlist⟩ := List.append_of_mem (hf.mem_of_parent? hp)
    obtain ⟨-, hindex⟩ := hf.indexOf_children hlist
    refine ⟨front.length, ?_, by simp [hlist]⟩
    rw [indexInParent, hp]
    simp [hindex, bind, Except.bind]
  next_iff_previous n m := by rw [nextSibling_iff hf, previousSibling_iff hf]
  onward_iff p list := by
    have hall : f.Onward (f.children p).head? (f.children p) :=
      onward_children hf (List.nil_append _).symm
    exact ⟨fun h => h.unique hall, fun h => h ▸ hall⟩
  described dump root := exists_describeTree_iff
  description dump root texts h := by
    rw [describeTree_eq_ok_iff] at h
    refine ⟨h.length_eq.symm, fun i n hn => ?_⟩
    obtain ⟨hi, rfl⟩ := List.getElem?_eq_some_iff.1 hn
    have hi' : i < texts.length := h.length_eq ▸ hi
    obtain ⟨fields, hfields, htext⟩ := describe_eq_ok_iff.1 (h.get hi hi')
    have hover : f.AtOrAbove root (f.preorder root)[i] :=
      hf.mem_preorder_iff.1 (List.getElem_mem hi)
    refine ⟨f.depthBelow root (f.preorder root)[i], fields, fun j => stepsBelow_iff hf hover,
      hfields, ?_⟩
    rw [List.getElem?_eq_getElem hi']
    exact congrArg some htext

/-- In the document with a block quote, the quote comes after the first paragraph, and in a
description of the quote alone the paragraph in it is moved in by one level. -/
theorem navigable_quoteBetween : quoteBetween.WellFormed ∧
    quoteBetween.nextSibling 2 = .ok (some 1) ∧ quoteBetween.previousSibling 1 = .ok (some 2) ∧
    quoteBetween.Onward (some 2) [2, 1, 3] ∧
    ∃ texts, quoteBetween.describeTree Yaml.dump 1 = .ok texts ∧
      texts[1]? = some "  Paragraph node\n" := by
  have hf := wellFormed_quoteBetween
  have hnav := navigable_of_wellFormed hf
  have hnext : quoteBetween.nextSibling 2 = .ok (some 1) := rfl
  have hfields : ∀ n ∈ quoteBetween.preorder 1,
      ∃ fields, quoteBetween.fieldLines Yaml.dump n = .ok fields := by
    have hnodes : quoteBetween.preorder 1 = [1, 0] := rfl
    rw [hnodes]
    exact List.forall_mem_cons.2 ⟨⟨[], rfl⟩, List.forall_mem_singleton.2 ⟨[], rfl⟩⟩
  obtain ⟨texts, htexts⟩ := (hnav.described Yaml.dump 1).2 hfields
  obtain ⟨k, fields, hsteps, hnone, hdescribed⟩ :=
    (hnav.description Yaml.dump 1 texts htexts).2 1 0 rfl
  have hbelow : quoteBetween.StepsBelow 1 1 0 :=
    .child .here (show 0 ∈ quoteBetween.children 1 by decide)
  obtain rfl := (hsteps 1).1 hbelow
  cases hnone
  exact ⟨hf, hnext, (hnav.next_iff_previous 2 1).1 hnext, (hnav.onward_iff 4 _).2 rfl, texts,
    htexts, hdescribed⟩

end MarkdownTree.Forest
