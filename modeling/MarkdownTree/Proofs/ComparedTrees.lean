import Mathlib.Data.List.Chain
import Mathlib.Logic.Relation
import MarkdownTree.Proofs.EqualValues

/-!
Comparison of trees. Two trees agree if and only if their roots do, given that the comparison goes
on to the trees below and to those held in metadata; the bound on its depth never cuts it off as
long as this does not lead back. So the comparison is an equivalence of trees, with and without
metadata. Without metadata it compares the nodes in pre-order, each with the number of its children:
where the elements and these numbers are the same one by one, so are the trees.
-/

namespace MarkdownTree

open Relation

namespace Element

variable {a b c : Element}

theorem agrees_symm (ha : Value.isKeyedEntries a.fields = true)
    (hb : Value.isKeyedEntries b.fields = true) (h : a.agrees b = true) : b.agrees a = true := by
  rw [agrees, Bool.and_eq_true, beq_iff_eq] at h ⊢
  exact ⟨h.1.symm, Value.agreesWithin_symm h.2 ha hb⟩

theorem agrees_trans (h : a.agrees b = true) (h' : b.agrees c = true) : a.agrees c = true := by
  rw [agrees, Bool.and_eq_true, beq_iff_eq] at h h' ⊢
  exact ⟨h.1.trans h'.1, Value.agreesWithin_trans h.2 h'.2⟩

end Element

/-- Entries that are equal to themselves if their nodes are: each name occurs once, and none of the
values is not a number. -/
structure Entries.Comparable (entries : Entries) : Prop where
  keyed : Value.isKeyedEntries entries = true
  numbers : ∀ entry ∈ entries, entry.2 ≠ .float .nan

namespace Forest

variable {f : Forest} {a b c d m n : NodeId} {as bs : List NodeId} {withMetadata : Bool}
  {depth depth' : Nat} {trees trees' trees'' : NodeId → NodeId → Bool} {v w x : Value}

/-- How metadata values are compared: nodes as trees, and all others as values. -/
def entryAgrees (trees : NodeId → NodeId → Bool) (v w : Value) : Bool :=
  match v, w with
  | .node a, .node b => trees a b
  | _, _ => v.agrees w

theorem metadataAgree_iff {xs ys : Entries} : metadataAgree trees xs ys = true ↔
    Entries.Related (fun v w => entryAgrees trees v w = true) xs ys := by
  rw [metadataAgree, Bool.and_eq_true, beq_iff_eq, List.all_eq_true]
  refine and_congr_right' (forall₂_congr fun entry _ => ?_)
  obtain ⟨name, v⟩ := entry
  cases hw : ys.get? name with
  | none => simp [hw]
  | some w =>
      simp only [hw, Option.some.injEq, exists_eq_left']
      rfl

theorem listsAgree_iff :
    listsAgree trees as bs = true ↔ List.Forall₂ (fun a b => trees a b = true) as bs := by
  refine ⟨fun h => ?_, listsAgree_of_forall₂⟩
  induction as generalizing bs with
  | nil =>
      cases bs with
      | nil => exact .nil
      | cons b bs => cases h
  | cons a as ih =>
      cases bs with
      | nil => cases h
      | cons b bs =>
          rw [listsAgree, Bool.and_eq_true] at h
          exact .cons h.1 (ih h.2)

/-- A node agrees with a node, and anything else with what is no node either. -/
theorem entryAgrees_iff : entryAgrees trees v w = true ↔
    (∃ a b, v = .node a ∧ w = .node b ∧ trees a b = true) ∨
      (∀ a, v ≠ .node a) ∧ (∀ b, w ≠ .node b) ∧ v.agrees w = true := by
  by_cases hnode : ∃ a, v = .node a
  · obtain ⟨a, rfl⟩ := hnode
    cases w with
    | node b => simp [entryAgrees]
    | _ => simp [entryAgrees, Value.agrees, Value.agreesWithin_node]
  · have hother : ∀ a, v ≠ .node a := fun a ha => hnode ⟨a, ha⟩
    have heq : entryAgrees trees v w = v.agrees w := by
      rw [entryAgrees]
      intro a _ ha
      exact absurd ha (hother a)
    rw [heq]
    constructor
    · intro h
      refine .inr ⟨hother, fun b hb => ?_, h⟩
      subst hb
      exact hother b (Value.eq_of_agreesWithin_node h)
    · rintro (⟨a, b, ha, -⟩ | ⟨-, -, h⟩)
      · exact absurd ha (hother a)
      · exact h

/-- What the comparison of two nodes comes to, given how the trees are compared that it goes on
to. -/
structure AgreeBy (f : Forest) (withMetadata : Bool) (trees : NodeId → NodeId → Bool)
    (a b : NodeId) : Prop where
  element : (f.element a).agrees (f.element b) = true
  metadata (h : withMetadata = true) : metadataAgree trees (f.metadata a) (f.metadata b) = true
  children : List.Forall₂ (fun c d => trees c d = true) (f.children a) (f.children b)

theorem agreeWithin_succ : f.agreeWithin withMetadata (depth + 1) a b = true ↔
    f.AgreeBy withMetadata (f.agreeWithin withMetadata depth) a b := by
  rw [agreeWithin, Bool.and_eq_true, Bool.and_eq_true, listsAgree_iff]
  cases withMetadata with
  | false => exact ⟨fun h => ⟨h.1.1, fun hwith => absurd hwith Bool.false_ne_true, h.2⟩,
      fun h => ⟨⟨h.element, rfl⟩, h.children⟩⟩
  | true => exact ⟨fun h => ⟨h.1.1, fun _ => h.1.2, h.2⟩,
      fun h => ⟨⟨h.element, h.metadata rfl⟩, h.children⟩⟩

/-- The comparison goes on from a node to its children and to the nodes that its metadata hold. -/
def LeadsTo (f : Forest) (n m : NodeId) : Prop :=
  m ∈ f.children n ∨ ∃ name, (name, Value.node m) ∈ f.metadata n

namespace AgreeBy

theorem refl (hfields : Value.isKeyedEntries (f.element a).fields = true)
    (hmetadata : (f.metadata a).Comparable) (h : ∀ c, f.LeadsTo a c → trees c c = true) :
    f.AgreeBy withMetadata trees a a where
  element := Element.agrees_self hfields
  metadata _ := by
    refine metadataAgree_iff.2 (.refl hmetadata.keyed fun entry hentry => entryAgrees_iff.2 ?_)
    by_cases hnode : ∃ c, entry.2 = .node c
    · obtain ⟨c, hc⟩ := hnode
      exact .inl ⟨c, c, hc, hc, h c (.inr ⟨entry.1, hc ▸ hentry⟩)⟩
    · have hother : ∀ c, entry.2 ≠ .node c := fun c hc => hnode ⟨c, hc⟩
      refine .inr ⟨hother, hother, ?_⟩
      exact Value.agreesWithin_self false _ (Value.isKeyed_of_mem hmetadata.keyed hentry)
        (.inr (hmetadata.numbers entry hentry))
  children := List.forall₂_same.2 fun c hc => h c (.inl hc)

theorem symm (ha : Value.isKeyedEntries (f.element a).fields = true)
    (hb : Value.isKeyedEntries (f.element b).fields = true) (hma : (f.metadata a).Comparable)
    (hmb : (f.metadata b).Comparable) (h : f.AgreeBy withMetadata trees a b)
    (himp : ∀ c, f.LeadsTo a c → ∀ d, f.LeadsTo b d → trees c d = true → trees' d c = true) :
    f.AgreeBy withMetadata trees' b a where
  element := Element.agrees_symm ha hb h.element
  metadata hwith := by
    refine metadataAgree_iff.2 ((metadataAgree_iff.1 (h.metadata hwith)).symm hma.keyed hmb.keyed
      fun x hx y hy hxy => entryAgrees_iff.2 ?_)
    rcases entryAgrees_iff.1 hxy with ⟨c, d, hc, hd, hcd⟩ | ⟨hnx, hny, hvalues⟩
    · exact .inl ⟨d, c, hd, hc, himp c (.inr ⟨x.1, hc ▸ hx⟩) d (.inr ⟨y.1, hd ▸ hy⟩) hcd⟩
    · refine .inr ⟨hny, hnx, Value.agreesWithin_symm hvalues ?_ ?_⟩
      · exact Value.isKeyed_of_mem hma.keyed hx
      · exact Value.isKeyed_of_mem hmb.keyed hy
  children := forall₂_swap h.children fun c hc d hd => himp c (.inl hc) d (.inl hd)

theorem trans (h : f.AgreeBy withMetadata trees a b) (h' : f.AgreeBy withMetadata trees' b c)
    (himp : ∀ m n k, trees m n = true → trees' n k = true → trees'' m k = true) :
    f.AgreeBy withMetadata trees'' a c where
  element := Element.agrees_trans h.element h'.element
  metadata hwith := by
    refine metadataAgree_iff.2 ((metadataAgree_iff.1 (h.metadata hwith)).trans
      (metadataAgree_iff.1 (h'.metadata hwith)) fun x _ y _ z _ hxy hyz => entryAgrees_iff.2 ?_)
    rcases entryAgrees_iff.1 hxy with ⟨m, n, hm, hn, hmn⟩ | ⟨hnx, hny, hvalues⟩
    · rcases entryAgrees_iff.1 hyz with ⟨n', k, hn', hk, hnk⟩ | ⟨hno, -⟩
      · obtain rfl : n = n' := by simpa [hn] using hn'
        exact .inl ⟨m, k, hm, hk, himp m n k hmn hnk⟩
      · exact absurd hn (hno n)
    · rcases entryAgrees_iff.1 hyz with ⟨n, k, hn, -⟩ | ⟨-, hnz, hvalues'⟩
      · exact absurd hn (hny n)
      · exact .inr ⟨hnx, hnz, Value.agreesWithin_trans hvalues hvalues'⟩
  children := forall₂_trans h.children h'.children fun m _ n k => himp m n k

theorem imp (h : f.AgreeBy withMetadata trees a b)
    (himp : ∀ c, f.LeadsTo a c → ∀ d, trees c d = true → trees' c d = true) :
    f.AgreeBy withMetadata trees' a b where
  element := h.element
  metadata hwith := by
    refine metadataAgree_iff.2 ((metadataAgree_iff.1 (h.metadata hwith)).imp
      fun x hx y _ hxy => entryAgrees_iff.2 ?_)
    refine (entryAgrees_iff.1 hxy).imp_left ?_
    rintro ⟨c, d, hc, hd, hcd⟩
    exact ⟨c, d, hc, hd, himp c (.inr ⟨x.1, hc ▸ hx⟩) d hcd⟩
  children := forall₂_imp_of_mem h.children fun c hc d _ => himp c (.inl hc) d

end AgreeBy

/-- Every way that the comparison takes from a node is shorter than a depth. -/
def EndsWithin (f : Forest) (n : NodeId) (depth : Nat) : Prop :=
  ∀ path, List.IsChain f.LeadsTo (n :: path) → path.length < depth

theorem EndsWithin.step (h : f.EndsWithin n (depth + 1)) (hm : f.LeadsTo n m) :
    f.EndsWithin m depth :=
  fun path hpath => Nat.lt_of_succ_lt_succ (h (m :: path) (List.isChain_cons_cons.2 ⟨hm, hpath⟩))

/-- A tree whose comparison ends, and that is equal to itself: the elements and metadata that the
comparison comes upon are, and it never leads back to where it was. -/
structure Comparable (f : Forest) (root : NodeId) : Prop where
  fields (n : NodeId) (h : ReflTransGen f.LeadsTo root n) :
    Value.isKeyedEntries (f.element n).fields = true
  metadata (n : NodeId) (h : ReflTransGen f.LeadsTo root n) : (f.metadata n).Comparable
  not_leadsTo_self (n : NodeId) (h : ReflTransGen f.LeadsTo root n) : ¬ TransGen f.LeadsTo n n

theorem mem_nodesEntries_of_mem {entries : Entries} {name : String}
    (h : (name, Value.node m) ∈ entries) : m ∈ Value.nodesEntries entries := by
  induction entries with
  | nil => exact absurd h List.not_mem_nil
  | cons entry rest ih =>
      rw [Value.nodesEntries, List.mem_append]
      rcases List.mem_cons.1 h with rfl | h
      · exact .inl (List.mem_singleton_self m)
      · exact .inr (ih h)

theorem Comparable.step (h : f.Comparable n) (hm : f.LeadsTo n m) : f.Comparable m :=
  ⟨fun k hk => h.fields k (.head hm hk), fun k hk => h.metadata k (.head hm hk),
    fun k hk => h.not_leadsTo_self k (.head hm hk)⟩

theorem WellFormed.lt_size_of_leadsTo (hf : f.WellFormed) (h : f.LeadsTo n m) : m < f.size := by
  rcases h with hchild | ⟨name, hentry⟩
  · exact hf.lt_size_of_mem hchild
  · exact lt_of_mem_metadata hf (mem_nodesEntries_of_mem hentry)

/-- A way that never leads back has no room for more nodes than there are. -/
theorem Comparable.endsWithin (hf : f.WellFormed) (h : f.Comparable n) :
    f.EndsWithin n (f.size + 1) := by
  intro path hpath
  have hways : (n :: path).Pairwise (TransGen f.LeadsTo) :=
    (hpath.imp fun _ _ => TransGen.single).pairwise
  obtain ⟨hfrom, hlater⟩ := List.pairwise_cons.1 hways
  have hnodup : path.Nodup := by
    refine hlater.imp_of_mem fun {k l} hk _ hkl heq => ?_
    subst heq
    exact h.not_leadsTo_self k (hfrom k hk).to_reflTransGen hkl
  have hsub : path ⊆ List.range f.size := by
    intro k hk
    obtain ⟨l, -, hlk⟩ := TransGen.tail'_iff.1 (hfrom k hk)
    exact List.mem_range.2 (hf.lt_size_of_leadsTo hlk)
  have hle := (List.subperm_of_subset hnodup hsub).length_le
  rw [List.length_range] at hle
  omega

theorem agreeWithin_eq (hd : f.EndsWithin a depth) (hd' : f.EndsWithin a depth') :
    f.agreeWithin withMetadata depth a b = f.agreeWithin withMetadata depth' a b := by
  induction depth generalizing a b depth' with
  | zero => exact absurd (hd [] (.singleton a)) (Nat.lt_irrefl 0)
  | succ depth ih =>
      cases depth' with
      | zero => exact absurd (hd' [] (.singleton a)) (Nat.lt_irrefl 0)
      | succ depth' =>
          refine Bool.eq_iff_iff.2 ?_
          rw [agreeWithin_succ, agreeWithin_succ]
          constructor
          · intro h
            exact h.imp fun c hc d hcd => (ih (hd.step hc) (hd'.step hc)).symm.trans hcd
          · intro h
            exact h.imp fun c hc d hcd => (ih (hd.step hc) (hd'.step hc)).trans hcd

/-- Two trees agree if and only if their roots do, by the comparison of what that leads to. -/
theorem Comparable.agree_iff (hf : f.WellFormed) (ha : f.Comparable a) :
    f.agree withMetadata a b = true ↔ f.AgreeBy withMetadata (f.agree withMetadata) a b := by
  rw [agree, agreeWithin_succ]
  have hbound := ha.endsWithin hf
  have heq {c : NodeId} (hc : f.LeadsTo a c) (d : NodeId) :
      f.agreeWithin withMetadata f.size c d = f.agree withMetadata c d :=
    agreeWithin_eq (hbound.step hc) ((ha.step hc).endsWithin hf)
  constructor
  · intro h
    exact h.imp fun c hc d hcd => (heq hc d).symm.trans hcd
  · intro h
    exact h.imp fun c hc d hcd => (heq hc d).trans hcd

theorem Comparable.agreeWithin_self (h : f.Comparable n) (withMetadata : Bool) (depth : Nat) :
    f.agreeWithin withMetadata depth n n = true := by
  induction depth generalizing n with
  | zero => rfl
  | succ depth ih =>
      exact agreeWithin_succ.2 (.refl (h.fields n .refl) (h.metadata n .refl)
        fun c hc => ih (h.step hc))

theorem Comparable.agreeWithin_symm (ha : f.Comparable a) (hb : f.Comparable b)
    (h : f.agreeWithin withMetadata depth a b = true) :
    f.agreeWithin withMetadata depth b a = true := by
  induction depth generalizing a b with
  | zero => rfl
  | succ depth ih =>
      exact agreeWithin_succ.2 ((agreeWithin_succ.1 h).symm (ha.fields a .refl) (hb.fields b .refl)
        (ha.metadata a .refl) (hb.metadata b .refl) fun c hc d hd => ih (ha.step hc) (hb.step hd))

theorem agreeWithin_trans (h : f.agreeWithin withMetadata depth a b = true)
    (h' : f.agreeWithin withMetadata depth b c = true) :
    f.agreeWithin withMetadata depth a c = true := by
  induction depth generalizing a b c with
  | zero => rfl
  | succ depth ih =>
      exact agreeWithin_succ.2
        ((agreeWithin_succ.1 h).trans (agreeWithin_succ.1 h') fun m n k => ih)

/-- Two nodes have equal elements, and as many children. -/
def SameNode (f : Forest) (a b : NodeId) : Prop :=
  (f.element a).agrees (f.element b) = true ∧ (f.children a).length = (f.children b).length

theorem sameNode_preorderWithin (h : f.agreeWithin false depth a b = true) :
    List.Forall₂ f.SameNode (f.preorderWithin depth a) (f.preorderWithin depth b) := by
  induction depth generalizing a b with
  | zero => exact .nil
  | succ depth ih =>
      obtain ⟨helement, -, hchildren⟩ := agreeWithin_succ.1 h
      exact .cons ⟨helement, hchildren.length_eq⟩ (List.rel_flatMap hchildren fun _ _ => ih)

/-- If the nodes of a tree can be read off the front of a list, so can those of several trees. -/
theorem forall₂_of_flatMap {R S : NodeId → NodeId → Prop} {nodes : NodeId → List NodeId}
    (hread : ∀ a b rest rest', List.Forall₂ S (nodes a ++ rest) (nodes b ++ rest') →
      R a b ∧ List.Forall₂ S rest rest') {rest rest' : List NodeId}
    (hlength : as.length = bs.length)
    (h : List.Forall₂ S (as.flatMap nodes ++ rest) (bs.flatMap nodes ++ rest')) :
    List.Forall₂ R as bs ∧ List.Forall₂ S rest rest' := by
  induction as generalizing bs with
  | nil =>
      obtain rfl := List.length_eq_zero_iff.1 hlength.symm
      exact ⟨.nil, h⟩
  | cons a as ih =>
      cases bs with
      | nil => cases hlength
      | cons b bs =>
          rw [List.flatMap_cons, List.flatMap_cons, List.append_assoc, List.append_assoc] at h
          obtain ⟨hab, hrest⟩ := hread a b _ _ h
          obtain ⟨hlist, hrest⟩ := ih (Nat.succ.inj hlength) hrest
          exact ⟨.cons hab hlist, hrest⟩

/-- How many children each node has tells where the tree ends, whatever comes after it. -/
theorem agreeWithin_of_sameNode (depth : Nat) (a b : NodeId) (rest rest' : List NodeId)
    (h : List.Forall₂ f.SameNode (f.preorderWithin depth a ++ rest)
      (f.preorderWithin depth b ++ rest')) :
    f.agreeWithin false depth a b = true ∧ List.Forall₂ f.SameNode rest rest' := by
  induction depth generalizing a b rest rest' with
  | zero => exact ⟨rfl, h⟩
  | succ depth ih =>
      rw [preorderWithin, preorderWithin, List.cons_append, List.cons_append] at h
      obtain ⟨⟨helement, hlength⟩, hbelow⟩ := List.forall₂_cons.1 h
      obtain ⟨hchildren, hrest⟩ := forall₂_of_flatMap ih hlength hbelow
      have hagree : f.AgreeBy false (f.agreeWithin false depth) a b :=
        ⟨helement, fun h => absurd h Bool.false_ne_true, hchildren⟩
      exact ⟨agreeWithin_succ.2 hagree, hrest⟩

theorem agree_false_iff :
    f.agree false a b = true ↔ List.Forall₂ f.SameNode (f.preorder a) (f.preorder b) := by
  constructor
  · exact sameNode_preorderWithin
  · intro h
    refine (agreeWithin_of_sameNode (f.size + 1) a b [] [] ?_).1
    rwa [List.append_nil, List.append_nil]

/-- Among trees whose metadata do not lead back to them, agreement is an equivalence, and it goes on
from the roots of two trees to what they lead to. Without metadata, two trees agree if and only if
they have equal elements, each with as many children, one after the other in pre-order. -/
theorem agree_equivalence (hf : f.WellFormed) (withMetadata : Bool) :
    Equivalence (fun a b : { n // f.Comparable n } => f.agree withMetadata a b = true) ∧
      (∀ a b, f.Comparable a → (f.agree withMetadata a b = true ↔
        f.AgreeBy withMetadata (f.agree withMetadata) a b)) ∧
      ∀ a b, f.agree false a b = true ↔ List.Forall₂ f.SameNode (f.preorder a) (f.preorder b) := by
  refine ⟨⟨?_, ?_, ?_⟩, fun a b ha => ha.agree_iff hf, fun a b => agree_false_iff⟩
  · exact fun a => a.2.agreeWithin_self withMetadata _
  · exact fun {a b} h => a.2.agreeWithin_symm b.2 h
  · exact fun h h' => agreeWithin_trans h h'

/-- A document over two code blocks. Both keep the same block quote in their metadata, under the
same name, and a number that is written in two ways. -/
def keepingQuote : Forest where
  nodes := #[⟨0, some 1, [], 0⟩, ⟨1, none, [0], 1⟩, ⟨2, some 4, [], 2⟩, ⟨3, some 4, [], 3⟩,
    ⟨4, none, [2, 3], 4⟩]
  elements := #[.ofFields .paragraph [], .blockQuote, .ofFields .codeBlock [("code", .str "x")],
    .ofFields .codeBlock [("code", .str "x")], .ofFields .document []]
  records := #[[], [], [("content", .node 1), ("id", .int 1)],
    [("id", .bool true), ("content", .node 1)], []]

theorem wellFormed_keepingQuote : keepingQuote.WellFormed := by
  have hinner := wellFormed_newNode wellFormed_empty (.ofFields .paragraph []) [] (by simp)
  have hquote := wellFormed_newNode hinner .blockQuote [0] (by decide)
  have hfirst := wellFormed_newNode hquote (.ofFields .codeBlock [("code", .str "x")]) [] (by simp)
  have hlast := wellFormed_newNode hfirst (.ofFields .codeBlock [("code", .str "x")]) [] (by simp)
  have hroot := wellFormed_newNode hlast (.ofFields .document []) [2, 3] (by decide)
  have hnode : ∀ c ∈ (Value.node 1).nodes, c < 5 := by decide
  have h2 := (carriesOn_setEntry hroot 2 "content" hnode).wellFormed
  have h3 := (carriesOn_setEntry h2 2 "id" (v := .int 1) nofun).wellFormed
  have h4 := (carriesOn_setEntry h3 3 "id" (v := .bool true) nofun).wellFormed
  exact (carriesOn_setEntry h4 3 "content" hnode).wellFormed

/-- What the comparison leads to has smaller numbers there. -/
theorem lt_of_leadsTo_keepingQuote (h : keepingQuote.LeadsTo n m) : m < n := by
  match n with
  | 0 | _ + 5 => simp [LeadsTo, children, metadata, recordKey, keepingQuote] at h
  | 1 | 2 | 3 =>
      simp only [LeadsTo, children, metadata, recordKey, keepingQuote] at h
      obtain rfl : m = _ := by simpa using h
      decide
  | 4 =>
      have h : m = 2 ∨ m = 3 := by
        simpa [LeadsTo, children, metadata, recordKey, keepingQuote] using h
      rcases h with rfl | rfl <;> decide

theorem comparable_keepingQuote (root : NodeId) : keepingQuote.Comparable root where
  fields n _ := by
    match n with
    | 0 | 1 | 2 | 3 | 4 | _ + 5 => rfl
  metadata n _ := by
    match n with
    | 0 | 1 | 4 | _ + 5 => exact ⟨rfl, nofun⟩
    | 2 | 3 => exact ⟨by decide, by simp [metadata, recordKey, keepingQuote]⟩
  not_leadsTo_self n _ h := by
    have hlt {m : NodeId} (h : TransGen keepingQuote.LeadsTo n m) : m < n := by
      induction h with
      | single h => exact lt_of_leadsTo_keepingQuote h
      | tail _ h ih => exact Nat.lt_trans (lt_of_leadsTo_keepingQuote h) ih
    exact Nat.lt_irrefl n (hlt h)

theorem agree_equivalence_keepingQuote :
    keepingQuote.WellFormed ∧ keepingQuote.agree true 2 3 = true ∧
      keepingQuote.agree true 3 2 = true ∧ keepingQuote.agree true 4 2 = false := by
  have hf := wellFormed_keepingQuote
  have hagree : keepingQuote.agree true 2 3 = true := by decide +kernel
  refine ⟨hf, hagree, ?_, by rfl⟩
  exact (agree_equivalence hf true).1.symm
    (x := ⟨2, comparable_keepingQuote 2⟩) (y := ⟨3, comparable_keepingQuote 3⟩) hagree

end Forest

end MarkdownTree
