import MarkdownTree.Forest.Compare
import MarkdownTree.Proofs.MatchingCopies

/-!
Values, elements and metadata are equal to themselves, and a tree that matches another one is equal
to it by the comparison of trees. Two things stand in the way in general: what is not a number
differs from itself, and entries are looked up by their names, so each name has to occur once.
-/

namespace MarkdownTree

namespace Value

mutual

/-- Whether each name occurs once wherever a value holds entries. -/
def isKeyed : Value → Bool
  | .list items => isKeyedList items
  | .mapping entries => isKeyedEntries entries
  | .record _ fields => isKeyedEntries fields
  | _ => true
termination_by structural v => v

/-- Whether each name occurs once in the entries of the items of a list. -/
def isKeyedList : List Value → Bool
  | [] => true
  | v :: rest => isKeyed v && isKeyedList rest

/-- Whether each name occurs once in entries, and in those of their values. -/
def isKeyedEntries : List (String × Value) → Bool
  | [] => true
  | (name, v) :: rest => !Entries.has rest name && isKeyed v && isKeyedEntries rest

end

theorem find?_of_isKeyedEntries {entries : List (String × Value)}
    (hkeyed : isKeyedEntries entries = true) {entry : String × Value} (hmem : entry ∈ entries) :
    entries.find? (·.1 == entry.1) = some entry := by
  induction entries with
  | nil => exact absurd hmem List.not_mem_nil
  | cons first rest ih =>
      obtain ⟨name, v⟩ := first
      rw [isKeyedEntries, Bool.and_eq_true, Bool.and_eq_true] at hkeyed
      rcases List.mem_cons.1 hmem with rfl | hmem
      · exact List.find?_cons_of_pos (beq_self_eq_true _)
      · -- The name of a later entry is not the first one, which does not occur again.
        have hne : ¬ (name == entry.1) = true := by
          intro heq
          have hno : rest.any (·.1 == name) = false := by simpa [Entries.has] using hkeyed.1.1
          exact List.any_eq_false.1 hno entry hmem (by rw [beq_iff_eq.1 heq, beq_self_eq_true])
        rw [List.find?_cons_of_neg (by simpa using hne), ih hkeyed.2 hmem]

theorem isKeyed_of_mem {entries : List (String × Value)} (hkeyed : isKeyedEntries entries = true)
    {entry : String × Value} (hmem : entry ∈ entries) : entry.2.isKeyed = true := by
  induction entries with
  | nil => exact absurd hmem List.not_mem_nil
  | cons first rest ih =>
      obtain ⟨name, v⟩ := first
      rw [isKeyedEntries, Bool.and_eq_true, Bool.and_eq_true] at hkeyed
      rcases List.mem_cons.1 hmem with rfl | hmem
      · exact hkeyed.1.2
      · exact ih hkeyed.2 hmem

theorem exists_dyadic?_finite (negative : Bool) (mantissa : Nat) (exponent : Int) :
    ∃ x, (Binary64.finite negative mantissa exponent).dyadic? = some x := by
  rw [Binary64.dyadic?]
  dsimp only
  split <;> exact ⟨_, rfl⟩

theorem sameNumber_self_finite (negative : Bool) (mantissa : Nat) (exponent : Int) :
    sameNumber (.float (.finite negative mantissa exponent))
      (.float (.finite negative mantissa exponent)) = true := by
  obtain ⟨x, hx⟩ := exists_dyadic?_finite negative mantissa exponent
  simp [sameNumber, number?, hx]

mutual

/-- A value is equal to itself, unless it is not a number outside of containers. -/
theorem agreesWithin_self : ∀ (inside : Bool) (v : Value), v.isKeyed = true →
    (inside = true ∨ v ≠ .float .nan) → agreesWithin inside v v = true
  | _, .null, _, _ => rfl
  | _, .bool b, _, _ => by simp [agreesWithin, sameNumber, number?]
  | _, .int i, _, _ => by simp [agreesWithin, sameNumber, number?]
  | inside, .float .nan, _, h => h.resolve_right fun hne => hne rfl
  | _, .float (.infinite negative), _, _ => by simp [agreesWithin, sameNumber]
  | _, .float (.finite negative mantissa exponent), _, _ =>
      sameNumber_self_finite negative mantissa exponent
  | _, .str s, _, _ => by simp [agreesWithin]
  | _, .moment m, _, _ => by simp [agreesWithin]
  | _, .node n, _, _ => by simp [agreesWithin]
  | _, .list items, hkeyed, _ => agreesList_self items hkeyed
  | _, .mapping entries, hkeyed, _ => by
      rw [agreesWithin, beq_self_eq_true, Bool.true_and]
      exact agreesEntries_self entries entries hkeyed fun _ => find?_of_isKeyedEntries hkeyed
  | _, .record type fields, hkeyed, _ => by
      rw [agreesWithin, beq_self_eq_true, beq_self_eq_true, Bool.true_and, Bool.true_and]
      exact agreesEntries_self fields fields hkeyed fun _ => find?_of_isKeyedEntries hkeyed

theorem agreesList_self : ∀ (items : List Value), isKeyedList items = true →
    agreesList items items = true
  | [], _ => rfl
  | v :: rest, hkeyed => by
      rw [isKeyedList, Bool.and_eq_true] at hkeyed
      rw [agreesList, agreesWithin_self true v hkeyed.1 (Or.inl rfl), agreesList_self rest hkeyed.2]
      rfl

/-- Entries agree with entries among which each of them is found. -/
theorem agreesEntries_self : ∀ (part all : List (String × Value)), isKeyedEntries part = true →
    (∀ entry ∈ part, all.find? (·.1 == entry.1) = some entry) → agreesEntries part all = true
  | [], _, _, _ => rfl
  | (name, v) :: rest, all, hkeyed, hfind => by
      rw [isKeyedEntries, Bool.and_eq_true, Bool.and_eq_true] at hkeyed
      have hrest := agreesEntries_self rest all hkeyed.2 fun entry hentry =>
        hfind entry (List.mem_cons_of_mem _ hentry)
      have hfirst := agreesWithin_self true v hkeyed.1.2 (Or.inl rfl)
      have hfound := hfind (name, v) List.mem_cons_self
      rw [agreesEntries, hrest, Bool.and_true]
      simp only [hfound, hfirst]

end

end Value

theorem Element.agrees_self {element : Element}
    (hkeyed : Value.isKeyedEntries element.fields = true) : element.agrees element = true := by
  rw [Element.agrees, beq_self_eq_true, Bool.true_and]
  exact Value.agreesWithin_self false (.mapping element.fields) hkeyed (Or.inr nofun)

/-- Entries of plain values: they refer to no nodes, each name occurs once, and none of them is not
a number. -/
structure Entries.Plain (entries : Entries) : Prop where
  noNodes : Value.nodesEntries entries = []
  keyed : Value.isKeyedEntries entries = true
  numbers : ∀ entry ∈ entries, entry.2 ≠ .float .nan

namespace Forest

/-- Plain metadata agree with themselves, however trees are compared. -/
theorem metadataAgree_self {entries : Entries} (h : entries.Plain)
    (trees : NodeId → NodeId → Bool) : metadataAgree trees entries entries = true := by
  rw [metadataAgree, beq_self_eq_true, Bool.true_and, List.all_eq_true]
  rintro ⟨name, v⟩ hmem
  have hagrees : v.agrees v = true :=
    Value.agreesWithin_self false v (Value.isKeyed_of_mem h.keyed hmem) (Or.inr (h.numbers _ hmem))
  have hfound : entries.get? name = some v := by
    rw [Entries.get?, Value.find?_of_isKeyedEntries h.keyed hmem]
    rfl
  simp only [hfound]
  split
  · have hnode := mem_nodesEntries_of_get? hfound List.mem_cons_self
    rw [h.noNodes] at hnode
    exact absurd hnode List.not_mem_nil
  · exact hagrees

variable {f g : Forest} {c n : NodeId}

theorem listsAgree_of_forall₂ {trees : NodeId → NodeId → Bool} {as bs : List NodeId}
    (h : List.Forall₂ (fun a b => trees a b = true) as bs) : listsAgree trees as bs = true := by
  induction h with
  | nil => rfl
  | cons hfirst _ ih => rw [listsAgree, hfirst, ih]; rfl

/-- Where data are plain, a tree that matches one that is still there is equal to it. -/
theorem MatchesWithin.agreeWithin {depth : Nat} (hf : f.WellFormed) (hsame : f.SameTree g n)
    (hfields : ∀ m, f.AtOrAbove n m → Value.isKeyedEntries (f.element m).fields = true)
    (hplain : ∀ m, f.AtOrAbove n m → (f.metadata m).Plain)
    (hmatch : f.MatchesWithin g depth n c) : g.agreeWithin true depth n c = true := by
  induction depth generalizing n c with
  | zero => rfl
  | succ depth ih =>
      obtain ⟨helement, hmetadata, hchildren⟩ := hmatch
      have hself := hplain n (.refl f n)
      have hlists : listsAgree (g.agreeWithin true depth) (f.children n) (g.children c) = true := by
        refine listsAgree_of_forall₂ (forall₂_imp_of_mem hchildren fun m hm k _ hmk => ?_)
        have hbelow {a : NodeId} (ha : f.AtOrAbove m a) : f.AtOrAbove n a :=
          ((hf.ancestor_of_mem hm).trans_atOrAbove ha).atOrAbove
        exact ih (hsame.child hf hm) (fun a ha => hfields a (hbelow ha))
          (fun a ha => hplain a (hbelow ha)) hmk
      rw [Forest.agreeWithin, hsame.element_eq, helement, hsame.metadata_eq,
        hmetadata hself.noNodes,
        hsame.children_eq, hlists, metadataAgree_self hself,
        Element.agrees_self (hfields n (.refl f n))]
      rfl

end Forest

end MarkdownTree
