import Mathlib.Data.List.Perm.Subperm
import MarkdownTree.Proofs.EqualTrees

/-!
Equality of values is symmetric and transitive, across the types of numbers. What is no container is
compared by a mark, which two equal values share. Entries are compared by looking up the names of
one side on the other, so that the order of two dictionaries does not matter; with as many names on
either side, and each of them once, the other direction finds the same entries.
-/

namespace MarkdownTree

theorem forall₂_swap {α : Type} {R S : α → α → Prop} {xs ys : List α} (h : List.Forall₂ R xs ys)
    (himp : ∀ x ∈ xs, ∀ y ∈ ys, R x y → S y x) : List.Forall₂ S ys xs :=
  (Forest.forall₂_imp_of_mem h himp).flip

theorem forall₂_trans {α : Type} {R S T : α → α → Prop} {xs ys zs : List α}
    (h : List.Forall₂ R xs ys) (h' : List.Forall₂ S ys zs)
    (himp : ∀ x ∈ xs, ∀ y z, R x y → S y z → T x z) : List.Forall₂ T xs zs := by
  induction h generalizing zs with
  | nil => cases h'; exact .nil
  | cons hxy _ ih =>
      cases h' with
      | cons hyz hrest =>
          refine .cons (himp _ List.mem_cons_self _ _ hxy hyz) (ih hrest fun x hx => ?_)
          exact himp x (List.mem_cons_of_mem _ hx)

namespace Entries

variable {R S T : Value → Value → Prop} {xs ys zs : Entries} {name : String} {v : Value}

/-- As many entries, and a related value under each name. -/
def Related (R : Value → Value → Prop) (xs ys : Entries) : Prop :=
  xs.length = ys.length ∧ ∀ entry ∈ xs, ∃ w, ys.get? entry.1 = some w ∧ R entry.2 w

theorem get?_of_isKeyed (hxs : Value.isKeyedEntries xs = true) {entry : String × Value}
    (hmem : entry ∈ xs) : xs.get? entry.1 = some entry.2 := by
  rw [get?, Value.find?_of_isKeyedEntries hxs hmem]
  rfl

theorem mem_of_get?_eq (h : xs.get? name = some v) : (name, v) ∈ xs := by
  rw [get?, Option.map_eq_some_iff] at h
  obtain ⟨⟨key, w⟩, hfind, rfl⟩ := h
  obtain rfl : key = name := by simpa using List.find?_some hfind
  exact List.mem_of_find?_eq_some hfind

theorem nodup_names_of_isKeyed (hxs : Value.isKeyedEntries xs = true) : xs.names.Nodup := by
  induction xs with
  | nil => exact List.nodup_nil
  | cons entry xs ih =>
      obtain ⟨name, v⟩ := entry
      rw [Value.isKeyedEntries, Bool.and_eq_true, Bool.and_eq_true] at hxs
      refine List.nodup_cons.2 ⟨fun hmem => ?_, ih hxs.2⟩
      obtain ⟨other, hother, heq⟩ := List.mem_map.1 hmem
      have hhas : has xs name = true :=
        List.any_eq_true.2 ⟨other, hother, by rw [heq, beq_self_eq_true]⟩
      rw [hhas] at hxs
      exact absurd hxs.1.1 Bool.false_ne_true

namespace Related

theorem refl (hxs : Value.isKeyedEntries xs = true) (h : ∀ entry ∈ xs, R entry.2 entry.2) :
    Related R xs xs :=
  ⟨rfl, fun entry hentry => ⟨entry.2, get?_of_isKeyed hxs hentry, h entry hentry⟩⟩

theorem imp (h : Related R xs ys)
    (himp : ∀ x ∈ xs, ∀ y ∈ ys, R x.2 y.2 → S x.2 y.2) : Related S xs ys := by
  refine ⟨h.1, fun x hx => ?_⟩
  obtain ⟨w, hw, hR⟩ := h.2 x hx
  exact ⟨w, hw, himp x hx (x.1, w) (mem_of_get?_eq hw) hR⟩

theorem perm_names (hxs : Value.isKeyedEntries xs = true) (h : Related R xs ys) :
    xs.names.Perm ys.names := by
  have hsub : xs.names ⊆ ys.names := by
    intro name hname
    obtain ⟨x, hx, rfl⟩ := List.mem_map.1 hname
    obtain ⟨w, hw, -⟩ := h.2 x hx
    exact List.mem_map.2 ⟨(x.1, w), mem_of_get?_eq hw, rfl⟩
  refine (List.subperm_of_subset (nodup_names_of_isKeyed hxs) hsub).perm_of_length_le ?_
  rw [names, names, List.length_map, List.length_map]
  exact Nat.le_of_eq h.1.symm

/-- No name is left over on the other side. -/
theorem symm (hxs : Value.isKeyedEntries xs = true) (hys : Value.isKeyedEntries ys = true)
    (h : Related R xs ys) (himp : ∀ x ∈ xs, ∀ y ∈ ys, R x.2 y.2 → S y.2 x.2) :
    Related S ys xs := by
  refine ⟨h.1.symm, fun y hy => ?_⟩
  have hname : y.1 ∈ xs.names := (h.perm_names hxs).mem_iff.2 (List.mem_map_of_mem hy)
  obtain ⟨x, hx, heq⟩ := List.mem_map.1 hname
  obtain ⟨w, hw, hR⟩ := h.2 x hx
  rw [heq, get?_of_isKeyed hys hy] at hw
  obtain rfl := Option.some.inj hw
  exact ⟨x.2, by rw [← heq, get?_of_isKeyed hxs hx], himp x hx y hy hR⟩

theorem trans (h : Related R xs ys) (h' : Related S ys zs)
    (himp : ∀ x ∈ xs, ∀ y ∈ ys, ∀ z ∈ zs, R x.2 y.2 → S y.2 z.2 → T x.2 z.2) :
    Related T xs zs := by
  refine ⟨h.1.trans h'.1, fun x hx => ?_⟩
  obtain ⟨v, hv, hR⟩ := h.2 x hx
  obtain ⟨w, hw, hS⟩ := h'.2 (x.1, v) (mem_of_get?_eq hv)
  exact ⟨w, hw, himp x hx (x.1, v) (mem_of_get?_eq hv) (x.1, w) (mem_of_get?_eq hw) hR hS⟩

end Related

end Entries

namespace Value

variable {a b c : Value} {inside : Bool}

def isContainer : Value → Bool
  | .list _ | .mapping _ | .record _ _ => true
  | _ => false

/-- What values are compared by that are no containers. -/
inductive Mark where
  | null
  | nan
  | infinite (negative : Bool)
  | exact (number : Int × Nat)
  | str (s : String)
  | moment (m : Moment)
  | node (id : NodeId)

/-- The mark of a value that is no container. What is not a number has none, except inside of a
container. -/
def mark? (inside : Bool) : Value → Option Mark
  | .null => some .null
  | .str s => some (.str s)
  | .moment m => some (.moment m)
  | .node id => some (.node id)
  | .float .nan => if inside then some .nan else none
  | .float (.infinite negative) => some (.infinite negative)
  | v => v.number?.map .exact

theorem mark?_eq_exact_iff {x : Int × Nat} :
    b.mark? inside = some (.exact x) ↔ b.number? = some x := by
  cases b with
  | float y => cases y <;> simp [mark?, number?, Binary64.dyadic?]
  | _ => simp [mark?, number?]

/-- A number is equal to what denotes the same number, whatever the types are. -/
theorem agreesWithin_number {x : Int × Nat} (ha : a.number? = some x) :
    agreesWithin inside a b = true ↔ b.number? = some x := by
  have hsame : agreesWithin inside a b = sameNumber a b := by
    cases a with
    | bool p => rfl
    | int i => rfl
    | float y =>
        cases y with
        | finite negative mantissa exponent => rfl
        | _ => cases ha
    | _ => cases ha
  rw [hsame, sameNumber, ha]
  · cases b.number? with
    | none => simp
    | some y => simpa using eq_comm
  · intro negative _ heq
    rw [heq] at ha
    cases ha

theorem agreesWithin_iff_mark? (ha : a.isContainer = false) :
    agreesWithin inside a b = true ↔ a.mark? inside ≠ none ∧ a.mark? inside = b.mark? inside := by
  rcases hnumber : a.number? with _ | x
  · -- Nothing but a number denotes one, so neither side holds if `b` does.
    have hfinite (negative : Bool) (mantissa : Nat) (exponent : Int) :
        a ≠ .float (.finite negative mantissa exponent) := by
      rintro rfl
      obtain ⟨x, hx⟩ := exists_dyadic?_finite negative mantissa exponent
      rw [number?, hx] at hnumber
      cases hnumber
    cases b with
    | float y =>
        cases y with
        | finite negative mantissa exponent =>
            obtain ⟨y, hy⟩ := exists_dyadic?_finite negative mantissa exponent
            cases a with
            | float x => cases x <;> simp_all [agreesWithin, sameNumber, number?, mark?]
            | _ => simp_all [agreesWithin, sameNumber, number?, mark?, isContainer]
        | _ =>
            cases a with
            | float x => cases x <;> simp_all [agreesWithin, sameNumber, number?, mark?]
            | _ => simp_all [agreesWithin, sameNumber, number?, mark?, isContainer]
    | _ =>
      cases a with
      | float x => cases x <;> simp_all [agreesWithin, sameNumber, number?, mark?]
      | _ => simp_all [agreesWithin, sameNumber, number?, mark?, isContainer]
  · have hmark : a.mark? inside = some (.exact x) := mark?_eq_exact_iff.2 hnumber
    have hother : b.mark? inside = some (.exact x) ↔ b.number? = some x := mark?_eq_exact_iff
    rw [agreesWithin_number hnumber, ← hother, hmark, and_iff_right (Option.some_ne_none _)]
    exact eq_comm

theorem isContainer_of_mark? (h : b.mark? inside ≠ none) : b.isContainer = false := by
  cases b <;> first | rfl | exact absurd rfl h

theorem agreesWithin_node {id : NodeId} :
    agreesWithin inside (.node id) b = true ↔ b = .node id := by
  cases b with
  | node other => simpa [agreesWithin] using eq_comm
  | _ => simp [agreesWithin, sameNumber, number?]

theorem eq_of_agreesWithin_node {id : NodeId} (h : agreesWithin inside a (.node id) = true) :
    a = .node id := by
  cases a with
  | float x => cases x <;> simp [agreesWithin, sameNumber, number?] at h
  | _ => simp_all [agreesWithin, sameNumber, number?]

theorem isKeyed_of_mem_list {items : List Value} (hkeyed : isKeyedList items = true)
    (hmem : c ∈ items) : c.isKeyed = true := by
  induction items with
  | nil => exact absurd hmem List.not_mem_nil
  | cons v rest ih =>
      rw [isKeyedList, Bool.and_eq_true] at hkeyed
      rcases List.mem_cons.1 hmem with rfl | hmem
      · exact hkeyed.1
      · exact ih hkeyed.2 hmem

theorem agreesList_iff {xs ys : List Value} :
    agreesList xs ys = true ↔ List.Forall₂ (fun x y => agreesWithin true x y = true) xs ys := by
  induction xs generalizing ys with
  | nil => cases ys <;> simp [agreesList]
  | cons x xs ih => cases ys <;> simp [agreesList, ih]

theorem agreesEntries_iff {xs ys : Entries} : agreesEntries xs ys = true ↔
    ∀ entry ∈ xs, ∃ w, ys.get? entry.1 = some w ∧ agreesWithin true entry.2 w = true := by
  induction xs with
  | nil => simp [agreesEntries]
  | cons entry xs ih =>
      obtain ⟨name, v⟩ := entry
      rw [agreesEntries, Bool.and_eq_true, ih, List.forall_mem_cons]
      refine and_congr_left' ?_
      rw [Entries.get?]
      cases ys.find? (·.1 == name) <;> simp

theorem agreesWithin_list {xs : List Value} : agreesWithin inside (.list xs) b = true ↔
    ∃ ys, b = .list ys ∧ List.Forall₂ (fun x y => agreesWithin true x y = true) xs ys := by
  cases b <;> simp [agreesWithin, agreesList_iff, sameNumber, number?]

theorem agreesWithin_mapping {xs : Entries} : agreesWithin inside (.mapping xs) b = true ↔
    ∃ ys, b = .mapping ys ∧ Entries.Related (fun x y => agreesWithin true x y = true) xs ys := by
  cases b <;> simp [agreesWithin, agreesEntries_iff, Entries.Related, sameNumber, number?]

theorem agreesWithin_record {type : RecordType} {xs : Entries} :
    agreesWithin inside (.record type xs) b = true ↔
      ∃ ys, b = .record type ys ∧
        Entries.Related (fun x y => agreesWithin true x y = true) xs ys := by
  cases b with
  | record other ys =>
      have htype : type = other ↔ other = type := eq_comm
      simp [agreesWithin, agreesEntries_iff, Entries.Related, htype, and_assoc]
  | _ => simp [agreesWithin, sameNumber, number?]

theorem sizeOf_lt_of_mem_entries {entries : Entries} {entry : String × Value}
    (h : entry ∈ entries) : sizeOf entry.2 < sizeOf entries := by
  have hlt := List.sizeOf_lt_of_mem h
  have hvalue : sizeOf entry = 1 + sizeOf entry.1 + sizeOf entry.2 := rfl
  omega

/-- What holds of a value if it does of the values in it, holds of every value. -/
theorem nested_induction {P : Value → Prop} (plain : ∀ v, v.isContainer = false → P v)
    (list : ∀ items, (∀ v ∈ items, P v) → P (.list items))
    (mapping : ∀ entries, (∀ entry ∈ entries, P entry.2) → P (.mapping entries))
    (record : ∀ type fields, (∀ entry ∈ fields, P entry.2) → P (.record type fields)) :
    ∀ v, P v
  | .list items => list items fun v _hv => nested_induction plain list mapping record v
  | .mapping entries => mapping entries fun entry _hentry =>
      nested_induction plain list mapping record entry.2
  | .record type fields => record type fields fun entry _hentry =>
      nested_induction plain list mapping record entry.2
  | .null | .bool _ | .int _ | .float _ | .str _ | .moment _ | .node _ => plain _ rfl
termination_by v => sizeOf v
decreasing_by
  · have hlt := List.sizeOf_lt_of_mem _hv
    simp only [Value.list.sizeOf_spec]
    omega
  · have hlt := sizeOf_lt_of_mem_entries _hentry
    simp only [Value.mapping.sizeOf_spec]
    omega
  · have hlt := sizeOf_lt_of_mem_entries _hentry
    simp only [Value.record.sizeOf_spec]
    omega

/-- Equal values are equal the other way round. -/
theorem agreesWithin_symm (h : agreesWithin inside a b = true) (ha : a.isKeyed = true)
    (hb : b.isKeyed = true) : agreesWithin inside b a = true := by
  induction a using nested_induction generalizing inside b with
  | plain a hplain =>
      obtain ⟨hmark, heq⟩ := (agreesWithin_iff_mark? hplain).1 h
      have hb := isContainer_of_mark? (heq ▸ hmark)
      exact (agreesWithin_iff_mark? hb).2 ⟨heq ▸ hmark, heq.symm⟩
  | list xs ih =>
      obtain ⟨ys, rfl, hys⟩ := agreesWithin_list.1 h
      refine agreesWithin_list.2 ⟨xs, rfl, forall₂_swap hys fun x hx y hy hxy => ?_⟩
      exact ih x hx hxy (isKeyed_of_mem_list ha hx) (isKeyed_of_mem_list hb hy)
  | mapping xs ih =>
      obtain ⟨ys, rfl, hys⟩ := agreesWithin_mapping.1 h
      refine agreesWithin_mapping.2 ⟨xs, rfl, hys.symm ha hb fun x hx y hy hxy => ?_⟩
      exact ih x hx hxy (isKeyed_of_mem ha hx) (isKeyed_of_mem hb hy)
  | record type xs ih =>
      obtain ⟨ys, rfl, hys⟩ := agreesWithin_record.1 h
      refine agreesWithin_record.2 ⟨xs, rfl, hys.symm ha hb fun x hx y hy hxy => ?_⟩
      exact ih x hx hxy (isKeyed_of_mem ha hx) (isKeyed_of_mem hb hy)

theorem agreesWithin_trans (h : agreesWithin inside a b = true)
    (h' : agreesWithin inside b c = true) : agreesWithin inside a c = true := by
  induction a using nested_induction generalizing inside b c with
  | plain a hplain =>
      obtain ⟨hmark, heq⟩ := (agreesWithin_iff_mark? hplain).1 h
      have hb := isContainer_of_mark? (heq ▸ hmark)
      have heq' := ((agreesWithin_iff_mark? hb).1 h').2
      exact (agreesWithin_iff_mark? hplain).2 ⟨hmark, heq.trans heq'⟩
  | list xs ih =>
      obtain ⟨ys, rfl, hys⟩ := agreesWithin_list.1 h
      obtain ⟨zs, rfl, hzs⟩ := agreesWithin_list.1 h'
      exact agreesWithin_list.2 ⟨zs, rfl, forall₂_trans hys hzs fun x hx _ _ => ih x hx⟩
  | mapping xs ih =>
      obtain ⟨ys, rfl, hys⟩ := agreesWithin_mapping.1 h
      obtain ⟨zs, rfl, hzs⟩ := agreesWithin_mapping.1 h'
      exact agreesWithin_mapping.2 ⟨zs, rfl, hys.trans hzs fun x hx _ _ _ _ => ih x hx⟩
  | record type xs ih =>
      obtain ⟨ys, rfl, hys⟩ := agreesWithin_record.1 h
      obtain ⟨zs, rfl, hzs⟩ := agreesWithin_record.1 h'
      exact agreesWithin_record.2 ⟨zs, rfl, hys.trans hzs fun x hx _ _ _ _ => ih x hx⟩

end Value

end MarkdownTree
