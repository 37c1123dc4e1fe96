import MarkdownTree.Proofs.Counterparts

/-!
Trees of one shape that say different things. The same steps lead to nodes of the same kind with the
same fields, except that the titles of admonitions and the texts of texts and codes may be any. What
is computed from such trees goes alongside: both results are faults, or both are values that are
alike.
-/

namespace MarkdownTree

/-- Two results are both faults, or both values that are related. -/
inductive Alongside {ε α β : Type} (R : α → β → Prop) : Except ε α → Except ε β → Prop
  | ok {a : α} {b : β} (h : R a b) : Alongside R (.ok a) (.ok b)
  | error (e e' : ε) : Alongside R (.error e) (.error e')

namespace Alongside

variable {ε α β γ δ : Type} {R : α → β → Prop} {S : γ → δ → Prop} {x : Except ε α} {y : Except ε β}

/-- Computations that go on from results alongside are alongside, if they are from related
values. -/
theorem bind {k : α → Except ε γ} {l : β → Except ε δ} (h : Alongside R x y)
    (hrest : ∀ a b, x = .ok a → R a b → Alongside S (k a) (l b)) :
    Alongside S (x >>= k) (y >>= l) := by
  cases h with
  | ok hab => exact hrest _ _ rfl hab
  | error e e' => exact .error e e'

theorem allOk {xs : List (Except TreeFault α)} {ys : List (Except TreeFault β)}
    (h : List.Forall₂ (Alongside R) xs ys) :
    Alongside (List.Forall₂ R) (Forest.allOk xs) (Forest.allOk ys) := by
  induction h with
  | nil => exact .ok .nil
  | cons hxy _ ih =>
      exact hxy.bind fun a b _ hab => ih.bind fun as bs _ habs => .ok (.cons hab habs)

end Alongside

namespace Forest

variable {f f' : Forest} {n n' root root' : NodeId} {e e' : Element}

/-- The field of an element that is written by whoever writes the document. -/
def proseField? : Kind → Option String
  | .admonition => some "title"
  | .text => some "text"
  | .code => some "code"
  | _ => none

/-- Two elements are the same but for what is written: their kinds are the same, and so are their
fields, except that the written one may hold any two texts. -/
structure SameButProse (e e' : Element) : Prop where
  kind_eq : e'.kind = e.kind
  field (name : String) : e'.get? name = e.get? name ∨
    proseField? e.kind = some name ∧
      ∃ s s', e.get? name = some (.str s) ∧ e'.get? name = some (.str s')

theorem SameButProse.symm (h : SameButProse e e') : SameButProse e' e where
  kind_eq := h.kind_eq.symm
  field name := by
    rcases h.field name with heq | ⟨hname, s, s', hs, hs'⟩
    · exact Or.inl heq.symm
    · exact Or.inr ⟨h.kind_eq ▸ hname, s', s, hs', hs⟩

/-- Two values are the same, or both are texts. -/
def SameButText (v w : Value) : Prop :=
  w = v ∨ ∃ s t, v = .str s ∧ w = .str t

theorem SameButProse.getD (h : SameButProse e e') (name : String) :
    SameButText ((e.get? name).getD .null) ((e'.get? name).getD .null) := by
  rcases h.field name with heq | ⟨-, s, s', hs, hs'⟩
  · exact Or.inl (by rw [heq])
  · exact Or.inr ⟨s, s', by rw [hs]; rfl, by rw [hs']; rfl⟩

theorem SameButProse.ownText? (h : SameButProse e e') :
    Option.Rel SameButText (ownText? e) (ownText? e') := by
  unfold Forest.ownText?
  rw [h.kind_eq]
  split
  · exact .some (h.getD "text")
  · exact .some (h.getD "code")
  · exact .none

/-- Two trees have the same shape and differ in what is written only. -/
structure SameShape (f f' : Forest) (root root' : NodeId) : Prop where
  element (n n' : NodeId) (hn : Counterpart f f' root root' n n') :
    SameButProse (f.element n) (f'.element n')
  length_children (n n' : NodeId) (hn : Counterpart f f' root root' n n') :
    (f'.children n').length = (f.children n).length

namespace SameShape

theorem symm (h : SameShape f f' root root') : SameShape f' f root' root where
  element n n' hn := (h.element n' n hn.symm).symm
  length_children n n' hn := (h.length_children n' n hn.symm).symm

variable (h : SameShape f f' root root')

include h

/-- The children of counterparts are counterparts, one by one. -/
theorem children (hn : Counterpart f f' root root' n n') :
    List.Forall₂ (Counterpart f f' root root') (f.children n) (f'.children n') := by
  refine List.forall₂_iff_get.2 ⟨(h.length_children n n' hn).symm, fun i hi hi' => ?_⟩
  exact .child hn (List.getElem?_eq_getElem hi) (List.getElem?_eq_getElem hi')

theorem kind_eq (hn : Counterpart f f' root root' n n') : f'.kind n' = f.kind n :=
  (h.element n n' hn).kind_eq

end SameShape

theorem joinTexts_alongside {values values' : List Value}
    (h : List.Forall₂ SameButText values values') (position : Nat) :
    Alongside (fun _ _ => True) (joinTexts position values) (joinTexts position values') := by
  induction h generalizing position with
  | nil => exact .ok trivial
  | @cons v w values values' hvw _ ih =>
      rcases hvw with rfl | ⟨s, t, rfl, rfl⟩
      · cases w with
        | str s => exact (ih (position + 1)).bind fun _ _ _ _ => .ok trivial
        | _ => exact .error _ _
      · exact (ih (position + 1)).bind fun _ _ _ _ => .ok trivial

/-- The texts of counterparts are both texts, or equal values, or neither exists. -/
theorem SameShape.plainText_alongside (h : SameShape f f' root root') (hf : f.WellFormed)
    (hf' : f'.WellFormed) (hn : Counterpart f f' root root' n n') :
    Alongside SameButText (f.plainText n) (f'.plainText n') := by
  induction n using hf.down_induction generalizing n' with
  | h n ih =>
      have hown := (h.element n n' hn).ownText?
      rw [hf.plainText_eq, hf'.plainText_eq]
      generalize ownText? (f.element n) = own, ownText? (f'.element n') = own' at hown
      cases hown with
      | some hvw => exact .ok hvw
      | none =>
          have hparts : List.Forall₂ (Alongside SameButText) ((f.children n).map f.plainText)
              ((f'.children n').map f'.plainText) := by
            refine List.forall₂_map_left_iff.2 (List.forall₂_map_right_iff.2 ?_)
            exact forall₂_imp_of_mem (h.children hn) fun c hc c' _ hcc => ih c hc hcc
          refine (Alongside.allOk hparts).bind fun values values' _ hvalues => ?_
          refine (joinTexts_alongside hvalues 0).bind fun s t _ _ => .ok ?_
          exact Or.inr ⟨s, t, rfl, rfl⟩

end Forest

end MarkdownTree
