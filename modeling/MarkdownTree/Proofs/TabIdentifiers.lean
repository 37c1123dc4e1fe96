import Mathlib.Data.List.Chain
import Mathlib.Data.List.DropRight
import MarkdownTree.Tabs.Identifier

/-!
The form of tab identifiers. What is left of a title has no two dashes in a row and, once stripped,
none at either end; all of this survives a cut, except that the cut itself can come right after a
dash. The stripping is done before the cut, so the identifier of a long title can end with one.
-/

namespace MarkdownTree.Tabs

variable {s : List Char} {c : Char}

/-- Not both of two neighbours are dashes. -/
def NotBothDashes (c d : Char) : Prop :=
  ¬ (c = '-' ∧ d = '-')

theorem mem_joinWithDashes (h : c ∈ joinWithDashes s) :
    c = '-' ∨ c ∈ s ∧ Text.isBlank c = false := by
  induction s with
  | nil => simp [joinWithDashes] at h
  | cons d rest ih =>
    have hmore (h : c ∈ joinWithDashes rest) : c = '-' ∨ c ∈ d :: rest ∧ Text.isBlank c = false :=
      (ih h).imp_right fun ⟨hmem, hblank⟩ => ⟨List.mem_cons_of_mem d hmem, hblank⟩
    rw [joinWithDashes] at h
    split at h
    · split at h
      · exact hmore h
      · exact (List.mem_cons.mp h).elim .inl hmore
    · rename_i hd
      rw [not_or, Bool.not_eq_true] at hd
      rcases List.mem_cons.mp h with rfl | h
      · exact .inr ⟨List.mem_cons_self, hd.2⟩
      · exact hmore h

/-- A dash is put before what follows only if that does not begin with one. -/
theorem notBothDashes_joinWithDashes (s : List Char) :
    (joinWithDashes s).IsChain NotBothDashes := by
  induction s with
  | nil => exact .nil
  | cons d rest ih =>
    rw [joinWithDashes]
    split
    · split
      · exact ih
      · rename_i hfirst
        refine List.isChain_cons.mpr ⟨fun e he ⟨_, hdash⟩ => ?_, ih⟩
        obtain ⟨more, hmore⟩ := List.head?_eq_some_iff.mp (hdash ▸ he)
        exact hfirst more hmore
    · rename_i hd
      exact List.isChain_cons.mpr ⟨fun e _ ⟨hdash, _⟩ => hd (.inl hdash), ih⟩

theorem isInfix_stripDashes (s : List Char) : stripDashes s <:+: s :=
  (List.rdropWhile_prefix _ _).isInfix.trans (List.dropWhile_suffix _).isInfix

theorem head?_stripDashes (s : List Char) : (stripDashes s).head? ≠ some '-' := by
  intro h
  have hcut : stripDashes s <+: s.dropWhile (· == '-') := List.rdropWhile_prefix _ _
  have hhead : (s.dropWhile (· == '-')).head? = some '-' := by
    obtain ⟨more, hmore⟩ := hcut
    rw [← hmore, List.head?_append, h, Option.some_or]
  have := List.head?_dropWhile_not (· == '-') s
  rw [hhead] at this
  simp at this

theorem getLast?_stripDashes (s : List Char) : (stripDashes s).getLast? ≠ some '-' := by
  intro h
  have hne : stripDashes s ≠ [] := by
    intro hnil
    simp [hnil] at h
  have hlast : (stripDashes s).getLast hne = '-' := by
    rwa [List.getLast?_eq_some_getLast hne, Option.some.injEq] at h
  exact List.rdropWhile_last_not (· == '-') _ hne (beq_iff_eq.mpr hlast)

/-- A text that ends otherwise can only get a last character by a cut right after it. -/
theorem getLast?_take_eq_some_iff {n : Nat} (hn : 0 < n) (hlast : s.getLast? ≠ some c) :
    (s.take n).getLast? = some c ↔ s[n - 1]? = some c := by
  rcases Nat.lt_or_ge (n - 1) s.length with hlong | hshort
  · rw [List.getLast?_take, if_neg (by omega), List.getElem?_eq_getElem hlong, Option.some_or]
  · rw [List.take_of_length_le (by omega), List.getElem?_eq_none hshort]
    simp [hlast]

def uncutBody (title : List Char) : List Char :=
  stripDashes (joinWithDashes ((Text.lower title).filter isKept))

theorem mem_uncutBody {title : List Char} (h : c ∈ uncutBody title) :
    Text.isWord c = true ∨ c = '-' := by
  rcases mem_joinWithDashes ((isInfix_stripDashes _).subset h) with rfl | ⟨hmem, hblank⟩
  · exact .inr rfl
  · have hkept : isKept c = true := (List.mem_filter.mp hmem).2
    simpa [isKept, hblank] using hkept

theorem notBothDashes_uncutBody (title : List Char) : (uncutBody title).IsChain NotBothDashes :=
  List.IsChain.infix (notBothDashes_joinWithDashes _) (isInfix_stripDashes _)

/-- An identifier is its mark and a body of at most fifty characters, all of them word characters or
dashes, with no dash after another and none at the start. A dash stands at the end just if the
fiftieth character of the uncut body is one. -/
theorem identifier_form (title : String) :
    ∃ body, (identifier title).toList = ['t', 'a', 'b', '-'] ++ body ∧
      body = (uncutBody title.toList).take 50 ∧
      body.length ≤ 50 ∧
      (∀ c ∈ body, Text.isWord c = true ∨ c = '-') ∧
      ¬ ['-', '-'] <:+: body ∧
      body.head? ≠ some '-' ∧
      (body.getLast? = some '-' ↔ (uncutBody title.toList)[49]? = some '-') := by
  have hcut : (uncutBody title.toList).take 50 <+: uncutBody title.toList := List.take_prefix _ _
  refine ⟨(uncutBody title.toList).take 50, by rw [identifier, String.toList_ofList]; rfl, rfl,
    List.length_take_le _ _, fun c hc => mem_uncutBody (hcut.subset hc), fun hpair => ?_, ?_,
    getLast?_take_eq_some_iff (by decide) (getLast?_stripDashes _)⟩
  · have hchain := List.IsChain.infix (notBothDashes_uncutBody title.toList)
      (hpair.trans hcut.isInfix)
    exact List.isChain_pair.mp hchain ⟨rfl, rfl⟩
  · rw [List.head?_take, if_neg (by decide)]
    exact head?_stripDashes _

/-- The identifier of forty-nine letters, a blank and one more letter ends with a dash. -/
theorem identifier_ends_with_dash :
    ¬ ∀ title : String, ∃ body, (identifier title).toList = ['t', 'a', 'b', '-'] ++ body ∧
      body.length ≤ 50 ∧
      (∀ c ∈ body, Text.isWord c = true ∨ c = '-') ∧
      ¬ ['-', '-'] <:+: body ∧
      body.head? ≠ some '-' ∧
      body.getLast? ≠ some '-' := by
  intro h
  obtain ⟨body, hbody, -, -, -, -, hlast⟩ := h (String.ofList (List.replicate 49 'x' ++ [' ', 'y']))
  have hends : (identifier (String.ofList (List.replicate 49 'x' ++ [' ', 'y']))).toList =
      ['t', 'a', 'b', '-'] ++ (List.replicate 49 'x' ++ ['-']) := by
    decide +kernel
  obtain rfl : body = List.replicate 49 'x' ++ ['-'] :=
    (List.append_cancel_left (hbody.symm.trans hends))
  exact hlast (by simp)

end MarkdownTree.Tabs
