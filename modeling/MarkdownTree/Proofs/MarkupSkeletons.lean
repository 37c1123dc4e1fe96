import MarkdownTree.Proofs.EscapedText
import MarkdownTree.Proofs.TabIdentifiers
import MarkdownTree.Tabs.Stash

/-!
Markup without its texts: the angle brackets and the double quotes, which tags and attributes are
made of. An escaped text has none of them, and neither has an identifier, which stands in attributes
as it is. So the markup of tabs has the same ones whatever the labels and titles say.
-/

namespace MarkdownTree

namespace Markup

/-- The characters that tags and attributes begin and end with. -/
def delimiters : List Char := ['<', '>', '"']

def skeleton (s : String) : List Char :=
  s.toList.filter (· ∈ delimiters)

theorem skeleton_append (s t : String) : skeleton (s ++ t) = skeleton s ++ skeleton t := by
  rw [skeleton, String.toList_append, List.filter_append]
  rfl

theorem skeleton_eq_nil_iff {s : String} :
    skeleton s = [] ↔ ∀ c ∈ s.toList, c ∉ delimiters := by
  simp [skeleton, List.filter_eq_nil_iff]

theorem mem_delimiters_iff {c : Char} : c ∈ delimiters ↔ c = '<' ∨ c = '>' ∨ c = '"' := by
  simp [delimiters]

/-- An escaped text brings no delimiter in. -/
theorem skeleton_escape (s : String) : skeleton (escape s) = [] := by
  rw [skeleton_eq_nil_iff, toList_escape]
  intro c hc hd
  have hescaped : c ∈ escapedChars ∧ c ≠ '&' := by
    rcases mem_delimiters_iff.1 hd with rfl | rfl | rfl <;> decide
  exact not_mem_escapeEach hescaped.1 hescaped.2 _ hc

end Markup

namespace Tabs

open Markup

/-- No delimiter is a word character or a dash. -/
theorem not_isWord_of_mem_delimiters {c : Char} (h : c ∈ delimiters) :
    Text.isWord c = false ∧ c ≠ '-' := by
  rcases mem_delimiters_iff.1 h with rfl | rfl | rfl <;> decide +kernel

/-- An identifier brings no delimiter in, though it is not escaped. -/
theorem skeleton_identifier (title : String) : skeleton (identifier title) = [] := by
  rw [skeleton_eq_nil_iff, identifier, String.toList_ofList]
  intro c hc hd
  rcases List.mem_append.1 hc with hmark | hbody
  · revert hmark
    rcases mem_delimiters_iff.1 hd with rfl | rfl | rfl <;> decide
  · obtain ⟨hword, hdash⟩ := not_isWord_of_mem_delimiters hd
    have huncut : c ∈ uncutBody title.toList := List.mem_of_mem_take hbody
    rcases mem_uncutBody huncut with htrue | heq
    · rw [hword] at htrue
      cases htrue
    · exact hdash heq

/-- A button has the delimiters of its tags and of its label. -/
theorem Marker.skeleton_button {l l' : String} (i : Nat) (h : skeleton l = skeleton l') :
    skeleton (Marker.button i l).text = skeleton (Marker.button i l').text := by
  have htext (l : String) : (Marker.button i l).text =
      "<button class=\"doc-tabs__label\" data-tab=\"" ++ toString i ++ "\">" ++ l ++
      "</button>" := rfl
  rw [htext, htext]
  simp only [skeleton_append, h]

/-- The block of a tab has the same delimiters under any title. -/
theorem Stash.skeleton_markup (title title' group : String) (checked : Bool) :
    skeleton (Stash.markup title (identifier title) group checked) =
      skeleton (Stash.markup title' (identifier title') group checked) := by
  unfold Stash.markup
  simp only [skeleton_append, skeleton_identifier, skeleton_escape]

end Tabs

end MarkdownTree
