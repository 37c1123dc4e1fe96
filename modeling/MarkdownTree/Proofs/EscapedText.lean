import Mathlib.Data.List.Basic
import MarkdownTree.Tabs.Escape

/-!
Escaped text. The replacements are made over the whole text one after the other, and each meets the
entities that the earlier ones have put in; since the ampersand comes first, they come to the same
as escaping every character once. So an escaped text has no character with a meaning in markup but
the ampersands of its entities, and read from left to right it gives the text back.
-/

namespace MarkdownTree.Markup

variable {c d : Char}

/-- A character with a meaning in markup is written as an entity, which begins with its only
ampersand; any other is written as itself. -/
theorem escapeChar_cases (c : Char) :
    (∃ rest, entity? c = some ('&' :: rest) ∧ escapeChar c = '&' :: rest ∧ '&' ∉ rest) ∨
      c ∉ escapedChars ∧ escapeChar c = [c] := by
  by_cases hc : c ∈ escapedChars
  · left
    simp only [escapedChars, List.mem_cons, List.not_mem_nil, or_false] at hc
    rcases hc with rfl | rfl | rfl | rfl | rfl <;> exact ⟨_, rfl, rfl, by decide⟩
  · right
    refine ⟨hc, ?_⟩
    simp only [escapedChars, List.mem_cons, List.not_mem_nil, or_false, not_or] at hc
    simp [escapeChar, entity?, hc]

theorem escapeChar_of_not_mem (hc : c ∉ escapedChars) : escapeChar c = [c] := by
  rcases escapeChar_cases c with ⟨rest, hentity, -, -⟩ | ⟨-, hself⟩
  · simp only [escapedChars, List.mem_cons, List.not_mem_nil, or_false, not_or] at hc
    simp [entity?, hc] at hentity
  · exact hself

/-- What a character is written as holds none of the characters with a meaning in markup, except for
the ampersand. -/
theorem not_mem_escapeChar (hd : d ∈ escapedChars) (hne : d ≠ '&') (c : Char) :
    d ∉ escapeChar c := by
  by_cases hc : c ∈ escapedChars
  · simp only [escapedChars, List.mem_cons, List.not_mem_nil, or_false] at hc hd
    rcases hd with rfl | rfl | rfl | rfl | rfl
    · exact absurd rfl hne
    all_goals rcases hc with rfl | rfl | rfl | rfl | rfl <;> decide
  · rw [escapeChar_of_not_mem hc, List.mem_singleton]
    rintro rfl
    exact hc hd

theorem replaceAll_append (c : Char) (text s t : List Char) :
    replaceAll c text (s ++ t) = replaceAll c text s ++ replaceAll c text t :=
  List.flatMap_append

/-- Replacements, one after the other, treat the parts of a text on their own. -/
theorem foldl_replaceAll_append (texts : Char → List Char) (cs s t : List Char) :
    cs.foldl (fun s c => replaceAll c (texts c) s) (s ++ t) =
      cs.foldl (fun s c => replaceAll c (texts c) s) s ++
        cs.foldl (fun s c => replaceAll c (texts c) s) t := by
  induction cs generalizing s t with
  | nil => rfl
  | cons c cs ih => rw [List.foldl_cons, replaceAll_append, ih, List.foldl_cons, List.foldl_cons]

/-- Characters that do not occur are replaced without effect. -/
theorem replaceAll_eq_self {text s : List Char} (hc : c ∉ s) : replaceAll c text s = s := by
  induction s with
  | nil => rfl
  | cons d rest ih =>
    rw [List.mem_cons, not_or] at hc
    show (if d = c then text else [d]) ++ replaceAll c text rest = d :: rest
    rw [if_neg (Ne.symm hc.1), ih hc.2]
    rfl

theorem foldl_replaceAll_eq_self (texts : Char → List Char) {cs s : List Char}
    (hcs : ∀ c ∈ cs, c ∉ s) : cs.foldl (fun s c => replaceAll c (texts c) s) s = s := by
  induction cs with
  | nil => rfl
  | cons c cs ih =>
    rw [List.foldl_cons, replaceAll_eq_self (hcs c List.mem_cons_self),
      ih fun d hd => hcs d (List.mem_cons_of_mem c hd)]

/-- For a single character the replacements come to its entity: the ampersand is replaced before
there is any entity, and no later replacement meets a character of one. -/
theorem escapeText_singleton (c : Char) : escapeText [c] = escapeChar c := by
  by_cases hc : c ∈ escapedChars
  · simp only [escapedChars, List.mem_cons, List.not_mem_nil, or_false] at hc
    rcases hc with rfl | rfl | rfl | rfl | rfl <;> rfl
  · rw [escapeChar_of_not_mem hc]
    refine foldl_replaceAll_eq_self _ fun d hd hdc => hc ?_
    rwa [List.mem_singleton.mp hdc] at hd

/-- The replacements, made over the whole text, escape each character once. -/
theorem escapeText_eq_escapeEach (s : List Char) : escapeText s = escapeEach s := by
  induction s with
  | nil => rfl
  | cons c rest ih =>
    calc escapeText (c :: rest)
        = escapeText [c] ++ escapeText rest := foldl_replaceAll_append _ _ [c] rest
      _ = escapeChar c ++ escapeEach rest := by rw [escapeText_singleton, ih]
      _ = escapeEach (c :: rest) := rfl

theorem toList_escape (s : String) : (escape s).toList = escapeEach s.toList := by
  rw [escape, String.toList_ofList, escapeText_eq_escapeEach]

theorem not_mem_escapeEach (hd : d ∈ escapedChars) (hne : d ≠ '&') (s : List Char) :
    d ∉ escapeEach s := by
  rw [escapeEach, List.mem_flatMap]
  rintro ⟨c, -, hc⟩
  exact not_mem_escapeChar hd hne c hc

/-- An ampersand of an escaped text stands at the start of an entity. -/
theorem entity_at_ampersand {s before after : List Char}
    (h : escapeEach s = before ++ '&' :: after) :
    ∃ c entity, entity? c = some entity ∧ entity <+: '&' :: after := by
  induction s generalizing before with
  | nil => simp [escapeEach] at h
  | cons c rest ih =>
    have h : escapeChar c ++ escapeEach rest = before ++ '&' :: after := h
    rcases List.append_eq_append_iff.mp h with ⟨later, rfl, hrest⟩ | ⟨own, hown, hafter⟩
    -- it comes after the first character
    · exact ih hrest
    -- what the first character is written as reaches up to it or beyond
    · cases own with
      | nil =>
        have hfront : escapeEach rest = [] ++ '&' :: after := hafter.symm
        exact ih hfront
      | cons d own =>
        obtain ⟨rfl, -⟩ := List.cons.inj hafter
        rcases escapeChar_cases c with ⟨entity, hentity, htext, hlater⟩ | ⟨hc, hself⟩
        · -- the only ampersand of an entity is its first character
          have hbefore : before = [] := by
            cases before with
            | nil => rfl
            | cons e before =>
              rw [htext, List.cons_append] at hown
              exact absurd ((List.cons.inj hown).2 ▸ by simp) hlater
          refine ⟨c, '&' :: entity, hentity, escapeEach rest, ?_⟩
          rw [← htext, h, hbefore, List.nil_append]
        · have hmem : '&' ∈ escapeChar c := hown ▸ by simp
          rw [hself, List.mem_singleton] at hmem
          exact absurd (hmem ▸ List.mem_cons_self) hc

/-- What a character is written as is read as this character, whatever follows. -/
theorem unescapeText_escapeChar (c : Char) (rest : List Char) :
    unescapeText (escapeChar c ++ rest) = c :: unescapeText rest := by
  by_cases hc : c ∈ escapedChars
  · simp only [escapedChars, List.mem_cons, List.not_mem_nil, or_false] at hc
    rcases hc with rfl | rfl | rfl | rfl | rfl <;> rfl
  · rw [escapeChar_of_not_mem hc, List.singleton_append]
    simp only [escapedChars, List.mem_cons, not_or] at hc
    simp [unescapeText, hc.1]

theorem unescapeText_escapeEach (s : List Char) : unescapeText (escapeEach s) = s := by
  induction s with
  | nil => rfl
  | cons c rest ih =>
    calc unescapeText (escapeChar c ++ escapeEach rest)
        = c :: unescapeText (escapeEach rest) := unescapeText_escapeChar c _
      _ = c :: rest := by rw [ih]

theorem escape_injective {s t : String} (h : escape s = escape t) : s = t := by
  have hchars : escapeEach s.toList = escapeEach t.toList := by
    rw [← toList_escape, ← toList_escape, h]
  apply String.toList_injective
  rw [← unescapeText_escapeEach s.toList, hchars, unescapeText_escapeEach]

/-- The replacements over the whole text come to the same as writing each character once as its
entity. What comes out has no character with a meaning in markup except for ampersands, which all
begin an entity, and gives the text back if its entities are read from left to right; so no two
texts are escaped alike. -/
theorem escape_reads_back (s : String) :
    (escape s).toList = escapeEach s.toList ∧
      (∀ c ∈ ['<', '>', '"', '\''], c ∉ (escape s).toList) ∧
      (∀ before after, (escape s).toList = before ++ '&' :: after →
        ∃ c entity, entity? c = some entity ∧ entity <+: '&' :: after) ∧
      unescapeText (escape s).toList = s.toList ∧
      ∀ t, escape t = escape s → t = s := by
  rw [toList_escape]
  refine ⟨rfl, fun c hc => ?_, fun before after => entity_at_ampersand,
    unescapeText_escapeEach s.toList, fun t => escape_injective⟩
  refine not_mem_escapeEach (List.mem_cons_of_mem _ hc) ?_ s.toList
  rintro rfl
  revert hc
  decide

/-- A text that already holds an entity is escaped once more, and read back once. -/
example : escape "<b> &lt;" = "&lt;b&gt; &amp;lt;" := by decide

end MarkdownTree.Markup
