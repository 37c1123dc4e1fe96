import MarkdownTree.Toml.Layout
import MarkdownTree.Toml.Reader

/-!
Documents of flat tables: tables of texts and flags, all under names that need no quotation marks.
What is written for such a document is read as the same tables, in the same order, whatever the
texts hold.
-/

namespace MarkdownTree

namespace Entries

variable {name : String}

theorem put_of_notMem {entries : Entries} (h : name ∉ entries.names) (v : Value) :
    entries.put name v = entries ++ [(name, v)] := by
  induction entries with
  | nil => rfl
  | cons entry entries ih =>
    simp only [names, List.map_cons, List.mem_cons, not_or] at h ih
    have hkey : (entry.1 == name) = false := by simpa using Ne.symm h.1
    simp only [put, hkey, ih h.2]
    rfl

theorem put_last {entries : Entries} (h : name ∉ entries.names) (v w : Value) :
    put (entries ++ [(name, v)]) name w = entries ++ [(name, w)] := by
  induction entries with
  | nil => simp [put]
  | cons entry entries ih =>
    simp only [names, List.map_cons, List.mem_cons, not_or] at h ih
    have hkey : (entry.1 == name) = false := by simpa using Ne.symm h.1
    simp only [List.cons_append, put, hkey, ih h.2]
    rfl

theorem get?_of_notMem {entries : Entries} (h : name ∉ entries.names) :
    entries.get? name = none := by
  simp only [get?, Option.map_eq_none_iff, List.find?_eq_none]
  rintro entry hentry heq
  exact h (List.mem_map.mpr ⟨entry, hentry, by simpa using heq⟩)

theorem get?_last {entries : Entries} (h : name ∉ entries.names) (v : Value) :
    get? (entries ++ [(name, v)]) name = some v := by
  have hnone : entries.find? (·.1 == name) = none := by simpa [get?] using get?_of_notMem h
  simp [get?, List.find?_append, hnone]

theorem has_of_notMem {entries : Entries} (h : name ∉ entries.names) :
    entries.has name = false := by
  simp only [has, List.any_eq_false, beq_iff_eq]
  rintro entry hentry rfl
  exact h (List.mem_map.mpr ⟨entry, hentry, rfl⟩)

end Entries

namespace Toml

variable {v : Value} {name part : String} {fields rest : Entries} {p q r : Progress}
  {s t u : List Char}

/-! ### What is written -/

/-- Texts and flags. -/
inductive IsPlain : Value → Prop
  | text (s : String) : IsPlain (.str s)
  | flag (b : Bool) : IsPlain (.bool b)

/-- A table of texts and flags under names that need no quotation marks, each once. -/
structure Flat (fields : Entries) : Prop where
  bare : ∀ entry ∈ fields, isBarePart entry.1 = true
  plain : ∀ entry ∈ fields, IsPlain entry.2
  nodup : fields.names.Nodup

/-- Flat tables under names that need no quotation marks, each once. -/
structure FlatDocument (tables : List (String × Entries)) : Prop where
  bare : ∀ table ∈ tables, isBarePart table.1 = true
  flat : ∀ table ∈ tables, Flat table.2
  nodup : (tables.map (·.1)).Nodup

def entriesOf (tables : List (String × Entries)) : Entries :=
  tables.map fun table => (table.1, .mapping table.2)

def plainText : Value → String
  | .bool b => if b then "true" else "false"
  | .str s => quote s
  | _ => ""

def lineItem (entry : String × Value) : String × Item :=
  (entry.1, .line (plainText entry.2))

def linesOf (fields : Entries) : String :=
  linesText (fields.map lineItem)

@[simp] theorem linesOf_nil : linesOf [] = "" := rfl

theorem linesOf_cons (h : isBarePart name = true) (v : Value) (fields : Entries) :
    linesOf ((name, v) :: fields) = name ++ " = " ++ plainText v ++ "\n" ++ linesOf fields := by
  simp [linesOf, linesText, lineItem, partText, h, String.join_cons]

theorem itemOf_plain (h : IsPlain v) : itemOf v = .ok (.line (plainText v)) := by
  cases h <;> rfl

theorem itemsOf_plain (h : ∀ entry ∈ fields, IsPlain entry.2) :
    itemsOf fields = .ok (fields.map lineItem) := by
  induction fields with
  | nil => rfl
  | cons entry fields ih =>
    obtain ⟨name, v⟩ := entry
    have hv : IsPlain v := h _ (.head _)
    have ih := ih fun entry hentry => h entry (.tail _ hentry)
    simp only [itemsOf, itemOf_plain hv, ih]
    rfl

/-- A table without further tables in it adds nothing behind its lines. -/
theorem tablesText_lines (path : String) (spaced added : Bool) (fields : Entries) :
    tablesText path spaced added (fields.map lineItem) = "" := by
  induction fields generalizing added with
  | nil => rfl
  | cons entry fields ih => simpa [lineItem, tablesText] using ih true

def tableText (table : String × Entries) : String :=
  "[" ++ table.1 ++ "]\n" ++ linesOf table.2

/-- The texts of flat tables, with an empty line before each but the first. -/
def tableTexts (spaced : Bool) : List (String × Entries) → String
  | [] => ""
  | table :: rest => spacing spaced ++ tableText table ++ tableTexts true rest

theorem isEmpty_or_hasLine (fields : Entries) :
    ((fields.map lineItem).isEmpty || hasLine (fields.map lineItem)) = true := by
  cases fields <;> simp [hasLine, lineItem]

theorem itemText_lines (name : String) (spaced : Bool) (fields : Entries) :
    itemText name spaced (.table (fields.map lineItem)) =
      spacing spaced ++ tableText (name, fields) := by
  simp only [itemText, isEmpty_or_hasLine, if_true, tablesText_lines, tableText, linesOf]
  simp [String.append_assoc]

def tableItems (tables : List (String × Entries)) : List (String × Item) :=
  tables.map fun table => (table.1, .table (table.2.map lineItem))

theorem tablesText_flat {tables : List (String × Entries)} (spaced added : Bool)
    (h : ∀ table ∈ tables, isBarePart table.1 = true) :
    tablesText "" spaced added (tableItems tables) = tableTexts spaced tables := by
  induction tables generalizing spaced added with
  | nil => rfl
  | cons table tables ih =>
    have hname : nameBelow "" table.1 = table.1 := by
      simp [nameBelow, partText, h _ (.head _)]
    have ih := ih true true fun table htable => h table (.tail _ htable)
    simp only [tableItems, List.map_cons, tablesText, hname, itemText_lines, tableTexts] at ih ⊢
    rw [ih]

theorem sectionsOf_flat {tables : List (String × Entries)} (h : ∀ table ∈ tables, Flat table.2) :
    sectionsOf (entriesOf tables) = .ok (tableItems tables) := by
  induction tables with
  | nil => rfl
  | cons table tables ih =>
    have ih := ih fun table htable => h table (.tail _ htable)
    simp only [entriesOf, tableItems, List.map_cons, sectionsOf] at ih ⊢
    rw [itemsOf_plain (h _ (.head _)).plain, ih]
    rfl

theorem linesText_tableItems (tables : List (String × Entries)) :
    linesText (tableItems tables) = "" := by
  induction tables with
  | nil => rfl
  | cons table tables ih => simpa [linesText, tableItems, String.join_cons] using ih

theorem hasLine_tableItems (tables : List (String × Entries)) :
    hasLine (tableItems tables) = false := by
  simp [hasLine, tableItems]

/-- Documents of flat tables can be written. -/
theorem documentText_flat {tables : List (String × Entries)} (h : FlatDocument tables) :
    documentText (entriesOf tables) = .ok (tableTexts false tables) := by
  unfold documentText
  rw [sectionsOf_flat h.flat]
  change Except.ok (linesText (tableItems tables) ++ _) = _
  rw [linesText_tableItems, hasLine_tableItems, tablesText_flat false false h.bare]
  simp

/-! ### Reading keys and values -/

theorem isBlank_of_isBare {c : Char} (h : isBare c = true) : isBlank c = false := by
  simp only [isBlank, Bool.or_eq_false_iff, decide_eq_false_iff_not]
  constructor <;> rintro rfl <;> exact absurd h (by decide)

theorem isBarePart_iff :
    isBarePart part = true ↔ part ≠ "" ∧ ∀ c ∈ part.toList, isBare c = true := by
  simp [isBarePart, isBare]

/-- A bare part of a key begins with one of its characters. -/
theorem exists_cons_of_isBarePart (h : isBarePart part = true) :
    ∃ c cs, part.toList = c :: cs ∧ isBare c = true := by
  obtain ⟨hne, hbare⟩ := isBarePart_iff.mp h
  cases hp : part.toList with
  | nil => exact absurd (String.toList_eq_nil_iff.mp hp) hne
  | cons c cs => exact ⟨c, cs, rfl, hbare c (hp ▸ .head _)⟩

/-- A bare part ends where a character follows that cannot belong to it. -/
theorem readPart_bare (h : isBarePart part = true) {c : Char} (hc : isBare c = false) :
    readPart (part.toList ++ c :: s) = .ok (part, c :: s) := by
  obtain ⟨d, ds, hpart, hd⟩ := exists_cons_of_isBarePart h
  have hall : ∀ x ∈ part.toList, isBare x = true := (isBarePart_iff.mp h).2
  have htake : (part.toList ++ c :: s).takeWhile isBare = part.toList := by
    simp [List.takeWhile_append_of_pos hall, hc]
  have hdrop : (part.toList ++ c :: s).dropWhile isBare = c :: s := by
    simp [List.dropWhile_append_of_pos hall, hc]
  have hne : part.toList.isEmpty = false := by simp [hpart]
  unfold readPart
  split
  · next heq => simp [hpart] at heq; simp [heq.1, isBare] at hd
  · next heq => simp [hpart] at heq; simp [heq.1, isBare] at hd
  · simp only [htake, hdrop, hne, String.ofList_toList]
    rfl

theorem skipBlanks_of_isBare {c : Char} (h : isBare c = true) : skipBlanks (c :: s) = c :: s := by
  simp [skipBlanks, isBlank_of_isBare h]

theorem readParts_end {d : Char} (fuel : Nat) (hpoint : d ≠ '.') :
    readParts fuel (d :: t) = .ok ([], d :: t) := by
  unfold readParts
  split
  · next heq => simp_all
  · rfl

theorem readKey_bare (h : isBarePart part = true) {c d : Char} (hc : isBare c = false)
    (hd : skipBlanks (c :: s) = d :: t) (hpoint : d ≠ '.') :
    readKey (part.toList ++ c :: s) = .ok ([part], d :: t) := by
  unfold readKey
  rw [readPart_bare h hc]
  simp only [hd, readParts_end _ hpoint]
  rfl

/-- A text or a flag begins with no blank, and with no bracket. -/
theorem exists_cons_of_isPlain (h : IsPlain v) :
    ∃ c cs, (plainText v).toList = c :: cs ∧ isBlank c = false ∧ c ≠ '[' ∧ c ≠ '\x7b' := by
  cases h with
  | text s => exact ⟨'"', escape s.toList ++ ['"'], by simp [plainText, quote], by decide⟩
  | flag b => cases b <;> exact ⟨_, _, rfl, by decide⟩

theorem head_escape (c : Char) (s : List Char) : ∃ d ds, escape (c :: s) = d :: ds ∧ d ≠ '"' := by
  unfold escape
  rw [List.flatMap_cons]
  cases hl : escapeLetter? c with
  | some letter => exact ⟨'\\', _, by simp only [escapeChar, hl]; rfl, by decide⟩
  | none =>
    by_cases hc : isControl c = true
    · exact ⟨'\\', _, by simp only [escapeChar, hl, hc]; rfl, by decide⟩
    · refine ⟨c, _, by simp only [escapeChar, hl, hc]; rfl, ?_⟩
      rintro rfl
      cases hl

theorem readText?_basic (h : ∀ t, s ≠ '"' :: '"' :: t) :
    readText? ('"' :: s) = some (readBasic false .nothing s) := by
  unfold readText?
  split
  · next heq =>
      cases heq
      exact absurd rfl (h _)
  · next heq =>
      cases heq
      rfl
  all_goals simp_all

/-- A text in quotation marks is read within its line, even if it is empty. -/
theorem readText?_quote (t : List Char) {c : Char} (hc : c ≠ '"') :
    readText? ('"' :: (escape t ++ '"' :: c :: s)) = some (.ok (t, c :: s)) := by
  rw [readText?_basic, readBasic_escape]
  intro after heq
  cases t with
  | nil => simp_all [escape]
  | cons d ds =>
    obtain ⟨e, es, hescape, he⟩ := head_escape d ds
    simp_all

theorem readSimple_plain (h : IsPlain v) {c : Char} (hc : c ≠ '"') :
    readSimple ((plainText v).toList ++ c :: s) = .ok (v, c :: s) := by
  cases h with
  | text t =>
    have htext : (plainText (.str t)).toList ++ c :: s =
        '"' :: (escape t.toList ++ '"' :: c :: s) := by
      simp [plainText, quote]
    rw [htext]
    unfold readSimple
    rw [readText?_quote t.toList hc]
    simp [Except.map]
  | flag b => cases b <;> rfl

theorem readValue_plain (fuel : Nat) (h : IsPlain v) {c : Char} (hc : c ≠ '"') :
    readValue (fuel + 1) ((plainText v).toList ++ c :: s) = .ok (v, c :: s) := by
  obtain ⟨d, ds, hv, -, hlist, htable⟩ := exists_cons_of_isPlain h
  rw [← readSimple_plain h hc, hv]
  unfold readValue
  split <;> simp_all

/-! ### Reading lines -/

/-- `ReadsTo p s q t` says that reading goes on from the text `s` after `p` was read to the text `t`
after `q` was read. -/
def ReadsTo (p : Progress) (s : List Char) (q : Progress) (t : List Char) : Prop :=
  ∀ fuel, s.length < fuel → ∃ rest, t.length < rest ∧ readLines fuel p s = readLines rest q t

theorem ReadsTo.refl (p : Progress) (s : List Char) : ReadsTo p s p s :=
  fun fuel hfuel => ⟨fuel, hfuel, rfl⟩

theorem ReadsTo.trans {u : List Char} (hpq : ReadsTo p s q t) (hqr : ReadsTo q t r u) :
    ReadsTo p s r u := by
  intro fuel hfuel
  obtain ⟨rest, hrest, heq⟩ := hpq fuel hfuel
  rw [heq]
  exact hqr rest hrest

theorem ReadsTo.readLines_eq (h : ReadsTo p s q []) : readLines (s.length + 1) p s = .ok q := by
  obtain ⟨rest, hrest, heq⟩ := h (s.length + 1) (Nat.lt_succ_self _)
  rw [heq]
  cases rest with
  | zero => exact absurd hrest (Nat.not_lt_zero _)
  | succ rest => rfl

theorem readsTo_lineEnd (p : Progress) (s : List Char) : ReadsTo p ('\n' :: s) p s := by
  intro fuel hfuel
  cases fuel with
  | zero => exact absurd hfuel (Nat.not_lt_zero _)
  | succ fuel => exact ⟨fuel, Nat.lt_of_succ_lt_succ hfuel, rfl⟩

/-- A statement is read with its line: blanks and a comment may stand behind it. -/
theorem readsTo_statement {c : Char} (hblank : isBlank c = false) (hend : c ≠ '\n')
    (h : readStatement p (c :: s) = .ok (q, u))
    (hafter : skipComment (skipBlanks u) = .ok ('\n' :: t)) (hshort : t.length ≤ s.length) :
    ReadsTo p (c :: s) q t := by
  intro fuel hfuel
  cases fuel with
  | zero => exact absurd hfuel (Nat.not_lt_zero _)
  | succ fuel =>
    have hskip : skipBlanks (c :: s) = c :: s := by simp [skipBlanks, hblank]
    refine ⟨fuel, Nat.lt_of_le_of_lt hshort (Nat.lt_of_succ_lt_succ hfuel), ?_⟩
    rw [readLines, hskip]
    split
    · next heq => cases heq
    · next heq => exact absurd (List.cons.inj heq).1 hend
    · simp only [h, hafter]

theorem readsTo_comment (p : Progress) {text : List Char}
    (h : ∀ c ∈ text, isIllegal c = false ∧ c ≠ '\n') :
    ReadsTo p ('#' :: (text ++ '\n' :: t)) p t := by
  refine readsTo_statement (u := '#' :: (text ++ '\n' :: t)) (by decide) (by decide) rfl ?_
    (by simp; omega)
  have hne : ∀ c ∈ text, (c != '\n') = true := fun c hc => by simpa using (h c hc).2
  have hlegal (rest : List Char) : checkLegal isIllegal rest text = .ok () := by
    induction text with
    | nil => rfl
    | cons c text ih =>
      simp only [checkLegal, (h c (.head _)).1]
      exact ih (fun d hd => h d (.tail _ hd)) (fun d hd => hne d (.tail _ hd))
  have hskip : skipBlanks ('#' :: (text ++ '\n' :: t)) = '#' :: (text ++ '\n' :: t) := rfl
  simp only [hskip, skipComment, List.takeWhile_append_of_pos hne, List.dropWhile_append_of_pos hne]
  simp only [List.takeWhile, List.dropWhile, bne_self_eq_false, List.append_nil, hlegal]
  rfl

/-! ### Reading tables -/

/-- What was read when tables were, and nothing behind them. -/
def reached (tables : List (String × Entries)) : Progress where
  tables := entriesOf tables
  marks := ⟨(tables.map fun table => [table.1]).reverse, []⟩
  pending := []
  current := (tables.getLast?.map fun table => [table.1]).getD []

theorem names_entriesOf (tables : List (String × Entries)) :
    (entriesOf tables).names = tables.map (·.1) := by
  simp [entriesOf, Entries.names]

section Tables

variable {tables : List (String × Entries)}

theorem reached_append (tables : List (String × Entries)) (name : String) (fields : Entries) :
    reached (tables ++ [(name, fields)]) =
      ⟨entriesOf tables ++ [(name, .mapping fields)],
        (reached tables).marks.declare [name], [], [name]⟩ := by
  simp [reached, entriesOf, Marks.declare]

theorem declareTable_reached (h : name ∉ tables.map (·.1)) :
    (reached tables).declareTable [name] s = .ok (reached (tables ++ [(name, [])])) := by
  have hdeclared : (reached tables).marks.isDeclared [name] = false := by
    simpa [reached, Marks.isDeclared] using h
  have hfrozen : (reached tables).marks.isFrozen [name] = false := rfl
  have htables : (reached tables).tables = entriesOf tables := rfl
  rw [← names_entriesOf] at h
  simp only [Progress.declareTable, hdeclared, hfrozen, changeTable, htables,
    Entries.get?_of_notMem h, Option.map_some, Entries.put_of_notMem h, reached_append]
  rfl

theorem readsTo_declaration (hname : isBarePart name = true) (h : name ∉ tables.map (·.1)) :
    ReadsTo (reached tables) ('[' :: (name.toList ++ ']' :: '\n' :: t))
      (reached (tables ++ [(name, [])])) t := by
  refine readsTo_statement (u := '\n' :: t) (by decide) (by decide) ?_ rfl (by simp; omega)
  obtain ⟨c, cs, hcons, hc⟩ := exists_cons_of_isBarePart hname
  have hskip : skipBlanks (name.toList ++ ']' :: '\n' :: t) = name.toList ++ ']' :: '\n' :: t := by
    rw [hcons]
    exact skipBlanks_of_isBare hc
  have hkey : readKey (name.toList ++ ']' :: '\n' :: t) = .ok ([name], ']' :: '\n' :: t) :=
    readKey_bare hname (by decide) rfl (by decide)
  have hread : readDeclaration (reached tables).settle (name.toList ++ ']' :: '\n' :: t) =
      .ok (reached (tables ++ [(name, [])]), '\n' :: t) := by
    change readDeclaration (reached tables) _ = _
    simp only [readDeclaration, hskip, hkey, declareTable_reached h]
  rw [← hread, readStatement.eq_3]
  intro rest heq
  rw [hcons] at heq
  cases heq
  exact absurd hc (by decide)

theorem addValue_reached (hname : name ∉ tables.map (·.1)) (hpart : part ∉ fields.names)
    (hv : IsPlain v) :
    (reached (tables ++ [(name, fields)])).addValue [part] v s =
      .ok (reached (tables ++ [(name, fields ++ [(part, v)])])) := by
  rw [← names_entriesOf] at hname
  have hnested : isNested v = false := by cases hv <;> rfl
  have hfrozen : ((reached tables).marks.declare [name]).isFrozen [name] = false := rfl
  have hopened : openedBy [name] [part] = [] := rfl
  have hsplit : splitKey ([name] ++ [part]) = ([name], part) := rfl
  simp only [reached_append, Progress.addValue, hopened, hsplit, hfrozen, hnested, List.find?_nil,
    changeTable, Entries.get?_last hname, addEntry, Entries.has_of_notMem hpart,
    Entries.put_of_notMem hpart, Entries.put_last hname]
  rfl

theorem readStatement_of_isBare {c : Char} (h : isBare c = true) :
    readStatement p (c :: s) = readAssignment p (c :: s) := by
  have hcomment : c ≠ '#' := by rintro rfl; exact absurd h (by decide)
  have hbracket : c ≠ '[' := by rintro rfl; exact absurd h (by decide)
  unfold readStatement
  split <;> simp_all

theorem readsTo_assignment (hname : name ∉ tables.map (·.1)) (hbare : isBarePart part = true)
    (hpart : part ∉ fields.names) (hv : IsPlain v) :
    ReadsTo (reached (tables ++ [(name, fields)]))
      (part.toList ++ ' ' :: '=' :: ' ' :: ((plainText v).toList ++ '\n' :: t))
      (reached (tables ++ [(name, fields ++ [(part, v)])])) t := by
  obtain ⟨c, cs, hcons, hc⟩ := exists_cons_of_isBarePart hbare
  obtain ⟨d, ds, hvalue, hblank, -⟩ := exists_cons_of_isPlain hv
  have hkey : readKey (part.toList ++ ' ' :: '=' :: ' ' :: ((plainText v).toList ++ '\n' :: t)) =
      .ok ([part], '=' :: ' ' :: ((plainText v).toList ++ '\n' :: t)) :=
    readKey_bare hbare (by decide) rfl (by decide)
  have hskip : skipBlanks (' ' :: ((plainText v).toList ++ '\n' :: t)) =
      (plainText v).toList ++ '\n' :: t := by
    rw [hvalue]
    change List.dropWhile isBlank (d :: (ds ++ '\n' :: t)) = _
    simp [hblank]
  have hend : '\n' ≠ '"' := by decide
  have hread : readAssignment (reached (tables ++ [(name, fields)]))
      (part.toList ++ ' ' :: '=' :: ' ' :: ((plainText v).toList ++ '\n' :: t)) =
      .ok (reached (tables ++ [(name, fields ++ [(part, v)])]), '\n' :: t) := by
    simp only [readAssignment, readKeyEquals, hkey, hskip, readValue_plain _ hv hend,
      addValue_reached hname hpart hv]
    rfl
  -- The line begins with a character of the name, so it is read as a statement.
  rw [hcons] at hread ⊢
  refine readsTo_statement (u := '\n' :: t) (isBlank_of_isBare hc) ?_ ?_ rfl ?_
  · rintro rfl
    exact absurd hc (by decide)
  · exact (readStatement_of_isBare hc).trans hread
  · simp
    omega

/-- The lines of a flat table are read one after another. -/
theorem readsTo_linesOf (hname : name ∉ tables.map (·.1)) (h : Flat (fields ++ rest)) :
    ReadsTo (reached (tables ++ [(name, fields)])) ((linesOf rest).toList ++ t)
      (reached (tables ++ [(name, fields ++ rest)])) t := by
  induction rest generalizing fields with
  | nil => simpa using ReadsTo.refl _ t
  | cons entry rest ih =>
    obtain ⟨part, v⟩ := entry
    have hbare : isBarePart part = true := h.bare (part, v) (by simp)
    have hpart : part ∉ fields.names := by
      have hnodup := h.nodup
      simp only [Entries.names, List.map_append, List.map_cons] at hnodup ⊢
      exact fun hmem => (List.nodup_append.mp hnodup).2.2 part hmem part (.head _) rfl
    have hstep := readsTo_assignment (t := (linesOf rest).toList ++ t) hname hbare hpart
      (h.plain (part, v) (by simp))
    have hrest := ih (by simpa using h : Flat (fields ++ [(part, v)] ++ rest))
    simpa [linesOf_cons hbare] using hstep.trans hrest

theorem readsTo_tableText (hname : name ∉ tables.map (·.1)) (hbare : isBarePart name = true)
    (h : Flat fields) :
    ReadsTo (reached tables) ((tableText (name, fields)).toList ++ t)
      (reached (tables ++ [(name, fields)])) t := by
  have hstep := readsTo_declaration (t := (linesOf fields).toList ++ t) hbare hname
  have hlines := readsTo_linesOf (t := t) hname (by simpa using h : Flat ([] ++ fields))
  simpa [tableText] using hstep.trans hlines

/-- Tables are read one after another. -/
theorem readsTo_tableTexts {rest : List (String × Entries)} (spaced : Bool)
    (h : FlatDocument (tables ++ rest)) :
    ReadsTo (reached tables) ((tableTexts spaced rest).toList ++ t)
      (reached (tables ++ rest)) t := by
  induction rest generalizing tables spaced with
  | nil => simpa [tableTexts] using ReadsTo.refl _ t
  | cons table rest ih =>
    obtain ⟨name, fields⟩ := table
    have hname : name ∉ tables.map (·.1) := by
      have hnodup := h.nodup
      simp only [List.map_append, List.map_cons] at hnodup
      exact fun hmem => (List.nodup_append.mp hnodup).2.2 name hmem name (.head _) rfl
    have htable := readsTo_tableText (t := (tableTexts true rest).toList ++ t) hname
      (h.bare (name, fields) (by simp)) (h.flat (name, fields) (by simp))
    have hrest := ih true (by simpa using h : FlatDocument (tables ++ [(name, fields)] ++ rest))
    have hboth := htable.trans hrest
    cases spaced with
    | false => simpa [tableTexts, spacing] using hboth
    | true =>
      have hgap := readsTo_lineEnd (reached tables)
        ((tableText (name, fields)).toList ++ ((tableTexts true rest).toList ++ t))
      simpa [tableTexts, spacing] using hgap.trans hboth

end Tables

/-! ### Whole documents -/

theorem joinLineEnds_eq (h : '\r' ∉ s) : joinLineEnds s = s := by
  induction s with
  | nil => rfl
  | cons c s ih =>
    rw [joinLineEnds, ih fun hmem => h (.tail _ hmem)]
    rintro rest rfl
    exact absurd (.head _) h

theorem notMem_hexDigits : ∀ n < 128, '\r' ∉ Text.hexDigits 4 n := by
  decide

theorem notMem_escapeChar (c : Char) : '\r' ∉ escapeChar c := by
  unfold escapeChar
  cases hl : escapeLetter? c with
  | some letter =>
    have hletter : letter ≠ '\r' := by
      unfold escapeLetter? at hl
      split at hl <;> cases hl <;> decide
    simp [Ne.symm hletter]
  | none =>
    by_cases hc : isControl c = true
    · simpa [hc] using notMem_hexDigits c.toNat (toNat_lt_of_isControl hc)
    · have hne : c ≠ '\r' := by rintro rfl; cases hl
      simp [hc, Ne.symm hne]

theorem notMem_plainText (h : IsPlain v) : '\r' ∉ (plainText v).toList := by
  cases h with
  | text s => simp [plainText, quote, escape, notMem_escapeChar]
  | flag b => cases b <;> decide

theorem notMem_of_isBarePart (h : isBarePart part = true) : '\r' ∉ part.toList := fun hmem =>
  absurd ((isBarePart_iff.mp h).2 _ hmem) (by decide)

theorem notMem_linesOf (hbare : ∀ entry ∈ fields, isBarePart entry.1 = true)
    (hplain : ∀ entry ∈ fields, IsPlain entry.2) : '\r' ∉ (linesOf fields).toList := by
  induction fields with
  | nil => simp
  | cons entry fields ih =>
    obtain ⟨part, v⟩ := entry
    have hpart := hbare _ (.head _)
    have ih := ih (fun e he => hbare e (.tail _ he)) fun e he => hplain e (.tail _ he)
    simp [linesOf_cons hpart, notMem_of_isBarePart hpart, notMem_plainText (hplain _ (.head _)), ih]

theorem notMem_tableTexts {tables : List (String × Entries)} (spaced : Bool)
    (hbare : ∀ table ∈ tables, isBarePart table.1 = true) (hflat : ∀ table ∈ tables, Flat table.2) :
    '\r' ∉ (tableTexts spaced tables).toList := by
  induction tables generalizing spaced with
  | nil => simp [tableTexts]
  | cons table tables ih =>
    have ih := ih true (fun t ht => hbare t (.tail _ ht)) fun t ht => hflat t (.tail _ ht)
    have hname := notMem_of_isBarePart (hbare _ (.head _))
    have hlines := notMem_linesOf (hflat _ (.head _)).bare (hflat _ (.head _)).plain
    cases spaced <;> simp [tableTexts, tableText, spacing, hname, hlines, ih]

/-- Reading inverts writing: behind a comment and an empty line, the text of a document of flat
tables is read as its entries, in the same order. -/
theorem read_tableTexts {tables : List (String × Entries)} {comment : String}
    (h : FlatDocument tables)
    (hcomment : ∀ c ∈ comment.toList, isIllegal c = false ∧ c ≠ '\n') :
    read ("#" ++ comment ++ "\n\n" ++ tableTexts false tables) = .ok (entriesOf tables) := by
  have hsource : sourceOf ("#" ++ comment ++ "\n\n" ++ tableTexts false tables) =
      '#' :: (comment.toList ++ '\n' :: '\n' :: (tableTexts false tables).toList) := by
    have hnot : '\r' ∉ comment.toList := fun hmem => absurd (hcomment _ hmem).1 (by decide)
    rw [sourceOf, joinLineEnds_eq] <;>
      simp [hnot, notMem_tableTexts false h.bare h.flat]
  have hlines : ReadsTo .start
      ('#' :: (comment.toList ++ '\n' :: '\n' :: (tableTexts false tables).toList))
      (reached tables) [] := by
    have htables := readsTo_tableTexts (t := []) false
      (by simpa using h : FlatDocument ([] ++ tables))
    rw [List.append_nil] at htables
    exact (readsTo_comment _ hcomment).trans ((readsTo_lineEnd _ _).trans htables)
  simp only [read, hsource, hlines.readLines_eq]
  rfl

end Toml

end MarkdownTree
