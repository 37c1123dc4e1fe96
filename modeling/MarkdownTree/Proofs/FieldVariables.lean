import Mathlib.Data.List.Induction
import MarkdownTree.Proofs.KeyedDocuments
import MarkdownTree.Proofs.SettledSettings

/-!
What variables of single fields hold. The names of variables are taken in lower case, what follows
the name of a section is the name of a field, and both steps put one value after the other under
names. Main statement: a field gets the text of the last variable that has its name.
-/

namespace MarkdownTree

namespace Entries

variable {α : Type} {name target : String} {base entries : Entries}

theorem mem_names_put {entries : Entries} {name other : String} {v : Value} :
    other ∈ (entries.put name v).names ↔ other = name ∨ other ∈ entries.names := by
  have hmem : entries.has name = true ↔ name ∈ entries.names := by simp [has, names]
  rw [names_put]
  split
  · next h =>
    have hname := hmem.mp h
    exact ⟨.inr, fun hother => hother.elim (· ▸ hname) id⟩
  · rw [List.mem_append, List.mem_singleton, or_comm]

/-- Of all that is put under a name, the last counts. -/
theorem get?_foldl_put (items : List α) (key : α → String) (value : α → Value) :
    get? (items.foldl (fun acc a => acc.put (key a) (value a)) base) name =
      ((items.reverse.find? fun a => key a == name).map value).or (base.get? name) := by
  induction items using List.reverseRecOn with
  | nil => rfl
  | append_singleton items a ih =>
      rw [List.foldl_concat, List.reverse_concat, List.find?_cons]
      by_cases ha : key a = name
      · subst ha
        rw [get?_put_self, beq_self_eq_true]
        rfl
      · rw [get?_put_of_ne _ _ ha, ih, beq_false_of_ne ha]

/-- Entries that are put under other names, where a name has one other name at most. -/
theorem get?_foldl_rename (key? : String → Option String) (hnodup : entries.names.Nodup)
    (hkey : ∀ m ∈ entries.names, key? m = some name ↔ m = target) :
    get? (entries.foldl (fun acc entry => match key? entry.1 with
        | some key => acc.put key entry.2
        | none => acc) base) name = (entries.get? target).or (base.get? name) := by
  induction entries generalizing base with
  | nil => rfl
  | cons entry rest ih =>
      obtain ⟨m, v⟩ := entry
      obtain ⟨hm, hrest⟩ := List.nodup_cons.1 hnodup
      rw [List.foldl_cons, ih hrest fun n hn => hkey n (.tail _ hn), get?_cons]
      have hm' := hkey m (.head _)
      by_cases heq : m = target
      · subst heq
        simp only [hm'.2 rfl, get?_put_self, get?_of_notMem hm, if_pos, Option.none_or,
          Option.some_or]
      · rw [if_neg heq]
        congr 1
        cases hother : key? m with
        | none => rfl
        | some other =>
            refine get?_put_of_ne _ _ fun hname => heq (hm'.1 ?_)
            rw [hother, hname]

/-- Where each step adds names of one kind only, all names are of that kind. -/
theorem names_foldl {α : Type} {P : String → Prop} {step : Entries → α → Entries} {items : List α}
    (h : ∀ entries, ∀ a ∈ items, ∀ name ∈ (step entries a).names, name ∈ entries.names ∨ P name) :
    ∀ name ∈ (items.foldl step []).names, P name :=
  List.foldlRecOn (motive := fun entries : Entries => ∀ name ∈ entries.names, P name) items step
    (fun name hname => by cases hname)
    fun entries ih a ha name hname => (h entries a ha name hname).elim (ih name) id

theorem nodup_names_foldl {step : Entries → α → Entries} {items : List α}
    (h : ∀ entries : Entries, ∀ a, entries.names.Nodup → (step entries a).names.Nodup) :
    (items.foldl step []).names.Nodup :=
  List.foldlRecOn (motive := fun entries : Entries => entries.names.Nodup) items step
    List.nodup_nil fun entries ih a _ => h entries a ih

end Entries

namespace Settings

variable {assigned : List (String × String)} {s : Section} {field : Field} {name : String}

theorem names_lowerNames (assigned : List (String × String)) :
    ∀ name ∈ (lowerNames assigned).names,
      ∃ entry ∈ assigned, name.toList = Text.lower entry.1.toList := by
  refine Entries.names_foldl fun acc entry hentry name hname => ?_
  obtain rfl | hname := Entries.mem_names_put.mp hname
  · exact .inr ⟨entry, hentry, String.toList_ofList⟩
  · exact .inl hname

/-- No variable of a field is that of a whole section. -/
theorem leafName_ne : ∀ s ∈ sections, ∀ t ∈ sections, ∀ field ∈ t.fields,
    leafName t field ≠ variablesStart ++ s.key.toList := by
  decide

/-- What follows the name of a section in the variable of a field is one of its fields. -/
theorem pieces_leafName : ∀ s ∈ sections, ∀ t ∈ sections, ∀ field ∈ t.fields,
    ∀ rest ∈ restAfter? (variablesStart ++ s.key.toList ++ ['_', '_']) (leafName t field),
      ∃ own ∈ s.fields, (splitAtDoubleLines rest).map String.ofList = [own.name] := by
  decide

theorem exists_leafName (h : OnlyFields assigned) (hname : name ∈ (lowerNames assigned).names)
    (hstart : variablesStart <+: name.toList) :
    ∃ s ∈ sections, ∃ field ∈ s.fields, name.toList = leafName s field := by
  obtain ⟨entry, hentry, heq⟩ := names_lowerNames assigned name hname
  rw [heq] at hstart ⊢
  exact h entry hentry hstart

theorem restAfter?_eq_some_iff {start name rest : List Char} :
    restAfter? start name = some rest ↔ name = start ++ rest := by
  unfold restAfter?
  constructor
  · intro h
    split at h
    · next hprefix =>
      obtain ⟨more, rfl⟩ := List.isPrefixOf_iff_prefix.mp hprefix
      rw [List.drop_left, Option.some.injEq] at h
      rw [h]
    · cases h
  · rintro rfl
    rw [if_pos (List.isPrefixOf_iff_prefix.mpr (List.prefix_append _ _)), List.drop_left]

/-- Names with something after the name of a section are those of settings. -/
theorem begins_of_restAfter? {name rest : List Char}
    (h : restAfter? (variablesStart ++ s.key.toList ++ ['_', '_']) name = some rest) :
    variablesStart <+: name := by
  rw [restAfter?_eq_some_iff.mp h, List.append_assoc, List.append_assoc]
  exact List.prefix_append _ _

theorem names_separateFields (h : OnlyFields assigned) (hs : s ∈ sections) :
    ∀ name ∈ (separateFields s (lowerNames assigned)).names, name ∈ s.fields.map (·.name) := by
  refine Entries.names_foldl fun acc entry hentry name hname => ?_
  simp only at hname
  split at hname
  · next rest hrest =>
    have hmem : entry.1 ∈ (lowerNames assigned).names := List.mem_map.mpr ⟨entry, hentry, rfl⟩
    obtain ⟨t, ht, field, hfield, hleaf⟩ := exists_leafName h hmem (begins_of_restAfter? hrest)
    rw [hleaf] at hrest
    obtain ⟨own, hown, hpieces⟩ := pieces_leafName s hs t ht field hfield rest hrest
    rw [hpieces] at hname
    obtain rfl | hname := Entries.mem_names_put.mp hname
    · exact .inr (List.mem_map.mpr ⟨own, hown, rfl⟩)
    · exact .inl hname
  · exact .inl hname

theorem fieldName_mem (hname : name ∈ s.fields.map (·.name)) :
    fieldName s name ∈ s.fields.map (·.name) := by
  unfold fieldName inAnyCase?
  cases hfind : (s.fields.map (·.name)).find?
      fun n => Text.lower n.toList == Text.lower name.toList with
  | none => exact hname
  | some n => exact List.mem_of_find?_eq_some hfind

theorem names_renameFields {given : Entries}
    (h : ∀ name ∈ given.names, name ∈ s.fields.map (·.name)) :
    ∀ name ∈ (renameFields s given).names, name ∈ s.fields.map (·.name) := by
  refine Entries.names_foldl fun acc entry hentry name hname => ?_
  obtain rfl | hname := Entries.mem_names_put.mp hname
  · exact .inr (fieldName_mem (h _ (List.mem_map.mpr ⟨entry, hentry, rfl⟩)))
  · exact .inl hname

/-- Where variables hold single fields, no variable holds a section. -/
theorem sectionOfVariables_eq_separate (h : OnlyFields assigned) (hs : s ∈ sections) :
    sectionOfVariables s (lowerNames assigned) =
      .ok (if (separateFields s (lowerNames assigned)).isEmpty then none
        else some (.mapping (renameFields s (separateFields s (lowerNames assigned))))) := by
  have hnone : (lowerNames assigned).get? (String.ofList (variablesStart ++ s.key.toList)) =
      none := by
    refine Entries.get?_of_notMem fun hmem => ?_
    obtain ⟨t, ht, field, hfield, hleaf⟩ := exists_leafName h hmem (by simp)
    rw [String.toList_ofList] at hleaf
    exact leafName_ne s hs t ht field hfield hleaf.symm
  simp only [sectionOfVariables, hnone]

theorem sectionOfVariables_eq (h : OnlyFields assigned) (hs : s ∈ sections) :
    ∃ v : Option Value, sectionOfVariables s (lowerNames assigned) = .ok v ∧
      ∀ u ∈ v, ∃ inner : Entries, u = .mapping inner ∧
        ∀ name ∈ inner.names, name ∈ s.fields.map (·.name) := by
  refine ⟨_, sectionOfVariables_eq_separate h hs, fun u hu => ?_⟩
  split at hu
  · cases hu
  · cases hu
    exact ⟨_, rfl, names_renameFields (names_separateFields h hs)⟩

/-- Variables that hold single fields can be read. -/
theorem ofVariables_eq (h : OnlyFields assigned) :
    ∃ given, ofVariables assigned = .ok given ∧ OfSections given := by
  have hread : ∀ wanted : List Section, (∀ s ∈ wanted, s ∈ sections) →
      ∃ given, sectionsOfVariables (lowerNames assigned) wanted = .ok given ∧
        OfSections given := by
    intro wanted hwanted
    induction wanted with
    | nil => exact ⟨[], rfl, fun entry hentry => by cases hentry⟩
    | cons s wanted ih =>
      obtain ⟨v, hv, hinner⟩ := sectionOfVariables_eq h (hwanted s (.head _))
      obtain ⟨given, hgiven, hof⟩ := ih fun t ht => hwanted t (.tail _ ht)
      refine ⟨v.toList.map (fun v => (s.key, v)) ++ given, ?_, fun entry hentry => ?_⟩
      · simp only [sectionsOfVariables, hv, hgiven]
        rfl
      · obtain hmem | hmem := List.mem_append.mp hentry
        · obtain ⟨u, hu, rfl⟩ := List.mem_map.mp hmem
          exact ⟨s, hwanted s (.head _), rfl, hinner u (by simpa using hu)⟩
        · exact hof entry hmem
  exact hread sections fun _ hs => hs

theorem get?_lowerNames : (lowerNames assigned).get? (String.ofList (leafName s field)) =
    assignedTo? assigned s field := by
  rw [lowerNames, Entries.get?_foldl_put assigned
    (fun entry => String.ofList (Text.lower entry.1.toList)) (fun entry => .str entry.2),
    Entries.get?_nil, Option.or_none, assignedTo?]
  congr 2
  funext entry
  rw [Bool.eq_iff_iff, beq_iff_eq, beq_iff_eq, String.ofList_inj]

theorem nodup_names_lowerNames : (lowerNames assigned).names.Nodup :=
  Entries.nodup_names_foldl fun _ _ h => Entries.nodup_names_put h

def ownName? (s : Section) (name : String) : Option String :=
  (restAfter? (variablesStart ++ s.key.toList ++ ['_', '_']) name.toList).map String.ofList

theorem ownName?_eq_some_iff :
    ownName? s name = some field.name ↔ name = String.ofList (leafName s field) := by
  rw [ownName?, Option.map_eq_some_iff]
  constructor
  · rintro ⟨rest, hrest, hfield⟩
    rw [leafName, ← hfield, String.toList_ofList, ← restAfter?_eq_some_iff.1 hrest,
      String.ofList_toList]
  · rintro rfl
    refine ⟨field.name.toList, ?_, String.ofList_toList⟩
    exact restAfter?_eq_some_iff.2 String.toList_ofList

/-- The variable of a field names no way further inwards. -/
theorem pieces_eq_leafName : ∀ s ∈ sections, ∀ t ∈ sections, ∀ field ∈ t.fields,
    ∀ rest ∈ restAfter? (variablesStart ++ s.key.toList ++ ['_', '_']) (leafName t field),
      (splitAtDoubleLines rest).map String.ofList = [String.ofList rest] := by
  decide

theorem separateFields_eq (h : OnlyFields assigned) (hs : s ∈ sections) :
    separateFields s (lowerNames assigned) =
      (lowerNames assigned).foldl (fun (acc : Entries) entry => match ownName? s entry.1 with
        | some key => acc.put key entry.2
        | none => acc) [] := by
  refine List.foldl_ext _ _ _ fun acc entry hentry => ?_
  simp only [ownName?]
  cases hrest : restAfter? (variablesStart ++ s.key.toList ++ ['_', '_']) entry.1.toList with
  | none => rfl
  | some rest =>
      -- The rest is the name of one field, so it has no second part that would be put further in.
      have hmem : entry.1 ∈ (lowerNames assigned).names := List.mem_map_of_mem hentry
      obtain ⟨t, ht, field, hfield, hleaf⟩ := exists_leafName h hmem (begins_of_restAfter? hrest)
      simp only [pieces_eq_leafName s hs t ht field hfield rest (hleaf ▸ hrest)]
      rfl

theorem get?_separateFields (h : OnlyFields assigned) (hs : s ∈ sections) :
    (separateFields s (lowerNames assigned)).get? field.name = assignedTo? assigned s field := by
  rw [separateFields_eq h hs,
    Entries.get?_foldl_rename (ownName? s) nodup_names_lowerNames fun _ _ => ownName?_eq_some_iff,
    Entries.get?_nil, Option.or_none, get?_lowerNames]

theorem nodup_names_separateFields (h : OnlyFields assigned) (hs : s ∈ sections) :
    (separateFields s (lowerNames assigned)).names.Nodup := by
  rw [separateFields_eq h hs]
  refine Entries.nodup_names_foldl fun acc entry hacc => ?_
  split
  · exact Entries.nodup_names_put hacc
  · exact hacc

/-- The names of fields are kept. -/
theorem fieldName_eq : ∀ s ∈ sections, ∀ name ∈ s.fields.map (·.name),
    fieldName s name = name := by
  decide

theorem get?_renameFields {given : Entries} (hs : s ∈ sections) (hnodup : given.names.Nodup)
    (hknown : ∀ name ∈ given.names, name ∈ s.fields.map (·.name)) :
    (renameFields s given).get? name = given.get? name := by
  have hkey : ∀ m ∈ given.names, some (fieldName s m) = some name ↔ m = name := by
    intro m hm
    rw [fieldName_eq s hs m (hknown m hm), Option.some.injEq]
  rw [renameFields, Entries.get?_foldl_rename (fun m => some (fieldName s m)) hnodup hkey,
    Entries.get?_nil, Option.or_none]

/-- Values under the names of sections are found there. -/
theorem get?_filterMap_key {value : Section → Option Value} {wanted : List Section}
    (hnodup : (wanted.map (·.key)).Nodup) (hs : s ∈ wanted) :
    Entries.get? (wanted.filterMap fun s => (value s).map (s.key, ·)) s.key = value s := by
  induction wanted with
  | nil => cases hs
  | cons t wanted ih =>
      obtain ⟨ht, hwanted⟩ := List.nodup_cons.1 hnodup
      rw [List.filterMap_cons]
      rcases List.mem_cons.1 hs with rfl | hs
      · cases hv : value s with
        | none =>
            refine Entries.get?_of_notMem fun hmem => ht ?_
            obtain ⟨entry, hentry, hkey⟩ := List.mem_map.1 hmem
            obtain ⟨other, hother, heq⟩ := List.mem_filterMap.1 hentry
            obtain ⟨_, -, rfl⟩ := Option.map_eq_some_iff.1 heq
            exact List.mem_map.2 ⟨other, hother, hkey⟩
        | some v => exact (Entries.get?_cons ..).trans (if_pos rfl)
      · cases hv : value t with
        | none => exact ih hwanted hs
        | some v =>
            refine (Entries.get?_cons ..).trans ((if_neg fun heq => ?_).trans (ih hwanted hs))
            exact ht (List.mem_map.2 ⟨s, hs, heq.symm⟩)

theorem sectionsOfVariables_eq {named : Entries} {value : Section → Option Value}
    {wanted : List Section} (h : ∀ s ∈ wanted, sectionOfVariables s named = .ok (value s)) :
    sectionsOfVariables named wanted =
      .ok (wanted.filterMap fun s => (value s).map (s.key, ·)) := by
  induction wanted with
  | nil => rfl
  | cons s wanted ih =>
      rw [List.forall_mem_cons] at h
      rw [sectionsOfVariables, h.1, ih h.2, List.filterMap_cons]
      cases value s <;> rfl

/-- Variables of single fields hold for each field the text of the last one of its name. -/
theorem ofVariables_eq_assignedTo (h : OnlyFields assigned) :
    ∃ given, ofVariables assigned = .ok given ∧ OfSections given ∧
      ∀ s ∈ sections, ∀ field ∈ s.fields,
        (s.fieldsIn given).get? field.name = assignedTo? assigned s field := by
  obtain ⟨given, hgiven, hof⟩ := ofVariables_eq h
  refine ⟨given, hgiven, hof, fun s hs field hfield => ?_⟩
  have hvalues := sectionsOfVariables_eq fun s hs => sectionOfVariables_eq_separate h hs
  rw [ofVariables, hvalues, Except.ok.injEq] at hgiven
  rw [← hgiven, Section.fieldsIn, get?_filterMap_key nodup_keys hs, ← get?_separateFields h hs]
  split
  · next hempty =>
    rw [List.isEmpty_iff.1 hempty]
    rfl
  · exact get?_renameFields hs (nodup_names_separateFields h hs) (names_separateFields h hs)

end Settings

end MarkdownTree
