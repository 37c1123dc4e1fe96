import MarkdownTree.Proofs.KeyedDocuments
import MarkdownTree.Proofs.LibraryRules

/-!
What the sources of settings hold with the standard libraries: neither TOML documents nor variables
give records, and none are made when sources are aligned or laid over each other.
-/

namespace MarkdownTree

def Entries.Recordless (entries : Entries) : Prop :=
  ∀ entry ∈ entries, entry.2.isRecord = false

namespace Entries

variable {entries base : Entries} {name : String} {v : Value}

theorem recordless_put (h : entries.Recordless) (hv : v.isRecord = false) :
    (entries.put name v).Recordless :=
  forall_mem_put (P := fun v => v.isRecord = false) h hv

theorem Recordless.get? (h : entries.Recordless) (hv : entries.get? name = some v) :
    v.isRecord = false := by
  obtain ⟨entry, hfind, rfl⟩ := Option.map_eq_some_iff.mp hv
  exact h entry (List.mem_of_find?_eq_some hfind)

end Entries

namespace Json

theorem not_record_of_readWord {s rest : List Char} {v : Value} (h : readWord s = some (v, rest)) :
    v.isRecord = false := by
  have hwords : ∀ entry ∈ words, entry.2.isRecord = false := by decide
  obtain ⟨⟨word, w⟩, hword, hw⟩ := List.exists_of_findSome?_eq_some h
  simp only at hw
  split at hw
  · cases hw
    exact hwords _ hword
  · cases hw

theorem not_record_of_readNumber {s rest : List Char} {v : Value}
    (h : readNumber s = some (v, rest)) : v.isRecord = false := by
  obtain ⟨_, -, hwhole⟩ := Option.bind_eq_some_iff.mp h
  simp only at hwhole
  split at hwhole
  · split at hwhole <;> cases hwhole
    rfl
  · obtain ⟨x, -, hx⟩ := Option.bind_eq_some_iff.mp hwhole
    cases hx
    rfl

/-- JSON texts hold no records. -/
theorem not_record_of_readValue {fuel : Nat} {s rest : List Char} {v : Value}
    (h : readValue fuel s = some (v, rest)) : v.isRecord = false := by
  cases fuel with
  | zero => cases h
  | succ fuel =>
    rw [readValue] at h
    split at h
    · obtain ⟨_, -, hv⟩ := Option.map_eq_some_iff.mp h
      cases hv
      rfl
    · split at h
      · cases h
        rfl
      · obtain ⟨_, -, hv⟩ := Option.map_eq_some_iff.mp h
        cases hv
        rfl
    · split at h
      · cases h
        rfl
      · obtain ⟨_, -, hv⟩ := Option.map_eq_some_iff.mp h
        cases hv
        rfl
    · obtain hword | hnumber := Option.or_eq_some_iff.mp h
      · exact not_record_of_readWord hword
      · exact not_record_of_readNumber hnumber.2

theorem not_record_of_read? {text : String} {v : Value} (h : read? text = some v) :
    v.isRecord = false := by
  unfold read? at h
  simp only at h
  split at h
  · next hread =>
    split at h
    · cases h
      exact not_record_of_readValue hread
    · cases h
  · cases h

end Json

namespace Toml

variable {table changed : Entries} {s rest : List Char} {v : Value}

/-- Values of TOML documents are no records. -/
theorem not_record_of_readValue {fuel : Nat} (h : readValue fuel s = .ok (v, rest)) :
    v.isRecord = false := by
  unfold readValue at h
  split at h
  · cases h
  · split at h
    · cases h
    · cases h
      rfl
    · exact of_read_map (fun v => v.isRecord = false) .list (fun _ _ _ => rfl) h
  · split at h
    · cases h
      rfl
    · exact of_read_map (fun v => v.isRecord = false) .mapping (fun _ _ _ => rfl) h
  · have hsimple := not_container_of_readSimple h
    cases v <;> first | rfl | cases hsimple

/-- On the way to the table of a key there are only dictionaries and lists. -/
theorem recordless_changeTable {throughLists : Bool} {change : Entries → Option Entries} {key : Key}
    (hchange : ∀ new, change table = some new → new.Recordless) (h : table.Recordless)
    (hnew : changeTable throughLists change key table = some changed) : changed.Recordless := by
  cases key with
  | nil => exact hchange changed hnew
  | cons part key =>
    simp only [changeTable] at hnew
    split at hnew
    · obtain ⟨_, -, rfl⟩ := Option.map_eq_some_iff.mp hnew
      exact Entries.recordless_put h rfl
    · obtain ⟨_, -, rfl⟩ := Option.map_eq_some_iff.mp hnew
      exact Entries.recordless_put h rfl
    · split at hnew
      · obtain ⟨_, -, rfl⟩ := Option.map_eq_some_iff.mp hnew
        exact Entries.recordless_put h rfl
      · cases hnew
    · cases hnew

theorem recordless_addEntry {part : String} (h : table.Recordless) (hv : v.isRecord = false)
    (hnew : addEntry part v table = some changed) : changed.Recordless := by
  unfold addEntry at hnew
  split at hnew <;> cases hnew
  exact Entries.recordless_put h hv

theorem recordless_appendTable {part : String} (h : table.Recordless)
    (hnew : appendTable part table = some changed) : changed.Recordless := by
  unfold appendTable at hnew
  split at hnew <;> cases hnew <;> exact Entries.recordless_put h rfl

/-- TOML documents hold no records. -/
theorem recordless_read {text : String} {entries : Entries} (h : read text = .ok entries) :
    entries.Recordless := by
  refine tables_induction h (fun entry hentry => by cases hentry) fun hchange htable hnew =>
    recordless_changeTable (fun new hnew => ?_) htable hnew
  cases hchange with
  | add part hread => exact recordless_addEntry htable (not_record_of_readValue hread) hnew
  | declare =>
    cases hnew
    exact htable
  | append part => exact recordless_appendTable htable hnew

end Toml

namespace Settings

theorem not_record_of_sectionOfVariables {s : Section} {assigned : Entries} {v : Value}
    (h : sectionOfVariables s assigned = .ok (some v)) : v.isRecord = false := by
  unfold sectionOfVariables at h
  simp only at h
  split at h
  · split at h
    · cases h
    · cases h
    · cases h
      rfl
    · next hread =>
      cases h
      exact Json.not_record_of_read? hread
  · split at h
    · cases h
    · cases h
      rfl

theorem recordless_sectionsOfVariables {assigned given : Entries} {wanted : List Section}
    (h : sectionsOfVariables assigned wanted = .ok given) : given.Recordless := by
  induction wanted generalizing given with
  | nil => cases h; exact fun entry hentry => by cases hentry
  | cons s wanted ih =>
    rw [sectionsOfVariables] at h
    cases hv : sectionOfVariables s assigned with
    | error e => rw [hv] at h; cases h
    | ok v =>
      cases hvalues : sectionsOfVariables assigned wanted with
      | error e => rw [hv, hvalues] at h; cases h
      | ok values =>
        rw [hv, hvalues] at h
        cases h
        refine List.forall_mem_append.mpr ⟨fun entry hentry => ?_, ih hvalues⟩
        obtain ⟨u, hu, rfl⟩ := List.mem_map.mp hentry
        obtain rfl : v = some u := by simpa using hu
        exact not_record_of_sectionOfVariables hv

variable {w : Surroundings} {path : Files.Path}

theorem recordless_alignNames {given : Entries} (h : given.Recordless) :
    (alignNames given).Recordless := by
  refine List.forall_mem_append.mpr ⟨fun entry hentry => ?_, fun entry hentry => ?_⟩
  · obtain ⟨s, -, hs⟩ := List.mem_filterMap.mp hentry
    obtain ⟨v, hv, rfl⟩ := Option.map_eq_some_iff.mp hs
    obtain hown | ⟨-, hother⟩ := Option.or_eq_some_iff.mp hv
    · exact h.get? hown
    · obtain ⟨other, hfind, rfl⟩ := Option.map_eq_some_iff.mp hother
      exact h other (List.mem_of_find?_eq_some hfind)
  · exact h entry (List.mem_filter.mp hentry).1

theorem recordless_ofFile {given : Entries} (h : ofFile w path = .ok given) : given.Recordless := by
  unfold ofFile at h
  cases hhome : expandHome w path with
  | error e => rw [hhome] at h; cases h
  | ok place =>
    simp only [hhome, bind, Except.bind] at h
    split at h
    · split at h
      · next hread =>
        cases h
        exact recordless_alignNames (Toml.recordless_read hread)
      · cases h
    · cases h
      exact fun entry hentry => by cases hentry

end Settings

end MarkdownTree
