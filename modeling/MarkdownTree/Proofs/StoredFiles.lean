import Mathlib.Data.List.Nodup
import MarkdownTree.Files.Store

/-!
Files in a store. A change in one place leaves the ways to all places as they are, as long as the
place is that of no folder; so a file that is written, removed or written anew is found again where
it was asked for, and nothing else is changed.
-/

namespace MarkdownTree.Files.Store

variable {s t : Store} {place target : Place} {names more : List String} {e : Entry} {p : Path}
  {text : String} {c : Change}

theorem lookup_filter_of_ne {entries : List (Place × Entry)} (h : place ≠ target) :
    (entries.filter (·.1 != target)).lookup place = entries.lookup place := by
  induction entries with
  | nil => rfl
  | cons entry entries ih =>
    obtain ⟨other, e⟩ := entry
    by_cases hother : other = target
    · subst hother
      have hne : (place == other) = false := by simpa using h
      simpa [List.lookup_cons, hne] using ih
    · rw [List.filter_cons_of_pos (by simpa using hother)]
      simp only [List.lookup_cons, ih]

theorem lookup_filter_self {entries : List (Place × Entry)} :
    (entries.filter (·.1 != target)).lookup target = none := by
  refine List.lookup_eq_none_iff.mpr fun entry hentry => ?_
  have hne := bne_iff_ne.mp (List.mem_filter.mp hentry).2
  exact bne_iff_ne.mpr hne.symm

/-- The places that are folders whatever was put into them. -/
theorem entry?_eq_lookup (h : s.entry? place ≠ some .folder) :
    ¬(place = [] ∨ place = s.working) ∧ s.entry? place = s.entries.lookup place := by
  have hplain : ¬(place = [] ∨ place = s.working) := fun halways => h (if_pos halways)
  exact ⟨hplain, if_neg hplain⟩

theorem entry?_put_self (h : s.entry? target ≠ some .folder) :
    entry? (s.put target e) target = some e := by
  rw [ entry?, put, if_neg ( entry?_eq_lookup h).1]
  simp

theorem entry?_put_of_ne (h : place ≠ target) :
    entry? (s.put target e) place = s.entry? place := by
  have hne : (place == target) = false := by simpa using h
  simp only [ entry?, put, List.lookup_cons, hne, lookup_filter_of_ne h]

theorem entry?_erase_self (h : s.entry? target ≠ some .folder) :
    entry? (s.erase target) target = none := by
  rw [ entry?, erase, if_neg ( entry?_eq_lookup h).1, lookup_filter_self]

theorem entry?_erase_of_ne (h : place ≠ target) :
    entry? (s.erase target) place = s.entry? place := by
  simp only [ entry?, erase, lookup_filter_of_ne h]

theorem follow_folder (h : s.entry? place = some .folder) (name : String) (rest : List String) :
    s.follow place (name :: rest) =
      s.follow (if name = ".." then place.dropLast else place ++ [name]) rest := by
  rw [follow, h]

theorem follow_eq_error (h : s.entry? place ≠ some .folder) (name : String) (rest : List String) :
    ∃ reason, s.follow place (name :: rest) = .error reason := by
  unfold follow
  split
  · exact ⟨_, rfl⟩
  · exact ⟨_, rfl⟩
  · next hfolder => exact absurd hfolder h

/-- The folders of two stores are the same, and so is the one that ways start from. -/
structure SameFolders (s t : Store) : Prop where
  working : t.working = s.working
  folder_iff (place : Place) : t.entry? place = some .folder ↔ s.entry? place = some .folder

/-- Where the folders are the same, the same ways lead on, to the same places. -/
theorem SameFolders.follow_iff (h : SameFolders s t) :
    t.follow place names = .ok target ↔ s.follow place names = .ok target := by
  induction names generalizing place with
  | nil => rfl
  | cons name rest ih =>
    by_cases hfolder : s.entry? place = some .folder
    · rw [follow_folder hfolder, follow_folder ((h.folder_iff place).2 hfolder)]
      exact ih
    · obtain ⟨reason, hs⟩ := follow_eq_error hfolder name rest
      obtain ⟨other, ht⟩ := follow_eq_error (mt (h.folder_iff place).1 hfolder) name rest
      rw [hs, ht]
      exact ⟨fun heq => (by cases heq), fun heq => (by cases heq)⟩

theorem locate_eq_ok_iff : s.locate p = .ok place ↔ s.follow (s.start p) p.parts = .ok place := by
  unfold locate
  cases s.follow (s.start p) p.parts <;> simp [Except.mapError]

theorem SameFolders.locate_iff (h : SameFolders s t) :
    t.locate p = .ok place ↔ s.locate p = .ok place := by
  have hstart : t.start p = s.start p := by rw [start, h.working, start]
  rw [locate_eq_ok_iff, locate_eq_ok_iff, h.follow_iff, hstart]

/-- Stores with the same folders that agree everywhere but in one place differ for the paths that
lead there. -/
theorem SameFolders.at?_eq (h : SameFolders s t)
    (hagree : ∀ other, other ≠ target → t.entry? other = s.entry? other) (p : Path) :
    t.at? p = if s.locate p = .ok target then t.entry? target else s.at? p := by
  unfold at?
  cases hs : s.locate p with
  | ok place =>
    rw [h.locate_iff.2 hs]
    by_cases heq : place = target
    · subst heq
      exact (if_pos rfl).symm
    · rw [if_neg fun hok => heq (Except.ok.inj hok)]
      exact hagree place heq
  | error e =>
    rw [if_neg (by simp)]
    cases ht : t.locate p with
    | ok place => exact absurd (hs.symm.trans (h.locate_iff.1 ht)) (by simp)
    | error e => rfl

/-- One store is another with an entry, or none, in one place that is that of no folder. -/
structure Becomes (s t : Store) (target : Place) (e? : Option Entry) : Prop where
  working : t.working = s.working
  refuse : t.refuse = s.refuse
  before : s.entry? target ≠ some .folder
  after : e? ≠ some .folder
  self : t.entry? target = e?
  others (place : Place) (h : place ≠ target) : t.entry? place = s.entry? place

namespace Becomes

variable {u : Store} {e? f? : Option Entry}

theorem sameFolders (h : s.Becomes t target e?) : SameFolders s t := by
  refine ⟨h.working, fun place => ?_⟩
  by_cases heq : place = target
  · subst heq
    rw [h.self]
    exact iff_of_false h.after h.before
  · rw [h.others place heq]

theorem locate_iff (h : s.Becomes t target e?) : t.locate p = .ok place ↔ s.locate p = .ok place :=
  h.sameFolders.locate_iff

/-- What paths lead to is as before, but for those that lead to the place that was changed. -/
theorem at?_eq (h : s.Becomes t target e?) (p : Path) :
    t.at? p = if s.locate p = .ok target then e? else s.at? p := by
  rw [h.sameFolders.at?_eq h.others, h.self]

theorem trans (hst : s.Becomes t target e?) (htu : t.Becomes u target f?) :
    s.Becomes u target f? :=
  ⟨htu.working.trans hst.working, htu.refuse.trans hst.refuse, hst.before, htu.after, htu.self,
    fun place hplace => (htu.others place hplace).trans (hst.others place hplace)⟩

end Becomes

theorem becomes_put (hplace : s.entry? target ≠ some .folder) (he : e ≠ .folder) :
    s.Becomes (s.put target e) target (some e) :=
  ⟨rfl, rfl, hplace, fun heq => he (Option.some.inj heq),
    entry?_put_self hplace, fun _ => entry?_put_of_ne⟩

theorem becomes_erase (hplace : s.entry? target ≠ some .folder) :
    s.Becomes (s.erase target) target none :=
  ⟨rfl, rfl, hplace, by simp, entry?_erase_self hplace, fun _ => entry?_erase_of_ne⟩

theorem change_eq_ok_iff : s.change p c = .ok t ↔ s.refuse c = none ∧ t = s.changed c := by
  cases hrefuse : s.refuse c <;> simp [change, hrefuse, eq_comm]

/-- Writing to a place that is that of no folder is a change of it. -/
theorem write_eq (hlocate : s.locate p = .ok place) (hplace : s.entry? place ≠ some .folder) :
    s.write p text = s.change p (.write place text) := by
  unfold write
  rw [hlocate]
  split
  · next h => cases h
  · next h =>
    cases h
    split
    · next hfolder => exact absurd hfolder hplace
    · rfl

theorem write_eq_ok (h : s.write p text = .ok t) :
    ∃ place, s.locate p = .ok place ∧ s.Becomes t place (some (.file text)) := by
  unfold write at h
  split at h
  · cases h
  · next place hlocate =>
    split at h
    · cases h
    · next hplace =>
      obtain ⟨-, rfl⟩ := change_eq_ok_iff.1 h
      exact ⟨place, hlocate, becomes_put (by simpa using hplace) (by simp)⟩

/-- A file that was written is there. -/
theorem at?_of_write (h : s.write p text = .ok t) : t.at? p = some (.file text) := by
  obtain ⟨place, hlocate, hbecomes⟩ := write_eq_ok h
  rw [hbecomes.at?_eq, if_pos hlocate]

theorem at?_eq_some (h : s.at? p = some e) :
    ∃ place, s.locate p = .ok place ∧ s.entry? place = some e := by
  unfold at? at h
  split at h
  · next place hplace => exact ⟨place, hplace, h⟩
  · cases h

def cleared (s : Store) (p : Path) : Except Fault Store :=
  if (s.at? p).isSome then s.remove p else .ok s

theorem cleared_of_file (hlocate : s.locate p = .ok place)
    (hfile : s.entry? place = some (.file text)) :
    s.cleared p = s.change p (.remove place) := by
  have hat : s.at? p = some (.file text) := by
    rw [at?, hlocate]
    exact hfile
  rw [cleared, hat, remove, hlocate]
  simp only [Option.isSome_some, if_true, hfile]

/-- Where a file was removed nothing is left. -/
theorem at?_of_cleared (h : s.cleared p = .ok t) : t.at? p = none := by
  cases hat : s.at? p with
  | none =>
    rw [cleared, hat] at h
    cases h
    exact hat
  | some e =>
    obtain ⟨place, hlocate, hentry⟩ := at?_eq_some hat
    cases e with
    | folder =>
      rw [cleared, hat, remove, hlocate] at h
      simp [hentry] at h
    | file text =>
      rw [cleared_of_file hlocate hentry] at h
      obtain ⟨-, rfl⟩ := change_eq_ok_iff.1 h
      have herase : s.Becomes (s.erase place) place none := becomes_erase (by simp [hentry])
      rw [changed, herase.at?_eq, if_pos hlocate]

end MarkdownTree.Files.Store
