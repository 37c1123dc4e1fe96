import MarkdownTree.Proofs.ReloadedSettings

/-!
Settings files that are made anew in the place of others. The old file is removed before anything is
known of the new one: if the sources that are left give no settings, or the new file cannot be
written, it is lost. No other file is touched in any case.
-/

namespace MarkdownTree

namespace Files.Store

variable {s : Store} {place : Place} {text : String} {p : Path}

/-- A file is written where there is one, or none. -/
theorem Becomes.write_eq {t : Store} {e? : Option Entry} (h : s.Becomes t place e?)
    (hlocate : s.locate p = .ok place) (new : String) :
    t.write p new = match s.refuse (.write place new) with
      | some reason => .error ⟨reason, p⟩
      | none => .ok (t.put place (.file new)) := by
  have hplace : t.entry? place ≠ some .folder := by
    rw [h.self]
    exact h.after
  rw [Store.write_eq (h.locate_iff.2 hlocate) hplace, change, h.refuse]
  cases s.refuse (.write place new) <;> rfl

/-- Where a file may be, one is put. -/
theorem Becomes.put {t : Store} {e? : Option Entry} (h : s.Becomes t place e?) (new : String) :
    s.Becomes (t.put place (.file new)) place (some (.file new)) := by
  refine h.trans (becomes_put ?_ (by simp))
  rw [h.self]
  exact h.after

end Files.Store

namespace Settings

variable {lib : Libraries} {path : Files.Path} {u : Surroundings} {text : String}

end Settings

end MarkdownTree
