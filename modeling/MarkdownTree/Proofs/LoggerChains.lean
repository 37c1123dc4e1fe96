import Mathlib.Data.List.TakeWhile
import MarkdownTree.Log.Recorder

/-!
Chains of loggers. The chain of a logger goes on as that of the logger next above it, so what holds
along chains is proved from the root down. A message is heard where some logger on the way up prints
it; it is then heard from everything below too. A new logger comes into a chain or leaves it as it
was, and levels and printing change no chain.
-/

namespace MarkdownTree.Log

variable {h : Hierarchy} {l p : Logger} {below name other : String} {cs : List Char}
  {change : Logger → Logger}

namespace Hierarchy

def canonical (name : String) : String :=
  if isRootName name then rootName else name

theorem isRootName_rootName : isRootName rootName = true := by
  simp [isRootName]

theorem canonical_of_isRootName (hname : isRootName name = true) : canonical name = rootName :=
  if_pos hname

theorem canonical_of_not (hname : isRootName name = false) : canonical name = name := by
  rw [canonical, hname]
  rfl

theorem canonical_canonical (name : String) : canonical (canonical name) = canonical name := by
  rcases hname : isRootName name
  · rw [canonical_of_not hname, canonical_of_not hname]
  · rw [canonical_of_isRootName hname, canonical_of_isRootName isRootName_rootName]

theorem ne_rootName (hname : isRootName name = false) : name ≠ rootName := by
  rintro rfl
  rw [isRootName_rootName] at hname
  cases hname

theorem isRootName_of_ne (hname : canonical name = name) (hne : name ≠ rootName) :
    isRootName name = false := by
  cases hroot : isRootName name with
  | false => rfl
  | true =>
      rw [canonical_of_isRootName hroot] at hname
      exact absurd hname.symm hne

theorem chain_canonical (h : Hierarchy) (name : String) :
    h.chain (canonical name) = h.chain name := by
  rcases hname : isRootName name
  · rw [canonical_of_not hname]
  · rw [canonical_of_isRootName hname]
    simp [chain, get, ancestors, hname, isRootName_rootName]

/-! ### Finding loggers -/

theorem name_of_find? (hl : h.find? name = some l) : l.name = name := by
  simpa using List.find?_some hl

theorem find?_isSome_iff : (h.find? name).isSome ↔ name ∈ h.loggers.map (·.name) := by
  rw [find?, List.find?_isSome, List.mem_map]
  simp

theorem visible?_eq_some_iff : h.visible? below name = some l ↔
    h.find? name = some l ∧ (displacesRoot name = true ∨ h.madeBefore name below = true) := by
  unfold visible?
  cases hname : h.find? name with
  | none => simp
  | some l' =>
      by_cases hvis : (displacesRoot name || h.madeBefore name below) = true
      · simp [hvis, ← Bool.or_eq_true]
      · simp [hvis, ← Bool.or_eq_true]

/-- Above the nearest ancestor come its own ancestors. -/
theorem ancestorsFrom_eq_cons {rest : List Logger} (hl : h.ancestorsFrom below cs = l :: rest) :
    h.find? l.name = some l ∧ rest = h.ancestorsFrom l.name l.name.toList.reverse := by
  fun_induction ancestorsFrom h below cs with
  | case1 below c cs found hvisible ih =>
      obtain ⟨rfl, rfl⟩ := List.cons.inj hl
      obtain ⟨hfound, -⟩ := visible?_eq_some_iff.1 hvisible
      have hname := name_of_find? hfound
      have hchars : found.name.toList.reverse = c :: cs := by simp [hname]
      rw [hchars, hname]
      exact ⟨hfound, rfl⟩
  | case2 below c cs hvisible ih => exact ih hl
  | case3 below c cs hne ih => exact ih hl
  | case4 => cases hl

/-- The root goes by its own name, and no other logger by one of its names. -/
structure Proper (h : Hierarchy) : Prop where
  root_name : h.root.name = rootName
  below (name : String) (hname : isRootName name = true) : h.find? name = none

/-- Whether there is a logger of a name. -/
def Known (h : Hierarchy) (name : String) : Prop :=
  name = rootName ∨ (h.find? name).isSome

theorem Known.isSome (hknown : h.Known (canonical name)) (hname : isRootName name = false) :
    (h.find? name).isSome := by
  rw [canonical_of_not hname] at hknown
  exact hknown.resolve_left (ne_rootName hname)

namespace Proper

variable (hh : h.Proper)

include hh

theorem isRootName_eq_false (hl : h.find? name = some l) : isRootName name = false := by
  cases hname : isRootName name with
  | false => rfl
  | true =>
      rw [hh.below name hname] at hl
      cases hl

theorem name_get (name : String) : (h.get name).name = canonical name := by
  unfold get canonical
  cases hname : isRootName name with
  | true => exact hh.root_name
  | false =>
      cases hl : h.find? name with
      | none => rfl
      | some l => exact name_of_find? hl

theorem get_of_find? (hl : h.find? name = some l) : h.get name = l := by
  simp [get, hh.isRootName_eq_false hl, hl]

/-- The chain below the root goes on as the chain of the logger above. -/
theorem exists_parent (hname : isRootName name = false) :
    ∃ q, h.ancestors name = h.chain q ∧ h.Known q ∧ canonical q = q := by
  have hroot : h.chain rootName = [h.root] := by simp [chain, get, ancestors, isRootName_rootName]
  simp only [ancestors, hname, Bool.false_eq_true, if_false]
  cases habove : h.ancestorsFrom name name.toList.reverse with
  | nil =>
      exact ⟨rootName, by rw [hroot, List.nil_append], .inl rfl,
        canonical_of_isRootName isRootName_rootName⟩
  | cons q rest =>
      obtain ⟨hfound, hrest⟩ := ancestorsFrom_eq_cons habove
      have hbelow := hh.isRootName_eq_false hfound
      refine ⟨q.name, ?_, .inr (by rw [hfound]; rfl), canonical_of_not hbelow⟩
      rw [chain, hh.get_of_find? hfound, ancestors, hbelow, hrest]
      rfl

/-- The parent, unless it is the root, is the first logger on the walk up. -/
theorem walk_of_parent {q : String} (hname : isRootName name = false)
    (hchain : h.ancestors name = h.chain q) (hq : canonical q = q) (hroot : q ≠ rootName) :
    ∃ l rest, h.ancestorsFrom name name.toList.reverse = l :: rest ∧ l.name = q := by
  have hhead : (h.get q).name = q := by rw [hh.name_get, hq]
  simp only [ancestors, hname, Bool.false_eq_true, if_false] at hchain
  cases hwalk : h.ancestorsFrom name name.toList.reverse with
  | nil =>
      rw [hwalk, List.nil_append, chain] at hchain
      rw [← (List.cons.inj hchain).1, hh.root_name] at hhead
      exact absurd hhead.symm hroot
  | cons l rest =>
      rw [hwalk, List.cons_append, chain] at hchain
      exact ⟨l, rest, rfl, by rw [(List.cons.inj hchain).1, hhead]⟩

theorem exists_root_mem_chain (name : String) : ∃ l ∈ h.chain name, l.name = rootName := by
  refine ⟨h.root, ?_, hh.root_name⟩
  cases hname : isRootName name with
  | true => simp [chain, Hierarchy.get, hname]
  | false => simp [chain, ancestors, hname]

end Proper

theorem chain_root (hname : isRootName name = true) : h.chain name = [h.root] := by
  simp [chain, get, ancestors, hname]

theorem chain_below {q : String} (hq : h.ancestors name = h.chain q) :
    h.chain name = h.get name :: h.chain q := by
  rw [chain, hq]

/-- What holds of the root, and of each name if it does of the one above, holds of all names. -/
theorem Proper.chain_induction (hh : h.Proper) {P : String → Prop}
    (root : ∀ name, isRootName name = true → P name)
    (below : ∀ name q, isRootName name = false → h.chain name = h.get name :: h.chain q →
      h.Known q → canonical q = q → P q → P name) (name : String) : P name := by
  -- Each step up leaves one logger less on the chain.
  generalize hk : (h.chain name).length = k
  induction k using Nat.strongRecOn generalizing name with
  | ind k ih =>
      cases hname : isRootName name with
      | true => exact root name hname
      | false =>
          obtain ⟨q, hq, hknown, hcanonical⟩ := hh.exists_parent hname
          have hchain := chain_below hq
          refine below name q hname hchain hknown hcanonical (ih _ ?_ q rfl)
          rw [← hk, hchain, List.length_cons]
          exact Nat.lt_succ_self _

theorem Proper.mem_chain (hh : h.Proper) (hl : l ∈ h.chain name) :
    h.get l.name = l ∧ (l.name = canonical name ∨ h.Known l.name) := by
  induction name using hh.chain_induction with
  | root name hname =>
      rw [chain_root hname, List.mem_singleton] at hl
      rw [hl, hh.root_name]
      exact ⟨by simp [get, isRootName_rootName], .inr (.inl rfl)⟩
  | below name q hname hchain hknown hcanonical ih =>
      rw [hchain] at hl
      rcases List.mem_cons.1 hl with rfl | hl
      · rw [hh.name_get, canonical_of_not hname]
        exact ⟨rfl, .inl rfl⟩
      · obtain ⟨hget, hl | hl⟩ := ih hl
        · exact ⟨hget, .inr (by rwa [hl, hcanonical])⟩
        · exact ⟨hget, .inr hl⟩

theorem Proper.canonical_of_mem_chain (hh : h.Proper) (hl : l ∈ h.chain name) :
    canonical l.name = l.name := by
  rw [← hh.name_get, (hh.mem_chain hl).1]

theorem Proper.length_chain_le (hh : h.Proper) (hl : l ∈ h.chain name) :
    (h.chain l.name).length ≤ (h.chain name).length := by
  induction name using hh.chain_induction with
  | root name hname =>
      rw [chain_root hname, List.mem_singleton] at hl
      rw [hl, hh.root_name, ← canonical_of_isRootName hname, chain_canonical]
  | below name q hname hchain _ _ ih =>
      rw [hchain] at hl
      rcases List.mem_cons.1 hl with rfl | hl
      · rw [hh.name_get, chain_canonical]
      · rw [hchain, List.length_cons]
        exact Nat.le_succ_of_le (ih hl)

/-- No logger is above those above it. -/
theorem Proper.ne_of_mem_chain (hh : h.Proper) {k : Logger} (hl : l ∈ h.chain name)
    (hne : l.name ≠ canonical name) (hk : k ∈ h.chain l.name) : k.name ≠ canonical name := by
  intro hkname
  have hle := hh.length_chain_le hk
  rw [hkname, chain_canonical] at hle
  cases hname : isRootName name with
  | true =>
      rw [chain_root hname, List.mem_singleton] at hl
      rw [hl, hh.root_name, canonical_of_isRootName hname] at hne
      exact hne rfl
  | false =>
      obtain ⟨q, hq, -, -⟩ := hh.exists_parent hname
      rw [chain_below hq] at hl hle
      rcases List.mem_cons.1 hl with rfl | hl
      · exact hne (hh.name_get name)
      · have hlq := hh.length_chain_le hl
        rw [List.length_cons] at hle
        omega

/-! ### Being heard -/

/-- Whether some logger prints what is logged under a name. -/
def Heard (h : Hierarchy) (name : String) : Prop :=
  ∃ l ∈ reporting (h.chain name), l.prints = true

theorem heard_iff : h.Heard name ↔ (h.printers name).isEmpty = false := by
  rw [printers, List.isEmpty_eq_false_iff, ne_eq, List.filter_eq_nil_iff]
  simp [Heard]

theorem reporting_subset (loggers : List Logger) : reporting loggers ⊆ loggers := by
  induction loggers with
  | nil => exact fun l hl => hl
  | cons l loggers ih =>
      unfold reporting
      split
      · exact List.cons_subset_cons l ih
      · simp

theorem get_mem_reporting (h : Hierarchy) (name : String) :
    h.get name ∈ reporting (h.chain name) := by
  rw [chain, reporting]
  split <;> exact List.mem_cons_self

theorem heard_canonical : h.Heard (canonical name) ↔ h.Heard name := by
  rw [Heard, chain_canonical, Heard]

theorem heard_cons {q : String} (hchain : h.chain name = l :: h.chain q) :
    h.Heard name ↔ l.prints = true ∨ l.reports = true ∧ h.Heard q := by
  rw [Heard, hchain, reporting]
  cases hreports : l.reports <;> simp [Heard]

/-- Every logger prints or reports. -/
def Sound (h : Hierarchy) : Prop :=
  ∀ name, (h.get name).reports = true ∨ (h.get name).prints = true

/-- What is heard at a logger is heard from below it. -/
theorem Proper.heard_of_mem (hh : h.Proper) (hsound : h.Sound) (hl : l ∈ h.chain name)
    (hheard : h.Heard l.name) : h.Heard name := by
  induction name using hh.chain_induction with
  | root name hname =>
      rw [chain_root hname, List.mem_singleton] at hl
      rwa [hl, hh.root_name, ← canonical_of_isRootName hname, heard_canonical] at hheard
  | below name q hname hchain _ _ ih =>
      rw [hchain] at hl
      rcases List.mem_cons.1 hl with rfl | hl
      · rwa [hh.name_get, heard_canonical] at hheard
      · rw [heard_cons hchain]
        rcases hsound name with hreports | hprints
        · exact .inr ⟨hreports, ih hl⟩
        · exact .inl hprints

/-! ### Changing a logger -/

def changed (name : String) (change : Logger → Logger) (l : Logger) : Logger :=
  if l.name = canonical name then change l else l

/-- A change that keeps the name of a logger and what it reports, and stops no logger from
printing. -/
structure Gentle (change : Logger → Logger) : Prop where
  name (l : Logger) : (change l).name = l.name
  reports (l : Logger) : (change l).reports = l.reports
  prints (l : Logger) (hl : l.prints = true) : (change l).prints = true

theorem Gentle.changed (hc : Gentle change) (name : String) : Gentle (changed name change) where
  name l := by
    unfold Hierarchy.changed
    split
    · exact hc.name l
    · rfl
  reports l := by
    unfold Hierarchy.changed
    split
    · exact hc.reports l
    · rfl
  prints l hl := by
    unfold Hierarchy.changed
    split
    · exact hc.prints l hl
    · exact hl

theorem Proper.find?_modify (hh : h.Proper) (hc : Gentle change) (name other : String) :
    (h.modify name change).find? other = (h.find? other).map (changed name change) := by
  unfold modify
  cases hname : isRootName name with
  | true =>
      cases hl : h.find? other with
      | none => exact hl
      | some l =>
          have hne : l.name ≠ canonical name := by
            rw [name_of_find? hl, canonical_of_isRootName hname]
            rintro rfl
            rw [hh.below _ isRootName_rootName] at hl
            cases hl
          rw [Option.map_some, changed, if_neg hne]
          exact hl
  | false =>
      have hchange : (fun l : Logger => if (l.name == name) = true then change l else l) =
          changed name change := by
        funext l
        simp [changed, canonical_of_not hname]
      have hsame : ((fun l : Logger => l.name == other) ∘ changed name change) =
          fun l => l.name == other := by
        funext l
        simp [(hc.changed name).name]
      simp only [Bool.false_eq_true, if_false, find?, hchange, List.find?_map, hsame]

theorem names_modify (hc : Gentle change) (h : Hierarchy) (name : String) :
    (h.modify name change).loggers.map (·.name) = h.loggers.map (·.name) := by
  unfold modify
  split
  · rfl
  · rw [List.map_map]
    refine List.map_congr_left fun l _ => ?_
    simp only [Function.comp_apply]
    split
    · exact hc.name l
    · rfl

theorem madeBefore_eq (h : Hierarchy) (first second : String) :
    h.madeBefore first second =
      ((h.loggers.map (·.name)).takeWhile (· != second)).contains first := by
  rw [madeBefore, List.takeWhile_map, List.contains_map]
  congr 1
  funext l
  exact Bool.beq_comm

/-- A change to a logger shows wherever it stands in a chain, and nowhere else. -/
theorem Proper.ancestorsFrom_modify (hh : h.Proper) (hc : Gentle change)
    (name below : String) (cs : List Char) :
    (h.modify name change).ancestorsFrom below cs =
      (h.ancestorsFrom below cs).map (changed name change) := by
  have hvisible (below other : String) : (h.modify name change).visible? below other =
      (h.visible? below other).map (changed name change) := by
    have hbefore : (h.modify name change).madeBefore other below = h.madeBefore other below := by
      rw [madeBefore_eq, names_modify hc, madeBefore_eq]
    unfold visible?
    rw [hh.find?_modify hc, hbefore]
    cases h.find? other <;> simp
  fun_induction ancestorsFrom h below cs with
  | case1 below c cs found hfound ih =>
      rw [ancestorsFrom, hvisible, hfound, List.map_cons, ← ih]
      simp [(hc.changed name).name]
  | case2 below c cs hnone ih =>
      rw [ancestorsFrom, hvisible, hnone, ← ih]
      rfl
  | case3 below c cs hne ih =>
      rw [ancestorsFrom, ih]
      exact hne
  | case4 => rfl

theorem Proper.root_modify (hh : h.Proper) (name : String) (change : Logger → Logger) :
    (h.modify name change).root = changed name change h.root := by
  unfold modify changed
  cases hname : isRootName name with
  | true => simp [hh.root_name, canonical_of_isRootName hname]
  | false =>
      have hne : rootName ≠ canonical name := by
        rw [canonical_of_not hname]
        exact (ne_rootName hname).symm
      simp [hh.root_name, hne]

theorem Proper.get_modify (hh : h.Proper) (hc : Gentle change) (hknown : h.Known (canonical name))
    (other : String) : (h.modify name change).get other = changed name change (h.get other) := by
  unfold get
  cases hother : isRootName other with
  | true => exact hh.root_modify name change
  | false =>
      rw [hh.find?_modify hc]
      cases hl : h.find? other with
      | some l => rfl
      | none =>
          have hne : other ≠ canonical name := by
            intro heq
            rw [heq] at hother hl
            rw [← canonical_canonical name] at hknown
            have hfound := hknown.isSome hother
            rw [hl] at hfound
            cases hfound
          simp [changed, hne]

theorem Proper.chain_modify (hh : h.Proper) (hc : Gentle change)
    (hknown : h.Known (canonical name)) (other : String) :
    (h.modify name change).chain other = (h.chain other).map (changed name change) := by
  rw [chain, chain, List.map_cons, hh.get_modify hc hknown, ancestors, ancestors,
    hh.root_modify, hh.ancestorsFrom_modify hc]
  split <;> simp

theorem Proper.modify (hh : h.Proper) (hc : Gentle change) (name : String) :
    (h.modify name change).Proper where
  root_name := by rw [hh.root_modify, (hc.changed name).name, hh.root_name]
  below other hother := by rw [hh.find?_modify hc, hh.below other hother]; rfl

theorem Proper.known_modify (hh : h.Proper) (hc : Gentle change) :
    (h.modify name change).Known other ↔ h.Known other := by
  rw [Known, Known, hh.find?_modify hc, Option.isSome_map]

theorem modify_of_not_known (hunknown : ¬ h.Known (canonical name)) : h.modify name change = h := by
  cases hname : isRootName name with
  | true => exact absurd (.inl (canonical_of_isRootName hname)) hunknown
  | false =>
      rw [canonical_of_not hname, Known, not_or, find?_isSome_iff] at hunknown
      have hsame : h.loggers.map (fun l => if (l.name == name) = true then change l else l) =
          h.loggers := by
        refine (List.map_congr_left fun l hl => ?_).trans (List.map_id _)
        have hne : l.name ≠ name := fun heq => hunknown.2 (List.mem_map.2 ⟨l, hl, heq⟩)
        simp [hne]
      simp only [Hierarchy.modify, hname, Bool.false_eq_true, if_false, hsame]

theorem Proper.sound_modify (hh : h.Proper) (hc : Gentle change) (hknown : h.Known (canonical name))
    (hsound : h.Sound) : (h.modify name change).Sound := by
  intro other
  rw [hh.get_modify hc hknown, (hc.changed name).reports]
  exact (hsound other).imp_right ((hc.changed name).prints _)

theorem reporting_map (hc : Gentle change) (loggers : List Logger) :
    reporting (loggers.map change) = (reporting loggers).map change := by
  induction loggers with
  | nil => rfl
  | cons l loggers ih =>
      rw [List.map_cons, reporting, reporting, hc.reports, ih]
      split <;> rfl

theorem Proper.heard_modify (hh : h.Proper) (hc : Gentle change) (hknown : h.Known (canonical name))
    (hheard : h.Heard other) : (h.modify name change).Heard other := by
  obtain ⟨l, hl, hprints⟩ := hheard
  refine ⟨changed name change l, ?_, (hc.changed name).prints l hprints⟩
  rw [hh.chain_modify hc hknown, reporting_map (hc.changed name)]
  exact List.mem_map_of_mem hl

/-! ### A new logger -/

def fresh (name : String) : Logger :=
  ⟨name, .number 0, false, true⟩

theorem add_eq (hname : isRootName name = false) (hnew : h.find? name = none) :
    h.add name = { h with loggers := h.loggers ++ [fresh name] } := by
  simp [add, hname, hnew, fresh]

theorem add_of_known (hknown : h.Known (canonical name)) : h.add name = h := by
  unfold add
  cases hname : isRootName name with
  | true => rfl
  | false => simp [hknown.isSome hname]

theorem find?_add (hname : isRootName name = false) (hnew : h.find? name = none) (other : String) :
    (h.add name).find? other = if other = name then some (fresh name) else h.find? other := by
  rw [add_eq hname hnew, find?, List.find?_append]
  change (h.find? other).or _ = _
  by_cases hother : other = name
  · simp [hother, hnew, fresh]
  · simp [hother, fresh, Ne.symm hother]

theorem get_add (h : Hierarchy) (name other : String) : (h.add name).get other = h.get other := by
  cases hname : isRootName name with
  | true => simp [add, hname]
  | false =>
      cases hnew : h.find? name with
      | some l => simp [add, hname, hnew]
      | none =>
          rw [get, find?_add hname hnew, get, add_eq hname hnew]
          by_cases hother : other = name
          · simp [hother, hnew, fresh]
          · simp [hother]

theorem add_canonical (h : Hierarchy) (name : String) : h.add (canonical name) = h.add name := by
  cases hname : isRootName name with
  | true => simp [add, hname, canonical_of_isRootName hname, isRootName_rootName]
  | false => rw [canonical_of_not hname]

theorem Sound.add (hsound : h.Sound) (name : String) : (h.add name).Sound := by
  intro other
  rw [get_add]
  exact hsound other

theorem known_add_iff : (h.add name).Known other ↔ h.Known other ∨ other = canonical name := by
  by_cases hknown : h.Known (canonical name)
  · rw [add_of_known hknown, or_iff_left_of_imp]
    rintro rfl
    exact hknown
  · cases hname : isRootName name with
    | true => exact absurd (.inl (canonical_of_isRootName hname)) hknown
    | false =>
        rw [canonical_of_not hname, Known, not_or] at hknown
        have hnew : h.find? name = none := by simpa using hknown.2
        rw [canonical_of_not hname, Known, find?_add hname hnew, Known]
        by_cases hother : other = name <;> simp [hother]

theorem known_add (h : Hierarchy) (name : String) : (h.add name).Known (canonical name) :=
  known_add_iff.2 (.inr rfl)

theorem Proper.add (hh : h.Proper) (name : String) : (h.add name).Proper := by
  cases hname : isRootName name with
  | true => simpa [Hierarchy.add, hname] using hh
  | false =>
      cases hnew : h.find? name with
      | some l => simpa [Hierarchy.add, hname, hnew] using hh
      | none =>
          refine ⟨by rw [add_eq hname hnew]; exact hh.root_name, fun other hother => ?_⟩
          rw [find?_add hname hnew, if_neg, hh.below other hother]
          rintro rfl
          rw [hname] at hother
          cases hother

/-- A new logger comes into the walk up from an older one, or that is as before. -/
theorem ancestorsFrom_add (cs : List Char) (hname : isRootName name = false)
    (hnew : h.find? name = none) (hbelow : (h.find? below).isSome) :
    (∃ l ∈ (h.add name).ancestorsFrom below cs, l.name = name) ∨
      (h.add name).ancestorsFrom below cs = h.ancestorsFrom below cs := by
  -- For other names nothing changes, since the new logger was made after all the others.
  have hvisible {below other : String} (hbelow : (h.find? below).isSome) (hne : other ≠ name) :
      (h.add name).visible? below other = h.visible? below other := by
    have hmem : below ∈ h.loggers.map (·.name) := find?_isSome_iff.1 hbelow
    have hbefore : (h.add name).madeBefore other below = h.madeBefore other below := by
      rw [madeBefore_eq, madeBefore_eq, add_eq hname hnew, List.map_append, List.takeWhile_append]
      rw [if_neg]
      intro hlen
      have hall := (List.takeWhile_prefix _).eq_of_length hlen
      rw [List.takeWhile_eq_self_iff] at hall
      simpa using hall below hmem
    rw [visible?, visible?, find?_add hname hnew, if_neg hne, hbefore]
  fun_induction ancestorsFrom h below cs with
  | case1 below c cs found hfound ih =>
      obtain ⟨hfind, -⟩ := visible?_eq_some_iff.1 hfound
      have hne : String.ofList (c :: cs).reverse ≠ name := by
        rintro rfl
        rw [hnew] at hfind
        cases hfind
      have hold : (h.find? found.name).isSome := by rw [name_of_find? hfind, hfind]; rfl
      rw [ancestorsFrom, hvisible hbelow hne, hfound]
      rcases ih hold with ⟨l, hl, hlname⟩ | hsame
      · exact .inl ⟨l, List.mem_cons_of_mem _ hl, hlname⟩
      · exact .inr (congrArg (found :: ·) hsame)
  | case2 below c cs hnone ih =>
      by_cases hother : String.ofList (c :: cs).reverse = name
      · cases hnow : (h.add name).visible? below name with
        | some l =>
            obtain ⟨hfind, -⟩ := visible?_eq_some_iff.1 hnow
            refine .inl ⟨l, ?_, name_of_find? hfind⟩
            rw [ancestorsFrom, hother, hnow]
            exact List.mem_cons_self
        | none =>
            rw [ancestorsFrom, hother, hnow]
            exact ih hbelow
      · rw [ancestorsFrom, hvisible hbelow hother, hnone]
        exact ih hbelow
  | case3 below c cs hne ih =>
      rw [ancestorsFrom]
      · exact ih hbelow
      · exact hne
  | case4 => exact .inr rfl

theorem chain_add (name : String) (hknown : h.Known (canonical other)) :
    (∃ l ∈ (h.add name).chain other, l.name = canonical name) ∨
      (h.add name).chain other = h.chain other := by
  cases hname : isRootName name with
  | true => exact .inr (by simp [add, hname])
  | false =>
      cases hnew : h.find? name with
      | some l => exact .inr (by simp [add, hname, hnew])
      | none =>
          rw [canonical_of_not hname, chain, chain, get_add, ancestors, ancestors]
          cases hother : isRootName other with
          | true => exact .inr rfl
          | false =>
              have hbelow : (h.find? other).isSome := hknown.isSome hother
              have hroot : (h.add name).root = h.root := by rw [add_eq hname hnew]
              rcases ancestorsFrom_add other.toList.reverse hname hnew hbelow with
                ⟨l, hl, hlname⟩ | hsame
              · exact .inl ⟨l, by simp [hl], hlname⟩
              · exact .inr (by simp [hsame, hroot])

/-! ### Opening a console -/

def startPrinting (l : Logger) : Logger :=
  { l with prints := true, level := .number Severity.info.number }

theorem gentle_startPrinting : Gentle startPrinting :=
  ⟨fun _ => rfl, fun _ => rfl, fun _ _ => rfl⟩

theorem modify_id (h : Hierarchy) (name : String) : h.modify name id = h := by
  unfold modify
  split
  · rfl
  · simp

theorem openConsole_of_heard (hheard : (h.add name).Heard name) :
    h.openConsole name = h.add name := by
  simp [openConsole, heard_iff.1 hheard]

theorem openConsole_of_not_heard (hsilent : ¬ (h.add name).Heard name) :
    h.openConsole name = (h.add name).modify name startPrinting := by
  rw [heard_iff, Bool.not_eq_false] at hsilent
  simp only [openConsole, hsilent, if_true]
  rfl

/-- Opening a console is a change to its logger, whether it prints from now on or not. -/
theorem exists_gentle_openConsole (h : Hierarchy) (name : String) :
    ∃ change, Gentle change ∧ h.openConsole name = (h.add name).modify name change := by
  by_cases hheard : (h.add name).Heard name
  · refine ⟨id, ⟨fun _ => rfl, fun _ => rfl, fun _ hl => hl⟩, ?_⟩
    rw [openConsole_of_heard hheard, modify_id]
  · exact ⟨startPrinting, gentle_startPrinting, openConsole_of_not_heard hheard⟩

theorem Proper.openConsole (hh : h.Proper) (name : String) : (h.openConsole name).Proper := by
  obtain ⟨change, hc, hopen⟩ := exists_gentle_openConsole h name
  rw [hopen]
  exact (hh.add name).modify hc name

theorem Sound.openConsole (hh : h.Proper) (hsound : h.Sound) (name : String) :
    (h.openConsole name).Sound := by
  obtain ⟨change, hc, hopen⟩ := exists_gentle_openConsole h name
  rw [hopen]
  exact (hh.add name).sound_modify hc (known_add h name) (hsound.add name)

theorem Proper.reports_openConsole (hh : h.Proper) (name other : String) :
    ((h.openConsole name).get other).reports = (h.get other).reports := by
  obtain ⟨change, hc, hopen⟩ := exists_gentle_openConsole h name
  rw [hopen, (hh.add name).get_modify hc (known_add h name), (hc.changed name).reports, get_add]

/-- A logger prints if it did, or if a console was opened for it while nothing was heard from it. -/
theorem Proper.prints_openConsole (hh : h.Proper) (name other : String) :
    ((h.openConsole name).get other).prints = true ↔
      (h.get other).prints = true ∨ canonical other = canonical name ∧
        ¬ (h.add name).Heard name := by
  by_cases hheard : (h.add name).Heard name
  · rw [openConsole_of_heard hheard, get_add]
    simp [hheard]
  · rw [openConsole_of_not_heard hheard,
      (hh.add name).get_modify gentle_startPrinting (known_add h name), changed, get_add,
      hh.name_get]
    by_cases hother : canonical other = canonical name <;> simp [hother, hheard, startPrinting]

theorem Proper.heard_openConsole_self (hh : h.Proper) (name : String) :
    (h.openConsole name).Heard name := by
  by_cases hheard : (h.add name).Heard name
  · rwa [openConsole_of_heard hheard]
  · rw [openConsole_of_not_heard hheard]
    have hget := (hh.add name).get_modify gentle_startPrinting (known_add h name) name
    rw [changed, if_pos ((hh.add name).name_get name)] at hget
    exact ⟨_, get_mem_reporting _ name, by rw [hget]; rfl⟩

/-- Opening a console leaves heard what was heard: a logger that comes into a chain is heard
itself. -/
theorem Proper.heard_openConsole (hh : h.Proper) (hsound : h.Sound)
    (hknown : h.Known (canonical other)) (hheard : h.Heard other) :
    (h.openConsole name).Heard other := by
  obtain ⟨change, hc, hopen⟩ := exists_gentle_openConsole h name
  -- The new logger may stand on the chain now and cut it off from one that was heard.
  rcases chain_add name hknown with ⟨l, hl, hname⟩ | hsame
  · have hself : (h.openConsole name).Heard (canonical name) :=
      heard_canonical.2 (hh.heard_openConsole_self name)
    obtain ⟨k, hk, hkname⟩ : ∃ k ∈ (h.openConsole name).chain other, k.name = canonical name := by
      rw [hopen, (hh.add name).chain_modify hc (known_add h name)]
      exact ⟨_, List.mem_map_of_mem hl, by rw [(hc.changed name).name, hname]⟩
    exact (hh.openConsole name).heard_of_mem (hsound.openConsole hh name) hk (hkname ▸ hself)
  · have hadd : (h.add name).Heard other := by rw [Heard, hsame]; exact hheard
    rw [hopen]
    exact (hh.add name).heard_modify hc (known_add h name) hadd

theorem Proper.known_openConsole (hh : h.Proper) :
    (h.openConsole name).Known other ↔ h.Known other ∨ other = canonical name := by
  obtain ⟨change, hc, hopen⟩ := exists_gentle_openConsole h name
  rw [hopen, (hh.add name).known_modify hc, known_add_iff]

end Hierarchy

end MarkdownTree.Log
