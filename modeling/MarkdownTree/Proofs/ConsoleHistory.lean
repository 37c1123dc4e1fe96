import Mathlib.Data.List.Induction
import MarkdownTree.Proofs.LoggerChains

/-!
What loggers owe to their history. Making a recorder makes its logger, which prints from then on if
nothing is heard from it otherwise; and what is heard stays heard. So the loggers that print,
besides the one of the library, are those which were made when no other one on their chain had been
made. Levels come and go without a trace in this.
-/

namespace MarkdownTree.Log

open Hierarchy

variable {nodeText : NodeId → String} {h : Hierarchy} {l : Logger} {name other : String}

def Recorder.logger? : Recorder → Option String
  | .console name | .strict name => some (canonical name)
  | .collected _ => none

/-- What may happen to the loggers: recorders are made, and levels are set for one logger or for the
library. -/
inductive ConsoleEvent where
  | console (name : String)
  | strict (name : String)
  | setLevel (recorder : Recorder) (value : Value)
  | setPackageLevel (value : Value)

namespace ConsoleEvent

/-- The logger that is made, or taken up again, for a new recorder. -/
def opens? : ConsoleEvent → Option String
  | .console name => some (canonical name)
  | .strict name => some (canonical (name ++ "_exception"))
  | .setLevel _ _ | .setPackageLevel _ => none

/-- The loggers after an event. A level that cannot be read changes nothing. -/
def take (nodeText : NodeId → String) (h : Hierarchy) : ConsoleEvent → Hierarchy
  | .console name => (Recorder.openConsole h name).2
  | .strict name => (Recorder.openStrict h name).2
  | .setLevel recorder value => (recorder.setLevel h nodeText value).toOption.getD h
  | .setPackageLevel value => (Log.setPackageLevel h nodeText value).toOption.getD h

theorem take_setPackageLevel (nodeText : NodeId → String) (h : Hierarchy) (value : Value) :
    (setPackageLevel value).take nodeText h =
      ((Level.readAnyCase nodeText value).toOption.map (h.setLevel packageName)).getD h := by
  rw [take, Log.setPackageLevel]
  cases Level.readAnyCase nodeText value <;> rfl

theorem take_setLevel (nodeText : NodeId → String) (h : Hierarchy) (recorder : Recorder)
    (value : Value) :
    (setLevel recorder value).take nodeText h =
      match recorder with
      | .console name | .strict name =>
        ((Level.read nodeText value).toOption.map (h.setLevel name)).getD h
      | .collected _ => h := by
  cases recorder with
  | console name | strict name =>
      rw [take, Recorder.setLevel]
      cases Level.read nodeText value <;> rfl
  | collected entries => rfl

/-- What an event can do: open a console, or set the level of a logger, or nothing. -/
theorem take_cases (nodeText : NodeId → String) (h : Hierarchy) (e : ConsoleEvent) :
    (∃ name, e.opens? = some (canonical name) ∧ e.take nodeText h = h.openConsole name) ∨
      e.opens? = none ∧ (e.take nodeText h = h ∨
        ∃ name level, e.take nodeText h = h.setLevel name level) := by
  have hset (read : Option Level) (name : String) :
      (read.map (h.setLevel name)).getD h = h ∨
        ∃ name' level, (read.map (h.setLevel name)).getD h = h.setLevel name' level := by
    cases read with
    | none => exact .inl rfl
    | some level => exact .inr ⟨name, level, rfl⟩
  cases e with
  | console name => exact .inl ⟨name, rfl, rfl⟩
  | strict name => exact .inl ⟨name ++ "_exception", rfl, rfl⟩
  | setLevel recorder value =>
      refine .inr ⟨rfl, ?_⟩
      rw [take_setLevel]
      cases recorder with
      | console name | strict name => exact hset _ name
      | collected entries => exact .inl rfl
  | setPackageLevel value =>
      refine .inr ⟨rfl, ?_⟩
      rw [take_setPackageLevel]
      exact hset _ packageName

end ConsoleEvent

variable {e : ConsoleEvent} {es : List ConsoleEvent}

def run (nodeText : NodeId → String) (es : List ConsoleEvent) : Hierarchy :=
  es.foldl (ConsoleEvent.take nodeText) .initial

theorem run_snoc (nodeText : NodeId → String) (es : List ConsoleEvent) (e : ConsoleEvent) :
    run nodeText (es ++ [e]) = e.take nodeText (run nodeText es) := by
  simp [run]

/-- The loggers that recorders were made for, in order. Those of the library are there at first. -/
def made (es : List ConsoleEvent) : List String :=
  packageName :: (packageName ++ ".markdown.tabs") :: es.filterMap (·.opens?)

theorem made_append (es es' : List ConsoleEvent) :
    made (es ++ es') = made es ++ es'.filterMap (·.opens?) := by
  simp [made]

def before (name : String) (es : List ConsoleEvent) : List ConsoleEvent :=
  es.takeWhile (·.opens? != some name)

/-- Whether a logger was made, and no logger on its chain before it. -/
def Topmost (nodeText : NodeId → String) (es : List ConsoleEvent) (name : String) : Prop :=
  name ∈ made es ∧ ∀ l ∈ ((run nodeText (before name es)).add name).chain name,
    l.name ∉ made (before name es)

instance : Decidable (Topmost nodeText es name) :=
  inferInstanceAs (Decidable (_ ∧ ∀ _ ∈ _, _))

theorem canonical_of_mem_made (hname : name ∈ made es) : canonical name = name := by
  rw [made, List.mem_cons, List.mem_cons, List.mem_filterMap] at hname
  rcases hname with rfl | rfl | ⟨e, -, he⟩
  · exact canonical_of_not (by decide)
  · exact canonical_of_not (by decide)
  · cases e with
    | console name | strict name =>
        cases he
        exact canonical_canonical _
    | setLevel recorder value | setPackageLevel value => cases he

theorem mem_made_append (hname : name ∈ made es) (es' : List ConsoleEvent) :
    name ∈ made (es ++ es') := by
  rw [made_append]
  exact List.mem_append_left _ hname

theorem mem_made_iff : name ∈ made es ↔ name ∈ made [] ∨ ∃ e ∈ es, e.opens? = some name := by
  rw [← List.nil_append es, made_append, List.mem_append, List.mem_filterMap, List.nil_append]

theorem before_prefix (name : String) (es : List ConsoleEvent) : before name es <+: es :=
  List.takeWhile_prefix _

/-- At the event that makes a logger the names made before it end. -/
theorem made_eq_append (hname : name ∈ made es) (hnew : name ∉ made (before name es)) :
    ∃ later, made es = made (before name es) ++ name :: later := by
  have hes : es = before name es ++ es.dropWhile (·.opens? != some name) :=
    List.takeWhile_append_dropWhile.symm
  cases hrest : es.dropWhile (·.opens? != some name) with
  | nil =>
      rw [hrest, List.append_nil] at hes
      exact absurd (hes ▸ hname) hnew
  | cons e es' =>
      have he : e.opens? = some name := by
        have hstop := List.head_dropWhile_not (l := es) (fun e => e.opens? != some name)
          (by simp [hrest])
        simpa [hrest] using hstop
      refine ⟨es'.filterMap (·.opens?), ?_⟩
      conv_lhs => rw [hes, hrest]
      rw [made_append, List.filterMap_cons, he]

/-- Further events change nothing about what was made before a logger that is made already. -/
theorem before_append (hname : name ∈ made es) (hnew : name ∉ made []) (es' : List ConsoleEvent) :
    before name (es ++ es') = before name es := by
  rw [before, List.takeWhile_append, if_neg]
  · rfl
  · intro hlen
    have hall := (List.takeWhile_prefix _).eq_of_length hlen
    rw [List.takeWhile_eq_self_iff] at hall
    obtain ⟨e, he, hopens⟩ := (mem_made_iff.1 hname).resolve_left hnew
    simpa [hopens] using hall e he

theorem before_snoc_of_not_mem (hname : name ∉ made es) (he : e.opens? = some name) :
    before name (es ++ [e]) = es := by
  have hall : ∀ e' ∈ es, (e'.opens? != some name) = true := by
    intro e' he'
    rw [bne_iff_ne]
    exact fun hopens => hname (mem_made_iff.2 (.inr ⟨e', he', hopens⟩))
  rw [before, List.takeWhile_append_of_pos hall]
  simp [he]

theorem gentle_setLevel (level : Level) : Gentle fun l => { l with level := level } :=
  ⟨fun _ => rfl, fun _ => rfl, fun _ hl => hl⟩

theorem proper_initial : Hierarchy.Proper .initial where
  root_name := rfl
  below name hname := by
    rcases (by simpa [isRootName] using hname : name = "" ∨ name = rootName) with rfl | rfl <;>
      decide

theorem proper_run (nodeText : NodeId → String) (es : List ConsoleEvent) :
    (run nodeText es).Proper := by
  induction es using List.reverseRecOn with
  | nil => exact proper_initial
  | append_singleton es e ih =>
      rw [run_snoc]
      rcases e.take_cases nodeText (run nodeText es) with ⟨name, -, h⟩ | ⟨-, h | ⟨name, level, h⟩⟩
      · rw [h]
        exact ih.openConsole name
      · rwa [h]
      · rw [h]
        exact ih.modify (gentle_setLevel level) name

/-- A logger is on its own chain, so it was not made twice. -/
theorem Topmost.not_mem_before (htop : Topmost nodeText es name) :
    name ∉ made (before name es) := by
  have hself := htop.2 _ List.mem_cons_self
  rwa [((proper_run nodeText _).add name).name_get, canonical_of_mem_made htop.1] at hself

theorem not_topmost_of_initial (hname : name ∈ made []) : ¬ Topmost nodeText es name :=
  fun htop => htop.not_mem_before (mem_made_iff.2 (.inl hname))

theorem topmost_snoc_of_mem (hname : name ∈ made es) (e : ConsoleEvent) :
    Topmost nodeText (es ++ [e]) name ↔ Topmost nodeText es name := by
  by_cases hinitial : name ∈ made []
  · exact iff_of_false (not_topmost_of_initial hinitial) (not_topmost_of_initial hinitial)
  · have hmade : name ∈ made (es ++ [e]) := mem_made_append hname [e]
    rw [Topmost, Topmost, before_append hname hinitial]
    exact and_congr_left fun _ => iff_of_true hmade hname

theorem topmost_snoc_of_not_mem (hname : name ∉ made es) (he : e.opens? = some name) :
    Topmost nodeText (es ++ [e]) name ↔
      ∀ l ∈ ((run nodeText es).add name).chain name, l.name ∉ made es := by
  have hmade : name ∈ made (es ++ [e]) := mem_made_iff.2 (.inr ⟨e, by simp, he⟩)
  rw [Topmost, before_snoc_of_not_mem hname he, and_iff_right hmade]

/-- What holds of the loggers after events. -/
structure Recorded (nodeText : NodeId → String) (es : List ConsoleEvent) (h : Hierarchy) :
    Prop where
  proper : h.Proper
  /-- There are the loggers that recorders were made for. -/
  known_iff (name : String) : h.Known name ↔ name = rootName ∨ name ∈ made es
  /-- One logger does not report. -/
  reports_iff (name : String) : (h.get name).reports = true ↔ name ≠ packageName
  /-- That logger prints, and those that were made before all others on their chains. -/
  prints_iff (name : String) (hname : canonical name = name) :
    (h.get name).prints = true ↔ name = packageName ∨ Topmost nodeText es name
  /-- Something is heard from every logger that a recorder was made for. -/
  heard (name : String) (hname : name ∈ made es) : h.Heard name

namespace Recorded

theorem sound (hr : Recorded nodeText es h) : h.Sound := by
  intro name
  by_cases hname : name = packageName
  · refine .inr ((hr.prints_iff name ?_).2 (.inl hname))
    rw [hname]
    exact canonical_of_not (by decide)
  · exact .inl ((hr.reports_iff name).2 hname)

theorem mem_made_of_prints (hr : Recorded nodeText es h) (hname : canonical name = name)
    (hprints : (h.get name).prints = true) : name ∈ made es := by
  rcases (hr.prints_iff name hname).1 hprints with rfl | htop
  · exact List.mem_cons_self
  · exact htop.1

end Recorded

/-- At first one logger prints, and it is the one that does not report. -/
theorem get_initial (name : String) :
    (Hierarchy.initial.get name).prints = decide (name = packageName) ∧
      (Hierarchy.initial.get name).reports = decide (name ≠ packageName) := by
  by_cases hpackage : name = packageName
  · rw [hpackage]
    decide
  · simp only [hpackage, ne_eq, not_false_eq_true, decide_false, decide_true]
    by_cases htabs : name = packageName ++ ".markdown.tabs"
    · rw [htabs]
      decide
    · have hnone : Hierarchy.initial.find? name = none := by
        rw [← Option.not_isSome_iff_eq_none, find?_isSome_iff]
        simp [initial, hpackage, htabs]
      unfold Hierarchy.get
      split
      · exact ⟨rfl, rfl⟩
      · rw [hnone]
        exact ⟨rfl, rfl⟩

theorem recorded_initial : Recorded nodeText [] .initial where
  proper := proper_initial
  known_iff name := by
    rw [Known, find?_isSome_iff]
    exact or_congr_right (by simp [made, initial])
  reports_iff name := by simp [get_initial]
  prints_iff name hname := by
    rw [(get_initial name).1, decide_eq_true_iff, or_iff_left_of_imp]
    exact fun htop => absurd htop (not_topmost_of_initial htop.1)
  heard name hname := by
    have hheard : ∀ name ∈ made [], Hierarchy.initial.Heard name := by
      unfold Heard
      decide
    exact hheard name hname

theorem topmost_snoc_iff (hsame : made (es ++ [e]) ⊆ made es) :
    Topmost nodeText (es ++ [e]) name ↔ Topmost nodeText es name := by
  by_cases hname : name ∈ made es
  · exact topmost_snoc_of_mem hname e
  · exact iff_of_false (fun htop => hname (hsame htop.1)) fun htop => hname htop.1

namespace Recorded

variable (hr : Recorded nodeText es h)

include hr

/-- An event that makes no new logger may leave everything as it is. -/
theorem idle (hsame : made (es ++ [e]) ⊆ made es) : Recorded nodeText (es ++ [e]) h where
  proper := hr.proper
  known_iff name := by
    rw [hr.known_iff, made_append, List.mem_append]
    refine or_congr_right (or_iff_left_of_imp fun hname => hsame ?_).symm
    rw [made_append]
    exact List.mem_append_right _ hname
  reports_iff := hr.reports_iff
  prints_iff name hname := by rw [hr.prints_iff name hname, topmost_snoc_iff hsame]
  heard name hname := hr.heard name (hsame hname)

theorem setLevel (name : String) (level : Level) :
    Recorded nodeText es (h.setLevel name level) := by
  have hgentle := gentle_setLevel level
  by_cases hknown : h.Known (canonical name)
  · have hget (other : String) := hr.proper.get_modify hgentle hknown other
    refine ⟨hr.proper.modify hgentle name, fun other => ?_, fun other => ?_, fun other hother => ?_,
      fun other hother => hr.proper.heard_modify hgentle hknown (hr.heard other hother)⟩
    · rw [Hierarchy.setLevel, hr.proper.known_modify hgentle, hr.known_iff]
    · rw [Hierarchy.setLevel, hget, (hgentle.changed name).reports, hr.reports_iff]
    · have hprints (l : Logger) : (changed name (fun l => { l with level := level }) l).prints =
          l.prints := by
        unfold changed
        split <;> rfl
      rw [Hierarchy.setLevel, hget, hprints, hr.prints_iff other hother]
  · rw [Hierarchy.setLevel, modify_of_not_known hknown]
    exact hr

/-- Something is heard from a new logger already if one on its chain was made before. -/
theorem heard_add_iff (hnew : canonical name ∉ made es) :
    (h.add name).Heard name ↔ ∃ l ∈ (h.add name).chain name, l.name ∈ made es := by
  have hproper := hr.proper.add name
  constructor
  · rintro ⟨l, hl, hprints⟩
    have hmem := reporting_subset _ hl
    have hget : h.get l.name = l := by rw [← get_add h name, (hproper.mem_chain hmem).1]
    exact ⟨l, hmem, hr.mem_made_of_prints (hproper.canonical_of_mem_chain hmem) (by rwa [hget])⟩
  · rintro ⟨l, hl, hmade⟩
    have hne : l.name ≠ canonical name := fun heq => hnew (heq ▸ hmade)
    have hknown : h.Known (canonical l.name) := by
      rw [canonical_of_mem_made hmade, hr.known_iff]
      exact .inr hmade
    -- The chain of the older logger is as before: the new one is not above what is above it.
    rcases chain_add name hknown with ⟨k, hk, hkname⟩ | hsame
    · exact absurd hkname (hproper.ne_of_mem_chain hl hne hk)
    · have hheard : (h.add name).Heard l.name := by
        rw [Heard, hsame]
        exact hr.heard l.name hmade
      exact hproper.heard_of_mem (hr.sound.add name) hl hheard

/-- Opening a console makes its logger print if no logger on its chain was made before. -/
theorem openConsole (hh : h = run nodeText es) (he : e.opens? = some (canonical name)) :
    Recorded nodeText (es ++ [e]) (h.openConsole name) := by
  have hmade : made (es ++ [e]) = made es ++ [canonical name] := by simp [made_append, he]
  by_cases hold : canonical name ∈ made es
  · have hadd : h.add name = h := add_of_known ((hr.known_iff _).2 (.inr hold))
    have hheard : (h.add name).Heard name := by rw [hadd, ← heard_canonical]; exact hr.heard _ hold
    rw [openConsole_of_heard hheard, hadd]
    refine hr.idle fun other hother => ?_
    rw [hmade, List.mem_append, List.mem_singleton] at hother
    rcases hother with hother | rfl
    · exact hother
    · exact hold
  · -- Only the new logger may begin to print; for the others, nothing changes.
    have hsilent : (h.get (canonical name)).prints = false := by
      rw [← Bool.not_eq_true]
      exact fun hprints => hold (hr.mem_made_of_prints (canonical_canonical name) hprints)
    have hpackage : canonical name ≠ packageName := fun heq => hold (heq ▸ List.mem_cons_self)
    have htop : Topmost nodeText (es ++ [e]) (canonical name) ↔ ¬ (h.add name).Heard name := by
      rw [topmost_snoc_of_not_mem hold he, hr.heard_add_iff hold, ← hh, add_canonical,
        chain_canonical]
      simp
    have hother {other : String} (hne : other ≠ canonical name) :
        Topmost nodeText (es ++ [e]) other ↔ Topmost nodeText es other := by
      by_cases hmem : other ∈ made es
      · exact topmost_snoc_of_mem hmem e
      · refine iff_of_false (fun h => ?_) fun h => hmem h.1
        have h' := h.1
        rw [hmade, List.mem_append, List.mem_singleton] at h'
        exact h'.elim hmem hne
    refine ⟨hr.proper.openConsole name, fun other => ?_, fun other => ?_,
      fun other hcanonical => ?_,
      fun other hmem => ?_⟩
    · rw [hr.proper.known_openConsole, hr.known_iff, hmade, List.mem_append, List.mem_singleton,
        or_assoc]
    · rw [hr.proper.reports_openConsole, hr.reports_iff]
    · rw [hr.proper.prints_openConsole, hcanonical]
      by_cases hself : other = canonical name
      · rw [hself, htop]
        simp [hsilent, hpackage]
      · rw [hr.prints_iff other hcanonical, hother hself]
        simp [hself]
    · rw [hmade, List.mem_append, List.mem_singleton] at hmem
      rcases hmem with hmem | rfl
      · refine hr.proper.heard_openConsole hr.sound ?_ (hr.heard other hmem)
        rw [canonical_of_mem_made hmem, hr.known_iff]
        exact .inr hmem
      · exact heard_canonical.2 (hr.proper.heard_openConsole_self name)

end Recorded

/-- The loggers below the root are those that were made. -/
theorem Recorded.mem_names_iff (hr : Recorded nodeText es h) :
    name ∈ h.loggers.map (·.name) ↔ name ≠ rootName ∧ name ∈ made es := by
  rw [← find?_isSome_iff]
  have hknown := hr.known_iff name
  rw [Known] at hknown
  by_cases hroot : name = rootName
  · rw [hroot, hr.proper.below rootName isRootName_rootName]
    simp
  · simpa [hroot] using hknown

theorem recorded_run (nodeText : NodeId → String) (es : List ConsoleEvent) :
    Recorded nodeText es (run nodeText es) := by
  induction es using List.reverseRecOn with
  | nil => exact recorded_initial
  | append_singleton es e ih =>
      rw [run_snoc]
      rcases e.take_cases nodeText (run nodeText es) with ⟨name, he, h⟩ | ⟨he, h⟩
      · rw [h]
        exact ih.openConsole rfl he
      · have hidle : Recorded nodeText (es ++ [e]) (run nodeText es) :=
          ih.idle (by simp [made_append, he])
        rcases h with h | ⟨name, level, h⟩
        · rwa [h]
        · rw [h]
          exact hidle.setLevel name level

end MarkdownTree.Log
