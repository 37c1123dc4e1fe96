import Mathlib.Data.List.Infix
import MarkdownTree.Proofs.ConsoleHistory
import MarkdownTree.Proofs.DottedNames

/-!
How many loggers print a message, and which level lets it through. A logger does not print if the
one next above it was made before it, so along a chain on which no logger comes before one above it
at most one prints. In the library it is the library's own logger, whose level counts for all that
have none themselves.
-/

namespace MarkdownTree.Log

open Hierarchy

variable {nodeText : NodeId → String} {h g : Hierarchy} {l : Logger} {name other q : String}
  {e : ConsoleEvent} {es : List ConsoleEvent}

def sources (nodeText : NodeId → String) (es : List ConsoleEvent) (name : String) : List Logger :=
  (reporting ((run nodeText es).chain name)).filter fun l =>
    decide (l.name = packageName ∨ Topmost nodeText es l.name)

theorem prints_iff_of_mem_chain (hl : l ∈ (run nodeText es).chain name) :
    l.prints = true ↔ l.name = packageName ∨ Topmost nodeText es l.name := by
  have hr := recorded_run nodeText es
  rw [← hr.prints_iff l.name (hr.proper.canonical_of_mem_chain hl), (hr.proper.mem_chain hl).1]

theorem printers_eq_sources (nodeText : NodeId → String) (es : List ConsoleEvent) (name : String) :
    (run nodeText es).printers name = sources nodeText es name := by
  refine List.filter_congr fun l hl => ?_
  rw [Bool.eq_iff_iff, decide_eq_true_iff]
  exact prints_iff_of_mem_chain (reporting_subset _ hl)

/-- A logger below the root adds itself to the sources if it prints; what is above it adds the rest,
unless the logger reports nothing. -/
theorem sources_eq (hchain : (run nodeText es).chain name =
      (run nodeText es).get name :: (run nodeText es).chain q) (hname : canonical name = name) :
    sources nodeText es name =
      (if name = packageName ∨ Topmost nodeText es name
        then [(run nodeText es).get name] else []) ++
        if name = packageName then [] else sources nodeText es q := by
  have hr := recorded_run nodeText es
  have hget : ((run nodeText es).get name).name = name := by rw [hr.proper.name_get, hname]
  rw [sources, hchain, reporting]
  by_cases hpackage : name = packageName
  · have hreports : ¬ ((run nodeText es).get name).reports = true := fun h =>
      (hr.reports_iff name).1 h hpackage
    rw [if_neg hreports, List.filter_cons, hget, if_pos hpackage]
    simp
  · rw [if_pos ((hr.reports_iff name).2 hpackage), List.filter_cons, hget, if_neg hpackage, sources]
    by_cases htop : name = packageName ∨ Topmost nodeText es name <;> simp [htop]

/-! ### Loggers in the order of their making -/

/-- Whether one logger was made before another one that was made. -/
def MadeEarlier (es : List ConsoleEvent) (first second : String) : Prop :=
  second ∈ made es ∧ first ∈ (made es).takeWhile (· != second)

instance {first second : String} : Decidable (MadeEarlier es first second) :=
  inferInstanceAs (Decidable (_ ∧ _))

theorem names_prefix_take (nodeText : NodeId → String) (h : Hierarchy) (e : ConsoleEvent) :
    h.loggers.map (·.name) <+: (e.take nodeText h).loggers.map (·.name) := by
  have hadd (name : String) : h.loggers.map (·.name) <+: (h.add name).loggers.map (·.name) := by
    unfold add
    split
    · exact List.prefix_rfl
    · exact ⟨[name], by simp⟩
  rcases e.take_cases nodeText h with ⟨name, -, htake⟩ | ⟨-, htake | ⟨name, level, htake⟩⟩
  · obtain ⟨change, hc, hopen⟩ := exists_gentle_openConsole h name
    rw [htake, hopen, names_modify hc]
    exact hadd name
  · rw [htake]
  · rw [htake, Hierarchy.setLevel, names_modify (gentle_setLevel level)]

/-- Loggers stay in the order in which they were made. -/
theorem names_prefix_run (nodeText : NodeId → String) (es es' : List ConsoleEvent) :
    (run nodeText es).loggers.map (·.name) <+: (run nodeText (es ++ es')).loggers.map (·.name) := by
  induction es' using List.reverseRecOn with
  | nil => rw [List.append_nil]
  | append_singleton es' e ih =>
      rw [← List.append_assoc, run_snoc]
      exact ih.trans (names_prefix_take nodeText _ e)

theorem takeWhile_ne_append {names : List String} (hname : name ∉ names) (later : List String) :
    (names ++ later).takeWhile (· != name) = names ++ later.takeWhile (· != name) :=
  List.takeWhile_append_of_pos fun x hx => by simpa using ne_of_mem_of_not_mem hx hname

theorem madeBefore_of_prefix {old : List String} (hold : old <+: h.loggers.map (·.name))
    (hnew : name ∉ old) (hother : other ∈ old) : h.madeBefore other name = true := by
  obtain ⟨later, hnames⟩ := hold
  rw [madeBefore_eq, ← hnames, takeWhile_ne_append hnew, List.contains_iff_mem]
  exact List.mem_append_left _ hother

/-- What the newest logger has above it stays visible from it, whatever is made later. -/
theorem visible?_of_newest {old : List String} (hnew : name ∉ old)
    (hg : g.loggers.map (·.name) = old ++ [name]) (hh : old <+: h.loggers.map (·.name))
    (hne : other ≠ name) (hnone : h.visible? name other = none) : g.visible? name other = none := by
  cases hvisible : g.visible? name other with
  | none => rfl
  | some k =>
      obtain ⟨hk, -⟩ := visible?_eq_some_iff.1 hvisible
      have hknown : other ∈ old ++ [name] := by
        rw [← hg, ← find?_isSome_iff, hk]
        rfl
      have hold : other ∈ old := by simpa [hne] using hknown
      have hbefore : h.madeBefore other name = true := madeBefore_of_prefix hh hnew hold
      obtain ⟨l, hl⟩ := Option.isSome_iff_exists.1 (find?_isSome_iff.2 (hh.subset hold))
      rw [visible?_eq_some_iff.2 ⟨hl, .inr hbefore⟩] at hnone
      cases hnone

/-- The logger next above another one was next above it from the start if it is older. -/
theorem exists_mem_ancestorsFrom {old : List String} {cs : List Char} {rest : List Logger}
    (hnew : name ∉ old) (hg : g.loggers.map (·.name) = old ++ [name])
    (hh : old <+: h.loggers.map (·.name)) (hcs : cs.length ≤ name.toList.length)
    (hl : h.ancestorsFrom name cs = l :: rest) (hmem : l.name ∈ old) :
    ∃ k ∈ g.ancestorsFrom name cs, k.name = l.name := by
  fun_induction ancestorsFrom h name cs with
  | case1 below c cs found hfound ih =>
      obtain ⟨rfl, -⟩ := List.cons.inj hl
      obtain ⟨hfind, -⟩ := visible?_eq_some_iff.1 hfound
      have hname := name_of_find? hfind
      rw [hname] at hmem
      obtain ⟨k, hk⟩ := Option.isSome_iff_exists.1
        (find?_isSome_iff.2 (hg ▸ List.mem_append_left [below] hmem))
      have hbefore : g.madeBefore _ below = true :=
        madeBefore_of_prefix (hg ▸ List.prefix_append old [below]) hnew hmem
      refine ⟨k, ?_, by rw [hname, name_of_find? hk]⟩
      rw [ancestorsFrom, visible?_eq_some_iff.2 ⟨hk, .inr hbefore⟩]
      exact List.mem_cons_self
  | case2 below c cs hnone ih =>
      -- The rest of the name is shorter than the name, so it is not the new logger's own.
      simp only [List.length_cons] at hcs
      have hne : String.ofList (c :: cs).reverse ≠ below := by
        rintro rfl
        simp only [String.toList_ofList, List.length_reverse, List.length_cons] at hcs
        omega
      rw [ancestorsFrom, visible?_of_newest hnew hg hh hne hnone]
      exact ih hnew hg (by omega) hl
  | case3 below head cs hne ih =>
      rw [ancestorsFrom]
      · refine ih hnew hg ?_ hl
        simp only [List.length_cons] at hcs
        omega
      · exact hne
  | case4 => cases hl

theorem madeEarlier_of_not_mem_before (hname : name ∈ made es) (hnew : name ∉ made (before name es))
    (hq : q ∈ made es) (hne : q ≠ name) (hlate : q ∉ made (before name es)) :
    MadeEarlier es name q := by
  obtain ⟨later, hmade⟩ := made_eq_append hname hnew
  refine ⟨hq, ?_⟩
  rw [hmade, takeWhile_ne_append hlate, List.takeWhile_cons_of_pos (by simpa using hne.symm)]
  simp

/-- A logger does not print if the one next above it was made before it. -/
theorem not_topmost_of_parent (hname : isRootName name = false)
    (hchain : (run nodeText es).ancestors name = (run nodeText es).chain q)
    (hcanonical : canonical q = q) (hq : q ∈ made (before name es)) :
    ¬ Topmost nodeText es name := by
  intro htop
  have hnone := htop.2
  have hbefore := recorded_run nodeText (before name es)
  have hg := hbefore.proper.add name
  by_cases hroot : q = rootName
  · obtain ⟨l, hl, hlname⟩ := hg.exists_root_mem_chain name
    exact hnone l hl (by rwa [hlname, ← hroot])
  · have hnew : name ∉ (run nodeText (before name es)).loggers.map (·.name) := fun hmem =>
      htop.not_mem_before (hbefore.mem_names_iff.1 hmem).2
    have hnames : ((run nodeText (before name es)).add name).loggers.map (·.name) =
        (run nodeText (before name es)).loggers.map (·.name) ++ [name] := by
      rw [add_eq hname (by simpa using mt find?_isSome_iff.1 hnew)]
      simp [fresh]
    have hprefix : (run nodeText (before name es)).loggers.map (·.name) <+:
        (run nodeText es).loggers.map (·.name) := by
      obtain ⟨es', hes⟩ := before_prefix name es
      conv_rhs => rw [← hes]
      exact names_prefix_run nodeText _ es'
    obtain ⟨l, rest, hwalk, rfl⟩ :=
      (recorded_run nodeText es).proper.walk_of_parent hname hchain hcanonical hroot
    obtain ⟨k, hk, hkname⟩ := exists_mem_ancestorsFrom hnew hnames hprefix (by simp) hwalk
      (hbefore.mem_names_iff.2 ⟨hroot, hq⟩)
    refine hnone k ?_ (by rwa [hkname])
    rw [chain, ancestors, hname]
    exact List.mem_cons_of_mem _ (List.mem_append_left _ hk)

/-- So a logger that prints was made before the one next above it, if that was made. -/
theorem Topmost.madeEarlier_parent (htop : Topmost nodeText es name)
    (hname : isRootName name = false)
    (hchain : (run nodeText es).ancestors name = (run nodeText es).chain q)
    (hcanonical : canonical q = q) (hq : q ∈ made es) : MadeEarlier es name q := by
  have hne : q ≠ name := by
    rintro rfl
    simpa [chain] using congrArg List.length hchain
  have hlate : q ∉ made (before name es) := fun hearly =>
    not_topmost_of_parent hname hchain hcanonical hearly htop
  exact madeEarlier_of_not_mem_before htop.1 htop.not_mem_before hq hne hlate

theorem mem_made_of_mem_sources (hl : l ∈ sources nodeText es name) : l.name ∈ made es := by
  rcases of_decide_eq_true (List.mem_filter.1 hl).2 with hpackage | htop
  · rw [hpackage]
    exact List.mem_cons_self
  · exact htop.1

/-- A logger that is there and was not made is the root, which prints nothing then. -/
theorem sources_of_not_made (hknown : (run nodeText es).Known name) (hname : name ∉ made es) :
    sources nodeText es name = [] := by
  have hr := recorded_run nodeText es
  obtain rfl := ((hr.known_iff name).1 hknown).resolve_right hname
  rw [List.eq_nil_iff_forall_not_mem]
  intro l hl
  have hmem := reporting_subset _ (List.mem_filter.1 hl).1
  rw [chain_root isRootName_rootName, List.mem_singleton] at hmem
  have hmade := mem_made_of_mem_sources hl
  rw [hmem, hr.proper.root_name] at hmade
  exact hname hmade

/-- Where no logger on a chain was made before one above it, at most one prints. -/
theorem length_sources_le_one
    (hordered : ((reporting ((run nodeText es).chain name)).map (·.name)).Pairwise
      fun first second => ¬ MadeEarlier es first second)
    (hname : canonical name = name) : (sources nodeText es name).length ≤ 1 := by
  have hr := recorded_run nodeText es
  induction name using hr.proper.chain_induction with
  | root name hroot =>
      refine (List.length_filter_le _ _).trans ?_
      rw [chain_root hroot, reporting]
      split <;> simp [reporting]
  | below name q hbelow hchain hknown hcanonical ih =>
      have hself : ((run nodeText es).get name).name = name := by rw [hr.proper.name_get, hname]
      rw [sources_eq hchain hname]
      by_cases hpackage : name = packageName
      · simp [hpackage]
      · rw [hchain, reporting, if_pos ((hr.reports_iff name).2 hpackage), List.map_cons,
          List.pairwise_cons, hself] at hordered
        obtain ⟨hfirst, hrest⟩ := hordered
        simp only [hpackage, false_or, if_false]
        by_cases htop : Topmost nodeText es name
        · -- The logger next above would have been made later, so it was not made at all.
          have hmem : q ∈ (reporting ((run nodeText es).chain q)).map (·.name) :=
            List.mem_map.2 ⟨_, get_mem_reporting _ q, by rw [hr.proper.name_get, hcanonical]⟩
          have hnot : q ∉ made es := fun hq =>
            hfirst q hmem (htop.madeEarlier_parent hbelow (List.cons.inj hchain).2 hcanonical hq)
          simp [sources_of_not_made hknown hnot, htop]
        · simpa [htop] using ih hrest hcanonical

/-- Something prints what is logged under a name that a recorder was made for. -/
theorem length_sources_pos (hname : name ∈ made es) : 1 ≤ (sources nodeText es name).length := by
  have hheard := heard_iff.1 ((recorded_run nodeText es).heard name hname)
  rw [printers_eq_sources, List.isEmpty_eq_false_iff] at hheard
  exact List.length_pos_iff.2 hheard

/-! ### In the library -/

theorem mem_dotted_of_mem_ancestors (hh : h.Proper) (hname : isRootName name = false)
    (hl : l ∈ h.ancestors name) (hroot : l.name ≠ rootName) : l.name ∈ dotted name := by
  simp only [ancestors, hname, Bool.false_eq_true, if_false, List.mem_append,
    List.mem_singleton] at hl
  rcases hl with hl | rfl
  · exact name_mem_prefixesFrom hl
  · exact absurd hh.root_name hroot

theorem isRootName_of_package (hpackage : packageName ∈ dotted name) : isRootName name = false := by
  cases hname : isRootName name with
  | false => rfl
  | true =>
      rcases (by simpa [isRootName] using hname : name = "" ∨ name = rootName) with rfl | rfl <;>
      · revert hpackage
        decide

theorem known_package (nodeText : NodeId → String) (es : List ConsoleEvent) :
    (run nodeText es).Known packageName :=
  ((recorded_run nodeText es).known_iff packageName).2 (.inr List.mem_cons_self)

/-- The library's logger is above all whose names begin with its own and a dot. -/
theorem exists_package_mem_ancestors (hknown : h.Known packageName) (hgapless : Gapless name.toList)
    (hpackage : packageName ∈ dotted name) : ∃ l ∈ h.ancestors name, l.name = packageName := by
  obtain ⟨l, hl⟩ := Option.isSome_iff_exists.1 (hknown.resolve_left (by decide))
  refine ⟨l, ?_, name_of_find? hl⟩
  simp only [ancestors, isRootName_of_package hpackage, Bool.false_eq_true, if_false]
  exact List.mem_append_left _ (mem_ancestorsFrom hgapless.reverse hpackage hl (by decide))

theorem not_topmost_of_package (hgapless : Gapless name.toList)
    (hpackage : packageName ∈ dotted name) : ¬ Topmost nodeText es name := by
  rintro ⟨-, hnone⟩
  have hknown : ((run nodeText (before name es)).add name).Known packageName :=
    known_add_iff.2 (.inl (known_package nodeText _))
  obtain ⟨l, hl, hlname⟩ := exists_package_mem_ancestors hknown hgapless hpackage
  exact hnone l (List.mem_cons_of_mem _ hl) (by rw [hlname]; exact List.mem_cons_self)

/-- In the library only its own logger prints. -/
theorem length_sources_of_package (hname : canonical name = name) (hgapless : Gapless name.toList)
    (hpackage : ∃ l ∈ (run nodeText es).chain name, l.name = packageName) :
    (sources nodeText es name).length = 1 := by
  have hproper := proper_run nodeText es
  induction name using hproper.chain_induction with
  | root name hroot =>
      obtain ⟨l, hl, hlname⟩ := hpackage
      rw [chain_root hroot, List.mem_singleton] at hl
      rw [hl, hproper.root_name] at hlname
      exact absurd hlname (by decide)
  | below name q hbelow hchain hknown hcanonical ih =>
      rw [sources_eq hchain hname]
      -- A logger below the one of the library is never topmost, so it prints nothing itself.
      by_cases hself : name = packageName
      · simp [hself]
      · obtain ⟨l, hl, hlname⟩ := hpackage
        have habove : (run nodeText es).ancestors name = (run nodeText es).chain q :=
          (List.cons.inj hchain).2
        rw [hchain] at hl
        rcases List.mem_cons.1 hl with rfl | hl
        · rw [hproper.name_get, hname] at hlname
          exact absurd hlname hself
        · have hlroot : l.name ≠ rootName := by rw [hlname]; decide
          have hdotted := mem_dotted_of_mem_ancestors hproper hbelow (habove ▸ hl) hlroot
          have hq : q ∈ dotted name := by
            have hget : ((run nodeText es).get q).name = q := by rw [hproper.name_get, hcanonical]
            rw [← hget]
            refine mem_dotted_of_mem_ancestors hproper hbelow ?_ ?_
            · rw [habove]
              exact List.mem_cons_self
            · rw [hget]
              rintro rfl
              rw [chain_root isRootName_rootName, List.mem_singleton] at hl
              exact hlroot (hl ▸ hproper.root_name)
          have htop : ¬ Topmost nodeText es name :=
            not_topmost_of_package hgapless (hlname ▸ hdotted)
          simpa [hself, htop] using ih hcanonical (hgapless.of_mem_dotted hq) ⟨l, hl, hlname⟩

/-! ### The level of the library -/

def ConsoleEvent.packageLevel? (nodeText : NodeId → String) : ConsoleEvent → Option Level
  | .setPackageLevel value => (Level.readAnyCase nodeText value).toOption
  | .setLevel recorder value =>
    if recorder.logger? = some packageName then (Level.read nodeText value).toOption else none
  | .console _ | .strict _ => none

/-- The level that was last set for the library's logger, that of an information at first. -/
def packageLevel (nodeText : NodeId → String) (es : List ConsoleEvent) : Level :=
  es.foldl (fun level e => (e.packageLevel? nodeText).getD level) (.number Severity.info.number)

theorem level_setLevel (hknown : h.Known packageName) (hh : h.Proper) (name : String)
    (level : Level) : ((h.setLevel name level).get packageName).level =
      if canonical name = packageName then level else (h.get packageName).level := by
  by_cases hname : h.Known (canonical name)
  · have hpackage : (h.get packageName).name = packageName := by
      rw [hh.name_get]
      exact canonical_of_not (by decide)
    rw [Hierarchy.setLevel, hh.get_modify (gentle_setLevel level) hname, changed, hpackage]
    by_cases heq : canonical name = packageName
    · rw [if_pos heq, if_pos heq.symm]
    · rw [if_neg heq, if_neg (Ne.symm heq)]
  · have hne : canonical name ≠ packageName := fun heq => hname (heq ▸ hknown)
    rw [Hierarchy.setLevel, modify_of_not_known hname, if_neg hne]

theorem level_openConsole (hr : Recorded nodeText es h) (name : String) :
    ((h.openConsole name).get packageName).level = (h.get packageName).level := by
  have hpackage : packageName ∈ made es := List.mem_cons_self
  by_cases hheard : (h.add name).Heard name
  · rw [openConsole_of_heard hheard, get_add]
  · have hne : packageName ≠ canonical name := by
      intro heq
      have hknown : h.Known (canonical name) := heq ▸ (hr.known_iff _).2 (.inr hpackage)
      rw [add_of_known hknown, ← heard_canonical, ← heq] at hheard
      exact hheard (hr.heard _ hpackage)
    rw [openConsole_of_not_heard hheard,
      (hr.proper.add name).get_modify gentle_startPrinting (known_add h name), changed, get_add,
      hr.proper.name_get, canonical_of_mem_made hpackage, if_neg hne]

theorem level_package (nodeText : NodeId → String) (es : List ConsoleEvent) :
    ((run nodeText es).get packageName).level = packageLevel nodeText es := by
  induction es using List.reverseRecOn with
  | nil =>
      change (Hierarchy.initial.get packageName).level = .number Severity.info.number
      decide
  | append_singleton es e ih =>
      have hr := recorded_run nodeText es
      have hset := level_setLevel (known_package nodeText es) hr.proper
      have hlast : packageLevel nodeText (es ++ [e]) =
          (e.packageLevel? nodeText).getD (packageLevel nodeText es) := by simp [packageLevel]
      rw [run_snoc, hlast]
      cases e with
      | console name | strict name => exact (level_openConsole hr _).trans ih
      | setPackageLevel value =>
          rw [ConsoleEvent.take_setPackageLevel, ConsoleEvent.packageLevel?]
          cases (Level.readAnyCase nodeText value).toOption with
          | none => exact ih
          | some level =>
              have hself : canonical packageName = packageName := canonical_of_not (by decide)
              exact (hset packageName level).trans (if_pos hself)
      | setLevel recorder value =>
          rw [ConsoleEvent.take_setLevel, ConsoleEvent.packageLevel?]
          cases recorder with
          | console name | strict name =>
              simp only [Recorder.logger?, Option.some.injEq]
              cases (Level.read nodeText value).toOption with
              | none => simpa using ih
              | some level =>
                  rw [Option.map_some, Option.getD_some, hset, ih]
                  split <;> rfl
          | collected entries => exact ih

theorem chain_package (h : Hierarchy) : h.chain packageName = [h.get packageName, h.root] := by
  have hnone : h.ancestorsFrom packageName packageName.toList.reverse = [] := by
    rw [List.eq_nil_iff_forall_not_mem]
    intro l hl
    have hmem := name_mem_prefixesFrom hl
    have hnil : prefixesFrom packageName.toList.reverse = [] := by decide
    rw [hnil] at hmem
    cases hmem
  have hbelow : isRootName packageName = false := by decide
  simp [chain, ancestors, hbelow, hnone]

/-- From any logger on it, a chain goes on as its own. -/
theorem chain_eq_append (hh : h.Proper) (hother : ∃ l ∈ h.chain name, l.name = other) :
    h.chain name = (h.chain name).takeWhile (·.name != other) ++ h.chain other := by
  induction name using hh.chain_induction with
  | root name hname =>
      obtain ⟨l, hl, rfl⟩ := hother
      rw [chain_root hname] at hl ⊢
      rw [List.mem_singleton.1 hl, hh.root_name, chain_root isRootName_rootName]
      simp [hh.root_name]
  | below name q hname hchain _ _ ih =>
      have hself : (h.get name).name = name := by rw [hh.name_get, canonical_of_not hname]
      rw [hchain, List.takeWhile_cons, hself]
      by_cases heq : name = other
      · simp [← heq, hchain]
      · obtain ⟨l, hl, hlname⟩ := hother
        rw [hchain] at hl
        rcases List.mem_cons.1 hl with rfl | hl
        · exact absurd (hself.symm.trans hlname) heq
        · rw [if_pos (by simpa using heq), List.cons_append, ← ih ⟨l, hl, hlname⟩]

theorem effectiveLevel_of_package
    (hpackage : ∃ l ∈ (run nodeText es).chain name, l.name = packageName)
    (hnone : ∀ l ∈ ((run nodeText es).chain name).takeWhile (·.name != packageName),
      l.level.weight = 0) :
    (run nodeText es).effectiveLevel name =
      if (packageLevel nodeText es).weight = 0 then (run nodeText es).root.level.weight
      else (packageLevel nodeText es).weight := by
  have hfront : (((run nodeText es).chain name).takeWhile (·.name != packageName)).find?
      (·.level.weight != 0) = none := by
    rw [List.find?_eq_none]
    intro l hl
    simp [hnone l hl]
  rw [effectiveLevel, chain_eq_append (proper_run nodeText es) hpackage, List.find?_append, hfront,
    chain_package, Option.none_or, List.find?_cons, List.find?_cons, level_package]
  by_cases hlevel : (packageLevel nodeText es).weight = 0
  · by_cases hroot : (run nodeText es).root.level.weight = 0
    · simp [hlevel, hroot]
    · simp [hlevel, bne_iff_ne.2 hroot]
  · simp [bne_iff_ne.2 hlevel, hlevel, level_package]

end MarkdownTree.Log
