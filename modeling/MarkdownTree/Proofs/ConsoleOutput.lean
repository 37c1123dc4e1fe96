import MarkdownTree.Proofs.ConsoleCopies

/-!
The output of a recorder over any history. A message that passes is printed once by each logger on
the chain that was made while none on its own chain had been made, and by the library's. A name
tells its chain, and so the output, if no two dots stand side by side in it and nothing before its
dots begins the name of the root. Main statement: the account of the output of a recorder, of when
it is printed once, and of when the library's level decides.
-/

namespace MarkdownTree.Log

open Hierarchy

variable {nodeText : NodeId → String} {h : Hierarchy} {l : Logger} {name other : String}
  {es : List ConsoleEvent}

/-- A name without two dots side by side, and with none before its dots that begins the root's name
without being that. -/
def Plain (name : String) : Prop :=
  Gapless name.toList ∧ ∀ above ∈ dotted name, above = rootName ∨ displacesRoot above = true

instance : Decidable (Plain name) :=
  inferInstanceAs (Decidable (_ ∧ ∀ _ ∈ _, _))

/-- The names on a chain as the dots have it: those before the dots, up to the library or the
root. -/
def nameChain (name : String) : List String :=
  if name = rootName then [rootName]
  else upTo packageName (name :: ((dotted name).filter (· != rootName) ++ [rootName]))

/-- Whether a logger was made, and before those that are above it by their names. -/
def Leading (es : List ConsoleEvent) (name : String) : Prop :=
  name ∈ made es ∧ ∀ above ∈ rootName :: dotted name, ¬ MadeEarlier es above name

instance : Decidable (Leading es name) :=
  inferInstanceAs (Decidable (_ ∧ ∀ _ ∈ _, _))

/-- The loggers that would print what is logged under a name if the dots alone made the chains. -/
def nameSources (es : List ConsoleEvent) (name : String) : List String :=
  (nameChain name).filter fun name => decide (name = packageName ∨ Leading es name)

/-- A name is as plain as those below it. -/
theorem Plain.of_mem_dotted (hname : Plain name) (hother : other ∈ dotted name) : Plain other :=
  ⟨hname.1.of_mem_dotted hother, fun above habove => hname.2 above (mem_dotted_trans habove hother)⟩

theorem Plain.of_mem_chain (hh : h.Proper) (hname : Plain name) (hcanonical : canonical name = name)
    (hl : l ∈ h.chain name) : Plain l.name := by
  rcases List.mem_cons.1 hl with rfl | habove
  · rwa [hh.name_get, hcanonical]
  · by_cases hroot : l.name = rootName
    · rw [hroot]
      decide
    · have hbelow : isRootName name = false := by
        cases hname : isRootName name with
        | false => rfl
        | true => simp [ancestors, hname] at habove
      exact hname.of_mem_dotted (mem_dotted_of_mem_ancestors hh hbelow habove hroot)

theorem names_chain (hh : h.Proper) (hroot : isRootName name = false) (hplain : Plain name) :
    (h.chain name).map (·.name) =
      name :: ((dotted name).filter (fun other => (h.find? other).isSome) ++ [rootName]) := by
  have hdisplaces : ∀ other ∈ prefixesFrom name.toList.reverse, (h.find? other).isSome →
      displacesRoot other = true := by
    intro other hother hfound
    refine (hplain.2 other hother).resolve_left ?_
    rintro rfl
    rw [hh.below rootName isRootName_rootName] at hfound
    cases hfound
  rw [chain, ancestors, hroot, List.map_cons, hh.name_get, canonical_of_not hroot]
  simp only [Bool.false_eq_true, if_false, List.map_append, List.map_cons, List.map_nil,
    hh.root_name]
  rw [names_ancestorsFrom hplain.1.reverse hdisplaces]
  rfl

theorem not_mem_made_before (hnew : name ∉ made []) : name ∉ made (before name es) := by
  rw [mem_made_iff, not_or]
  refine ⟨hnew, fun ⟨e, he, hopens⟩ => ?_⟩
  have hother := List.mem_takeWhile_imp he
  simp [hopens] at hother

theorem madeEarlier_iff (hname : name ∈ made es) (hnew : name ∉ made (before name es)) :
    MadeEarlier es other name ↔ other ∈ made (before name es) := by
  obtain ⟨later, hmade⟩ := made_eq_append hname hnew
  rw [MadeEarlier, and_iff_right hname, hmade, takeWhile_ne_append hnew]
  simp

/-- When a plain name is made, the names that were made before and are on its chain are those before
its dots. -/
theorem new_chain_iff (hplain : Plain name) (hnew : name ∉ made (before name es))
    (hroot : isRootName name = false) :
    (∀ l ∈ ((run nodeText (before name es)).add name).chain name, l.name ∉ made (before name es)) ↔
      ∀ above ∈ rootName :: dotted name, above ∉ made (before name es) := by
  have hbefore := recorded_run nodeText (before name es)
  have hnames := names_chain (hbefore.proper.add name) hroot hplain
  rw [← List.forall_mem_map (P := fun x => x ∉ made (before name es)), hnames]
  constructor
  · intro hnone above habove hold
    rcases List.mem_cons.1 habove with rfl | hdotted
    · exact hnone _ (by simp) hold
    · by_cases heq : above = rootName
      · exact hnone _ (by simp [heq]) hold
      · have hknown : ((run nodeText (before name es)).add name).Known above :=
          known_add_iff.2 (.inl ((hbefore.known_iff above).2 (.inr hold)))
        refine hnone above (List.mem_cons_of_mem _ (List.mem_append_left _ ?_)) hold
        exact List.mem_filter.2 ⟨hdotted, hknown.resolve_left heq⟩
  · intro hnone x hx hold
    rw [List.mem_cons, List.mem_append, List.mem_singleton] at hx
    rcases hx with rfl | hx | rfl
    · exact hnew hold
    · exact hnone x (List.mem_cons_of_mem _ (List.mem_filter.1 hx).1) hold
    · exact hnone _ List.mem_cons_self hold

/-- A logger of a plain name prints if it was made before all those that its dots put above it. -/
theorem topmost_iff_leading (hplain : Plain name) (hpackage : name ≠ packageName) :
    Topmost nodeText es name ↔ Leading es name := by
  by_cases hname : name ∈ made es
  · by_cases hinitial : name ∈ made []
    · refine iff_of_false (not_topmost_of_initial hinitial) fun hleading => ?_
      obtain rfl : name = packageName ++ ".markdown.tabs" := by
        simpa [made, hpackage] using hinitial
      refine hleading.2 packageName (by decide) ⟨hname, ?_⟩
      rw [made, List.takeWhile_cons_of_pos (by decide)]
      exact List.mem_cons_self
    · have hnew : name ∉ made (before name es) := not_mem_made_before hinitial
      rw [Topmost, Leading, and_iff_right hname, and_iff_right hname]
      simp only [madeEarlier_iff hname hnew]
      cases hroot : isRootName name with
      | true =>
          have hcanonical := canonical_of_mem_made hname
          rw [canonical_of_isRootName hroot] at hcanonical
          subst hcanonical
          have hdotted : dotted rootName = [] := by decide
          have hproper := (proper_run nodeText (before rootName es)).add rootName
          rw [chain_root hroot, hdotted, List.forall_mem_singleton, List.forall_mem_singleton,
            hproper.root_name]
      | false => exact new_chain_iff hplain hnew hroot
  · exact iff_of_false (fun htop => hname htop.1) fun hleading => hname hleading.1

/-- The names of the loggers that report on from a plain name. -/
theorem names_reporting_chain (hplain : Plain name) (hname : name ∈ made es) :
    (reporting ((run nodeText es).chain name)).map (·.name) =
      (nameChain name).filter fun x => decide (x = rootName ∨ x ∈ made es) := by
  have hr := recorded_run nodeText es
  have hreports : ∀ l ∈ (run nodeText es).chain name, l.reports = true ↔ l.name ≠ packageName := by
    intro l hl
    rw [← hr.reports_iff, (hr.proper.mem_chain hl).1]
  rw [names_reporting hreports, nameChain]
  by_cases hroot : name = rootName
  · rw [if_pos hroot, hroot, chain_root isRootName_rootName, List.map_singleton,
      hr.proper.root_name]
    have hne : rootName ≠ packageName := by decide
    simp [upTo, hne]
  · have hbelow := isRootName_of_ne (canonical_of_mem_made hname) hroot
    have hsame : ((dotted name).filter (· != rootName)).filter
          (fun x => decide (x = rootName ∨ x ∈ made es)) =
        (dotted name).filter fun x => ((run nodeText es).find? x).isSome := by
      rw [List.filter_filter]
      refine List.filter_congr fun x _ => ?_
      rw [Bool.eq_iff_iff, find?_isSome_iff, hr.mem_names_iff]
      by_cases hx : x = rootName <;> simp [hx]
    have hpackage : packageName ∈ made es := List.mem_cons_self
    rw [if_neg hroot, ← upTo_filter (by simp [hpackage]), List.filter_cons_of_pos (by simp [hname]),
      List.filter_append, hsame, List.filter_cons_of_pos (by simp), List.filter_nil,
      names_chain hr.proper hbelow hplain]

/-- Under a plain name, the loggers that print are those that the names tell. -/
theorem names_sources (hplain : Plain name) (hname : name ∈ made es) :
    (sources nodeText es name).map (·.name) = nameSources es name := by
  have hprints : ∀ l ∈ reporting ((run nodeText es).chain name),
      decide (l.name = packageName ∨ Topmost nodeText es l.name) =
        decide (l.name = packageName ∨ Leading es l.name) := by
    intro l hl
    have hself : Plain l.name := hplain.of_mem_chain (proper_run nodeText es)
      (canonical_of_mem_made hname) (reporting_subset _ hl)
    by_cases hpackage : l.name = packageName
    · simp [hpackage]
    · simp [topmost_iff_leading hself hpackage]
  have hcomp : (fun l : Logger => decide (l.name = packageName ∨ Leading es l.name)) =
      (fun x => decide (x = packageName ∨ Leading es x)) ∘ (·.name) := rfl
  rw [sources, List.filter_congr hprints, hcomp, ← List.filter_map,
    names_reporting_chain hplain hname, nameSources, List.filter_filter]
  refine List.filter_congr fun x _ => ?_
  rw [Bool.and_eq_left_iff_imp, decide_eq_true_iff, decide_eq_true_iff]
  rintro (rfl | hleading)
  · exact .inr List.mem_cons_self
  · exact .inr hleading.1

/-- What the history of the loggers says about the output of a recorder. -/
structure Accounted (nodeText : NodeId → String) (es : List ConsoleEvent) (r : Recorder)
    (name : String) : Prop where
  /-- A message that passes is printed once by each of the sources: the library's logger, and those
  that were made while none on their chain had been made. -/
  output (m : Message) (hm : (run nodeText es).enabled name m.severity = true) :
    r.output (run nodeText es) m =
      String.join (List.replicate (sources nodeText es name).length (r.printed m))
  pos : 1 ≤ (sources nodeText es name).length
  /-- It is printed once in the library, in whatever order the loggers were made. -/
  package (hpackage : name = packageName ∨ packageName ∈ dotted name)
    (hgapless : Gapless name.toList) :
    (sources nodeText es name).length = 1 ∧
      ∃ l ∈ (run nodeText es).chain name, l.name = packageName
  /-- It is printed once where no logger on the chain was made before one above it. -/
  ordered (hordered : ((reporting ((run nodeText es).chain name)).map (·.name)).Pairwise
      fun first second => ¬ MadeEarlier es first second) :
    (sources nodeText es name).length = 1
  /-- Under a plain name, the sources are those that the dots and the order of making tell. -/
  names (hplain : Plain name) :
    (sources nodeText es name).map (·.name) = nameSources es name
  /-- Below the library's logger, and without a level before it, the level that was last set for it
  decides, or that of the root if there is none. -/
  enabled_iff (hpackage : ∃ l ∈ (run nodeText es).chain name, l.name = packageName)
    (hnone : ∀ l ∈ ((run nodeText es).chain name).takeWhile (·.name != packageName),
      l.level.weight = 0) (severity : Severity) :
    (run nodeText es).enabled name severity = true ↔
      (if (packageLevel nodeText es).weight = 0 then (run nodeText es).root.level.weight
        else (packageLevel nodeText es).weight) ≤ severity.number

theorem copies_canonical (h : Hierarchy) (name : String) (severity : Severity) :
    h.copies (canonical name) severity = h.copies name severity := by
  rw [copies, copies, enabled, enabled, effectiveLevel, effectiveLevel, printers, printers,
    chain_canonical]

/-- Over every history, the output of a recorder that was made is accounted for. -/
theorem accounted_of_made (nodeText : NodeId → String) (es : List ConsoleEvent) (r : Recorder)
    (name : String) (hr : r.logger? = some name) (hname : name ∈ made es) :
    Accounted nodeText es r name where
  output m hm := by
    have hcopies : (run nodeText es).copies name m.severity =
      (sources nodeText es name).length := by
      rw [copies, if_pos hm, printers_eq_sources]
    cases r with
    | console given | strict given =>
        cases hr
        rw [copies_canonical] at hcopies
        rw [← hcopies]
        rfl
    | collected entries => cases hr
  pos := length_sources_pos hname
  package hpackage hgapless := by
    have hmem : ∃ l ∈ (run nodeText es).chain name, l.name = packageName := by
      rcases hpackage with rfl | hpackage
      · exact ⟨_, List.mem_cons_self, by rw [(proper_run nodeText es).name_get,
          canonical_of_mem_made hname]⟩
      · obtain ⟨l, hl, hlname⟩ :=
          exists_package_mem_ancestors (known_package nodeText es) hgapless hpackage
        exact ⟨l, List.mem_cons_of_mem _ hl, hlname⟩
    exact ⟨length_sources_of_package (canonical_of_mem_made hname) hgapless hmem, hmem⟩
  ordered hordered :=
    Nat.le_antisymm (length_sources_le_one hordered (canonical_of_mem_made hname))
      (length_sources_pos hname)
  names hplain := names_sources hplain hname
  enabled_iff hpackage hnone severity := by
    rw [enabled, effectiveLevel_of_package hpackage hnone, decide_eq_true_iff]

/-- A logger that was made before the one above it prints, and so does that one, as their names
tell. -/
theorem accounted_of_made_lateAncestor :
    let es : List ConsoleEvent := [.console "a.b", .console "a"]
    "a.b" ∈ made es ∧ Plain "a.b" ∧ nameSources es "a.b" = ["a.b", "a"] ∧
      Recorder.output (run (fun _ => "") es) (.console "a.b") ⟨.info, "m"⟩ =
        "INFO - m\nINFO - m\n" := by
  intro es
  have hmade : "a.b" ∈ made es := by decide
  have hplain : Plain "a.b" := by decide
  have hnames : nameSources es "a.b" = ["a.b", "a"] := by decide
  refine ⟨hmade, hplain, hnames, ?_⟩
  have haccount := accounted_of_made (fun _ => "") es (.console "a.b") "a.b"
    (by decide) hmade
  have hlength : (sources (fun _ => "") es "a.b").length = 2 := by
    rw [← List.length_map, haccount.names hplain, hnames]
    rfl
  rw [haccount.output ⟨.info, "m"⟩ (by decide), hlength]
  decide

/-- Names that are not plain do not tell the output, and a level that is set for the library's
logger by way of a recorder replaces that of the library. -/
theorem not_counted_by_names :
    let es : List ConsoleEvent := [.console "doctree..x", .console "doctree.", .console "r.x",
      .console "r", .setPackageLevel (.str "INFO"), .setLevel (.console packageName) (.int 50),
      .console "doctree.z"]
    let h := run (fun _ => "") es
    (nameSources es "doctree..x" = [packageName] ∧
      Recorder.output h (.console "doctree..x") ⟨.info, "m"⟩ = "INFO - m\nINFO - m\n") ∧
    (nameSources es "r.x" = ["r.x", "r"] ∧
      Recorder.output h (.console "r.x") ⟨.info, "m"⟩ = "INFO - m\n") ∧
    ((h.chain "doctree.z").map (·.name) = ["doctree.z", packageName, rootName] ∧
      (h.get "doctree.z").level = .number 0 ∧ h.enabled "doctree.z" .info = false) := by
  decide

end MarkdownTree.Log
