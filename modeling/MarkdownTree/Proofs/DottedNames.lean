import MarkdownTree.Proofs.LoggerChains

/-!
Names with dots. What stands before the dots of a name are the names of the loggers that are meant
to be above its own. The walk up comes by no others, and where no two dots stand side by side it
comes by all of them that are there, but for the few that do not displace the root.
-/

namespace MarkdownTree.Log

variable {h : Hierarchy} {l : Logger} {below name other last : String} {c : Char} {cs : List Char}

/-- What stands before the dots of a name that is read backwards, the longest first. -/
def prefixesFrom : List Char → List String
  | '.' :: c :: rest => String.ofList (c :: rest).reverse :: prefixesFrom (c :: rest)
  | _ :: rest => prefixesFrom rest
  | [] => []

/-- What stands before the dots of a name, the longest first. -/
def dotted (name : String) : List String :=
  prefixesFrom name.toList.reverse

theorem mem_prefixesFrom_iff : other ∈ prefixesFrom cs ↔
    other ≠ "" ∧ ∃ front, cs = front ++ '.' :: other.toList.reverse := by
  fun_induction prefixesFrom cs with
  | case1 c rest ih =>
      rw [List.mem_cons, ih]
      constructor
      · rintro (rfl | ⟨hne, front, hfront⟩)
        · exact ⟨by simp [← String.toList_inj], [], by simp⟩
        · exact ⟨hne, '.' :: front, by rw [hfront]; rfl⟩
      · rintro ⟨hne, front, hfront⟩
        cases front with
        | nil =>
            have hrest := (List.cons.inj hfront).2
            exact .inl (by rw [hrest]; simp)
        | cons d front => exact .inr ⟨hne, front, (List.cons.inj hfront).2⟩
  | case2 head rest hhead ih =>
      rw [ih]
      refine and_congr_right fun hne => ⟨fun ⟨front, hfront⟩ =>
        ⟨head :: front, by rw [hfront]; rfl⟩, ?_⟩
      rintro ⟨front, hfront⟩
      cases front with
      | nil =>
          obtain ⟨hdot, hrest⟩ := List.cons.inj hfront
          have hchars : other.toList.reverse ≠ [] := by simp [hne]
          obtain ⟨d, ds, hds⟩ := List.exists_cons_of_ne_nil hchars
          exact (hhead d ds hdot (hrest.trans hds)).elim
      | cons d front => exact ⟨front, (List.cons.inj hfront).2⟩
  | case3 => simp

/-- The names before the dots are the beginnings of a name that a dot follows. -/
theorem mem_dotted_iff :
    other ∈ dotted name ↔ other ≠ "" ∧ ∃ rest, name = other ++ "." ++ rest := by
  rw [dotted, mem_prefixesFrom_iff]
  refine and_congr_right fun _ => ⟨fun ⟨front, hfront⟩ => ⟨String.ofList front.reverse, ?_⟩,
    fun ⟨rest, hrest⟩ => ⟨rest.toList.reverse, ?_⟩⟩
  · rw [List.reverse_eq_iff] at hfront
    simp [← String.toList_inj, hfront]
  · simp [hrest]

theorem mem_dotted_trans (hlast : last ∈ dotted other) (hother : other ∈ dotted name) :
    last ∈ dotted name := by
  obtain ⟨hne, rest, rfl⟩ := mem_dotted_iff.1 hlast
  obtain ⟨-, rest', rfl⟩ := mem_dotted_iff.1 hother
  exact mem_dotted_iff.2 ⟨hne, rest ++ "." ++ rest', by simp only [String.append_assoc]⟩

/-- Whether no two dots stand side by side. -/
def Gapless (cs : List Char) : Prop :=
  ¬ ['.', '.'] <:+: cs

instance : Decidable (Gapless cs) :=
  inferInstanceAs (Decidable ¬ _)

namespace Gapless

theorem reverse (hcs : Gapless cs) : Gapless cs.reverse := by
  intro hdots
  exact hcs (List.reverse_infix.1 (by simpa using hdots))

theorem of_infix {part : List Char} (hcs : Gapless cs) (hpart : part <:+: cs) : Gapless part :=
  fun hdots => hcs (hdots.trans hpart)

theorem tail (hcs : Gapless (c :: cs)) : Gapless cs :=
  hcs.of_infix (List.suffix_cons c cs).isInfix

theorem second_ne (hcs : Gapless ('.' :: c :: cs)) : c ≠ '.' := by
  rintro rfl
  exact hcs ⟨[], cs, rfl⟩

theorem of_mem_dotted (hname : Gapless name.toList) (hother : other ∈ dotted name) :
    Gapless other.toList := by
  obtain ⟨-, rest, rfl⟩ := mem_dotted_iff.1 hother
  refine hname.of_infix ⟨[], ('.' :: rest.toList), ?_⟩
  simp

end Gapless

theorem prefixesFrom_cons (hc : c ≠ '.') : prefixesFrom (c :: cs) = prefixesFrom cs := by
  rw [prefixesFrom]
  exact fun _ _ hdot _ => hc hdot

namespace Hierarchy

/-- The walk up comes by beginnings of the name only. -/
theorem name_mem_prefixesFrom (hl : l ∈ h.ancestorsFrom below cs) : l.name ∈ prefixesFrom cs := by
  fun_induction ancestorsFrom h below cs with
  | case1 below c rest found hfound ih =>
      rw [prefixesFrom]
      rcases List.mem_cons.1 hl with rfl | hl
      · obtain ⟨hfind, -⟩ := visible?_eq_some_iff.1 hfound
        rw [name_of_find? hfind]
        exact List.mem_cons_self
      · exact List.mem_cons_of_mem _ (ih hl)
  | case2 below c rest hnone ih =>
      obtain ⟨hne, front, hfront⟩ := mem_prefixesFrom_iff.1 (ih hl)
      exact mem_prefixesFrom_iff.2 ⟨hne, '.' :: c :: front, by rw [hfront]; rfl⟩
  | case3 below head rest hne ih =>
      rw [prefixesFrom]
      · exact ih hl
      · exact hne
  | case4 => cases hl

/-- Without two dots side by side the walk up comes by every logger that displaces the root. -/
theorem mem_ancestorsFrom (hcs : Gapless cs) (hname : name ∈ prefixesFrom cs)
    (hl : h.find? name = some l) (hdisplaces : displacesRoot name = true) :
    l ∈ h.ancestorsFrom below cs := by
  fun_induction ancestorsFrom h below cs with
  | case1 below c rest found hfound ih =>
      rw [prefixesFrom] at hname
      rcases List.mem_cons.1 hname with rfl | hname
      · obtain ⟨hfind, -⟩ := visible?_eq_some_iff.1 hfound
        rw [hl, Option.some.injEq] at hfind
        exact hfind ▸ List.mem_cons_self
      · exact List.mem_cons_of_mem _ (ih hcs.tail hname)
  | case2 below c rest hnone ih =>
      rw [prefixesFrom, prefixesFrom_cons hcs.second_ne] at hname
      rcases List.mem_cons.1 hname with rfl | hname
      · rw [visible?_eq_some_iff.2 ⟨hl, .inl hdisplaces⟩] at hnone
        cases hnone
      · exact ih hcs.tail.tail hname
  | case3 below head rest hne ih =>
      rw [prefixesFrom] at hname
      · exact ih hcs.tail hname
      · exact hne
  | case4 => cases hname

/-- Where they all displace the root, the walk up comes by the loggers that are there. -/
theorem names_ancestorsFrom (hcs : Gapless cs)
    (hdisplace : ∀ name ∈ prefixesFrom cs, (h.find? name).isSome → displacesRoot name = true) :
    (h.ancestorsFrom below cs).map (·.name) =
      (prefixesFrom cs).filter fun name => (h.find? name).isSome := by
  fun_induction ancestorsFrom h below cs with
  | case1 below c rest found hfound ih =>
      obtain ⟨hfind, -⟩ := visible?_eq_some_iff.1 hfound
      rw [prefixesFrom, List.forall_mem_cons] at hdisplace
      rw [prefixesFrom, List.filter_cons_of_pos (by rw [hfind]; rfl), List.map_cons,
        ih hcs.tail hdisplace.2, name_of_find? hfind]
  | case2 below c rest hnone ih =>
      rw [prefixesFrom, prefixesFrom_cons hcs.second_ne, List.forall_mem_cons] at hdisplace
      have hmissing : h.find? (String.ofList (c :: rest).reverse) = none := by
        cases hfind : h.find? (String.ofList (c :: rest).reverse) with
        | none => rfl
        | some l =>
            have hdisplaces := hdisplace.1 (by rw [hfind]; rfl)
            rw [visible?_eq_some_iff.2 ⟨hfind, .inl hdisplaces⟩] at hnone
            cases hnone
      rw [prefixesFrom, List.filter_cons_of_neg (by rw [hmissing]; exact Bool.false_ne_true),
        prefixesFrom_cons hcs.second_ne, ih hcs.tail.tail hdisplace.2]
  | case3 below head rest hne ih =>
      rw [prefixesFrom] at hdisplace ⊢
      · exact ih hcs.tail hdisplace
      · exact hne
      · exact hne
  | case4 => rfl

end Hierarchy

def upTo (last : String) : List String → List String
  | [] => []
  | name :: rest => if name = last then [name] else name :: upTo last rest

theorem upTo_filter {keep : String → Bool} (hkeep : keep last = true) (names : List String) :
    upTo last (names.filter keep) = (upTo last names).filter keep := by
  induction names with
  | nil => rfl
  | cons name names ih =>
      by_cases hlast : name = last
      · rw [hlast, List.filter_cons_of_pos hkeep, upTo, upTo, if_pos rfl, if_pos rfl,
          List.filter_cons_of_pos hkeep]
        rfl
      · rw [upTo, if_neg hlast, List.filter_cons, List.filter_cons]
        split
        · rw [upTo, if_neg hlast, ih]
        · exact ih

theorem names_reporting {loggers : List Logger}
    (hreports : ∀ l ∈ loggers, l.reports = true ↔ l.name ≠ last) :
    (Hierarchy.reporting loggers).map (·.name) = upTo last (loggers.map (·.name)) := by
  induction loggers with
  | nil => rfl
  | cons l loggers ih =>
      obtain ⟨hl, hrest⟩ := List.forall_mem_cons.1 hreports
      rw [Hierarchy.reporting, List.map_cons, upTo]
      by_cases hlast : l.name = last
      · have hsilent : ¬ l.reports = true := fun h => hl.1 h hlast
        rw [if_neg hsilent, if_pos hlast]
        rfl
      · rw [if_pos (hl.2 hlast), if_neg hlast, List.map_cons, ih hrest]

end MarkdownTree.Log
