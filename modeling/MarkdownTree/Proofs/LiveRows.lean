import Mathlib.Data.List.Flatten
import Mathlib.Data.List.Induction
import MarkdownTree.Proofs.Growth
import MarkdownTree.Proofs.Subtrees
import MarkdownTree.Proofs.TableRows

/-!
Reading the rows of a table that grows meanwhile. A place in the rows divides them into those that
were passed and those ahead, and a step of the reading takes the first one ahead. Children are only
added behind those that were there; so what was passed stays passed, what is ahead stays ahead, and
a row that comes in is ahead too, unless it was put into a section that was left, or the end had
been reached. Main statement: what is read is in the order of the final table, each row once, and no
row is left out but such late ones.
-/

namespace MarkdownTree.Forest

variable {f g h : Forest} {c p q : NodeId}

/-! ### Children behind those that were there -/

/-- `Lengthened f g` says that `g` has the lists of children of `f`, each with more behind it. -/
def Lengthened (f g : Forest) : Prop :=
  ∀ p, f.children p <+: g.children p

theorem Lengthened.refl (f : Forest) : f.Lengthened f :=
  fun _ => List.prefix_rfl

/-- A new node takes no child from another one. -/
theorem children_newNode (hf : f.WellFormed) (element : Element) {metadata : Entries}
    (hmeta : ∀ c ∈ Value.nodesEntries metadata, c < f.size) (q : NodeId) :
    (outcome (newNode element [] metadata) f).2.children q = f.children q :=
  (extends_addNode hf element hmeta).children_eq q

/-- A root that is appended goes behind all children, or nowhere. -/
theorem children_appendChild (hf : f.WellFormed) (hp : p < f.size) (hc : f.parent? c = none)
    (q : NodeId) :
    (outcome (appendChild p (.node c)) f).2.children q = f.children q ∨
      q = p ∧ (outcome (appendChild p (.node c)) f).2.children q = f.children q ++ [c] := by
  cases hcheck : f.checkAttach p (.node c) with
  | error e =>
      left
      simp only [appendChild, outcome_bind, outcome_get, outcome_attachAt_fault hcheck]
  | ok k =>
      obtain ⟨hk, hfit⟩ := (checkAttach_eq_ok_iff hf).1 hcheck
      cases hk
      rw [outcome_appendChild_root hf hc hfit, children_attach hp]
      by_cases hq : q = p
      · subst hq
        exact .inr ⟨rfl, if_pos rfl⟩
      · exact .inl (if_neg hq)

/-- In a tree the children of a node come in their order. -/
theorem children_sublist_preorders (hf : f.WellFormed) (nodes : List NodeId) :
    nodes.Sublist (nodes.flatMap f.preorder) := by
  induction nodes with
  | nil => exact .slnil
  | cons n nodes ih =>
      rw [List.flatMap_cons, hf.preorder_eq, List.cons_append]
      exact (ih.trans (List.sublist_append_right _ _)).cons_cons n

/-- The rows of a table come in the order of its tree. -/
theorem rowsOf_sublist_preorder (hf : f.WellFormed) (table : NodeId) :
    (f.rowsOf table).Sublist (f.preorder table) := by
  have hsections : (f.rowsOf table).Sublist ((f.children table).flatMap f.preorder) := by
    refine List.Sublist.flatMap_right _ fun s _ => ?_
    rw [hf.preorder_eq]
    exact (children_sublist_preorders hf (f.children s)).cons s
  rw [hf.preorder_eq]
  exact hsections.cons table

/-! ### Places in the rows -/

namespace RowCursor

variable {f g : Forest} {cursor next : RowCursor} {row s : NodeId} {rows : List NodeId}

/-- The sections that were left: those before the one that is being read. -/
def left (f : Forest) (cursor : RowCursor) : List NodeId :=
  (f.children cursor.table).take
    (if cursor.reading?.isSome then cursor.nextSection - 1 else cursor.nextSection)

/-- The rows of the section that is being read, before the place and from it on. -/
def current (f : Forest) (cursor : RowCursor) : List NodeId × List NodeId :=
  match cursor.reading? with
  | some (s, i) => ((f.children s).take i, (f.children s).drop i)
  | none => ([], [])

/-- The rows before the place. At the end these are all rows, whenever they came in. -/
def passed (f : Forest) (cursor : RowCursor) : List NodeId :=
  if cursor.ended then f.rowsOf cursor.table
  else (cursor.left f).flatMap f.children ++ (cursor.current f).1

def ahead (f : Forest) (cursor : RowCursor) : List NodeId :=
  if cursor.ended then []
  else (cursor.current f).2 ++
    ((f.children cursor.table).drop cursor.nextSection).flatMap f.children

/-- A place that can be reached: the section that is being read is the one before the next, and the
place in it is not past its end. -/
structure Valid (f : Forest) (cursor : RowCursor) : Prop where
  nextSection_le : cursor.nextSection ≤ (f.children cursor.table).length
  reading (s : NodeId) (i : Nat) (h : cursor.reading? = some (s, i)) :
    ∃ k, cursor.nextSection = k + 1 ∧ (f.children cursor.table)[k]? = some s ∧
      i ≤ (f.children s).length

theorem passed_append_ahead (hv : cursor.Valid f) :
    cursor.passed f ++ cursor.ahead f = f.rowsOf cursor.table := by
  unfold passed ahead
  split
  -- At the end all rows are passed. Before it the section that is read, if any, is divided.
  · exact List.append_nil _
  · rw [left, current, rowsOf]
    cases hreading : cursor.reading? with
    | none =>
        simp only [Option.isSome_none, Bool.false_eq_true, if_false, List.append_nil,
          List.nil_append]
        rw [← List.flatMap_append, List.take_append_drop]
    | some place =>
        obtain ⟨s, i⟩ := place
        obtain ⟨k, hk, hs, -⟩ := hv.reading s i hreading
        obtain ⟨hlt, hget⟩ := List.getElem?_eq_some_iff.1 hs
        have hsplit : f.children cursor.table = (f.children cursor.table).take k ++
            s :: (f.children cursor.table).drop (k + 1) := by
          rw [← hget, ← List.drop_eq_getElem_cons hlt, List.take_append_drop]
        simp only [Option.isSome_some, if_true, hk, Nat.add_sub_cancel]
        conv => rhs; rw [hsplit, List.flatMap_append, List.flatMap_cons]
        rw [List.append_assoc, ← List.append_assoc (List.take i _), List.take_append_drop]

/-! ### One step of the reading -/

/-- Reading from one place to the next takes the first row ahead, or comes to the end. -/
structure Follows (f : Forest) (cursor : RowCursor) (rows : List NodeId)
    (result : Option NodeId × RowCursor) : Prop where
  table_eq : result.2.table = cursor.table
  valid : result.2.Valid f
  row_eq : result.1 = rows.head?
  ahead_eq : result.2.ahead f = rows.tail
  ended_eq : result.2.ended = rows.isEmpty

theorem follows_firstRow (hended : cursor.ended = false) {index : Nat} {sections : List NodeId}
    (hsections : (f.children cursor.table).drop index = sections)
    (hindex : index ≤ (f.children cursor.table).length) :
    cursor.Follows f (sections.flatMap f.children) (f.firstRow cursor index sections) := by
  -- Sections without rows are skipped, so the induction is over those that are left.
  induction sections generalizing index with
  | nil =>
      refine ⟨rfl, ⟨hindex, fun s i h => ?_⟩, rfl, rfl, rfl⟩
      cases h
  | cons s sections ih =>
      have hlt : index < (f.children cursor.table).length := by
        have hlength := congrArg List.length hsections
        rw [List.length_drop, List.length_cons] at hlength
        omega
      have hrest : (f.children cursor.table).drop (index + 1) = sections := by
        rw [← List.tail_drop, hsections, List.tail_cons]
      have hs : (f.children cursor.table)[index]? = some s := by
        rw [← List.head?_drop, hsections, List.head?_cons]
      rw [firstRow, List.flatMap_cons]
      cases hrows : f.children s with
      | nil => exact ih hrest hlt
      | cons row rows =>
          refine ⟨rfl, ⟨hlt, fun t i h => ?_⟩, rfl, ?_, hended⟩
          · cases h
            refine ⟨index, rfl, hs, ?_⟩
            rw [hrows, List.length_cons]
            omega
          · simp [ahead, current, hended, hrows, hrest]

/-- A step of the reading takes the first row ahead, and without one it comes to the end. -/
theorem follows_nextRow (hv : cursor.Valid f) :
    cursor.Follows f (cursor.ahead f) (f.nextRow cursor) := by
  cases hended : cursor.ended with
  | true =>
      have hahead : cursor.ahead f = [] := by simp [ahead, hended]
      rw [nextRow, if_pos hended, hahead]
      exact ⟨rfl, hv, rfl, hahead, hended⟩
  | false =>
      have hlater := follows_firstRow hended rfl hv.nextSection_le
      rw [nextRow, if_neg (by simp [hended])]
      cases hreading : cursor.reading? with
      | none => simpa [ahead, current, hended, hreading] using hlater
      | some place =>
          obtain ⟨s, i⟩ := place
          obtain ⟨k, hk, hs, hi⟩ := hv.reading s i hreading
          have hrows : (f.children s)[i]? = ((f.children s).drop i).head? := List.head?_drop.symm
          simp only [Option.bind_some, hrows]
          cases hdrop : (f.children s).drop i with
          | nil => simpa [ahead, current, hended, hreading, hdrop] using hlater
          | cons row rows =>
              have hlt : i < (f.children s).length := by
                have hlength := congrArg List.length hdrop
                rw [List.length_drop, List.length_cons] at hlength
                omega
              have hrest : (f.children s).drop (i + 1) = rows := by
                rw [← List.tail_drop, hdrop, List.tail_cons]
              refine ⟨rfl, ⟨hv.nextSection_le, fun t j h => ?_⟩, ?_, ?_, ?_⟩
              · cases h
                exact ⟨k, hk, hs, hlt⟩
              · simp [ahead, current, hended, hreading, hdrop]
              · simp [ahead, current, hended, hreading, hdrop, hrest]
              · simp [ahead, current, hended, hreading, hdrop]

/-- The row that is read is passed, and no other. -/
theorem Follows.passed_eq {result : Option NodeId × RowCursor} (hv : cursor.Valid f)
    (hresult : cursor.Follows f (cursor.ahead f) result) :
    result.2.passed f = cursor.passed f ++ result.1.toList := by
  have hall := passed_append_ahead hresult.valid
  rw [hresult.table_eq, ← passed_append_ahead hv, hresult.ahead_eq] at hall
  rw [hresult.row_eq]
  cases hahead : cursor.ahead f with
  | nil => simpa [hahead] using hall
  | cons row rows =>
      rw [hahead, List.tail_cons, List.append_cons] at hall
      exact List.append_cancel_right hall

/-! ### The same place in a table that grew -/

section
variable (hv : cursor.Valid f) (hfg : f.Lengthened g)

include hv hfg

theorem Valid.lengthened : cursor.Valid g where
  nextSection_le := Nat.le_trans hv.nextSection_le (hfg cursor.table).length_le
  reading s i h := by
    obtain ⟨k, hk, hs, hi⟩ := hv.reading s i h
    obtain ⟨more, hmore⟩ := hfg cursor.table
    refine ⟨k, hk, ?_, Nat.le_trans hi (hfg s).length_le⟩
    rw [← hmore, List.getElem?_append_left (List.getElem?_eq_some_iff.1 hs).1, hs]

theorem left_eq : cursor.left g = cursor.left f := by
  have hle := hv.nextSection_le
  obtain ⟨more, hmore⟩ := hfg cursor.table
  rw [left, left, ← hmore]
  refine List.take_append_of_le_length ?_
  split <;> omega

theorem current_fst_eq : (cursor.current g).1 = (cursor.current f).1 := by
  unfold current
  cases hreading : cursor.reading? with
  | none => rfl
  | some place =>
      obtain ⟨s, i⟩ := place
      obtain ⟨_, -, -, hi⟩ := hv.reading s i hreading
      obtain ⟨more, hmore⟩ := hfg s
      simp only [← hmore]
      exact List.take_append_of_le_length hi

theorem passed_sublist : (cursor.passed f).Sublist (cursor.passed g) := by
  have hchildren (n : NodeId) : (f.children n).Sublist (g.children n) := (hfg n).sublist
  unfold passed
  split
  · rw [rowsOf, rowsOf]
    exact (List.Sublist.flatMap_right _ fun s _ => hchildren s).trans
      ((hchildren cursor.table).flatMap _)
  · rw [left_eq hv hfg, current_fst_eq hv hfg]
    exact (List.Sublist.flatMap_right _ fun s _ => hchildren s).append_right _

omit hv in
theorem ahead_sublist : (cursor.ahead f).Sublist (cursor.ahead g) := by
  have hsections : (((f.children cursor.table).drop cursor.nextSection).flatMap f.children).Sublist
      (((g.children cursor.table).drop cursor.nextSection).flatMap g.children) :=
    (List.Sublist.flatMap_right _ fun s _ => (hfg s).sublist).trans
      (((hfg cursor.table).sublist.drop cursor.nextSection).flatMap _)
  unfold ahead current
  split
  · exact .slnil
  · cases cursor.reading? with
    | none => exact hsections
    | some place => exact ((hfg place.1).sublist.drop place.2).append hsections

/-- A row that came in and is not ahead was put into a section that was left, if the end was not
reached before. -/
theorem exists_left_of_mem_passed (hopen : cursor.ended = false) (hrow : row ∈ cursor.passed g)
    (hnew : row ∉ f.rowsOf cursor.table) :
    ∃ s ∈ cursor.left f, row ∈ g.children s ∧ row ∉ f.children s := by
  rw [passed, if_neg (by simp [hopen]), left_eq hv hfg, current_fst_eq hv hfg,
    List.mem_append, List.mem_flatMap] at hrow
  rcases hrow with ⟨s, hs, hrow⟩ | hrow
  · refine ⟨s, hs, hrow, fun hold => hnew ?_⟩
    exact List.mem_flatMap.2 ⟨s, List.mem_of_mem_take hs, hold⟩
  · refine absurd ?_ hnew
    rw [← passed_append_ahead hv, passed, if_neg (by simp [hopen])]
    exact List.mem_append_left _ (List.mem_append_right _ hrow)

end

end RowCursor

/-! ### Readings -/

/-- What happens while the rows of a table are read: a row is read, a node is made, or a node is
appended to another one. -/
inductive ReadingStep where
  | read
  | make (element : Element) (metadata : Entries)
  | append (p c : NodeId)

/-- A reading of the rows of a table: the forest and the place as they are, and the answers that
were given so far. -/
structure Reading where
  forest : Forest
  cursor : RowCursor
  answers : List (Option NodeId)

namespace Reading

variable {r : Reading} {steps : List ReadingStep} {step : ReadingStep} {row : NodeId}

def rows (r : Reading) : List NodeId :=
  r.forest.rowsOf r.cursor.table

def found (r : Reading) : List NodeId :=
  r.answers.filterMap id

def after (r : Reading) : ReadingStep → Reading
  | .read => ⟨r.forest, (r.forest.nextRow r.cursor).2,
      r.answers ++ [(r.forest.nextRow r.cursor).1]⟩
  | .make element metadata =>
    { r with forest := (outcome (newNode element [] metadata) r.forest).2 }
  | .append p c => { r with forest := (outcome (appendChild p (.node c)) r.forest).2 }

def run (r : Reading) (steps : List ReadingStep) : Reading :=
  steps.foldl after r

/-- The steps that may be taken: a new node refers to nodes that exist, and what is appended has no
parent. -/
def Admits (r : Reading) : ReadingStep → Prop
  | .read => True
  | .make _ metadata => ∀ c ∈ Value.nodesEntries metadata, c < r.forest.size
  | .append p c => p < r.forest.size ∧ c < r.forest.size ∧ r.forest.parent? c = none

/-- Steps of which each may be taken when its turn comes. -/
def AdmitsAll (r : Reading) : List ReadingStep → Prop
  | [] => True
  | step :: steps => r.Admits step ∧ (r.after step).AdmitsAll steps

instance decidableAdmits (r : Reading) : (step : ReadingStep) → Decidable (r.Admits step)
  | .read => .isTrue trivial
  | .make _ metadata =>
    inferInstanceAs (Decidable (∀ c ∈ Value.nodesEntries metadata, c < r.forest.size))
  | .append p c =>
    inferInstanceAs (Decidable (p < r.forest.size ∧ c < r.forest.size ∧ r.forest.parent? c = none))

instance decidableAdmitsAll (r : Reading) : (steps : List ReadingStep) →
    Decidable (r.AdmitsAll steps)
  | [] => .isTrue trivial
  | step :: steps =>
    haveI := decidableAdmitsAll (r.after step) steps
    inferInstanceAs (Decidable (r.Admits step ∧ (r.after step).AdmitsAll steps))

/-- A step brings a row into the table too late: the end was reached before, or the section that the
row is appended to was left. -/
structure Late (r : Reading) (step : ReadingStep) (row : NodeId) : Prop where
  new : row ∉ r.rows
  present : row ∈ (r.after step).rows
  late : none ∈ r.answers ∨ ∃ s ∈ r.cursor.left r.forest, step = .append s row

theorem run_concat (r : Reading) (steps : List ReadingStep) (step : ReadingStep) :
    r.run (steps ++ [step]) = (r.run steps).after step :=
  List.foldl_concat ..

theorem admitsAll_concat :
    r.AdmitsAll (steps ++ [step]) ↔ r.AdmitsAll steps ∧ (r.run steps).Admits step := by
  induction steps generalizing r with
  | nil => simp [AdmitsAll, run]
  | cons first steps ih =>
      rw [List.cons_append, AdmitsAll, AdmitsAll, ih, and_assoc]
      rfl

/-! ### What a step keeps -/

/-- What holds all along. Rows are read in order, and after an end there are only ends. -/
structure Sound (r : Reading) : Prop where
  wellFormed : r.forest.WellFormed
  valid : r.cursor.Valid r.forest
  answers_eq : ∃ ends, r.answers = r.found.map some ++ List.replicate ends none
  ended_iff : r.cursor.ended = true ↔ none ∈ r.answers
  sublist : r.found.Sublist (r.cursor.passed r.forest)

theorem found_concat (answers : List (Option NodeId)) (answer : Option NodeId) :
    (answers ++ [answer]).filterMap id = answers.filterMap id ++ answer.toList := by
  cases answer <;> simp

/-- Before the end all answers are rows. -/
theorem Sound.answers_of_open (hr : r.Sound) (hopen : r.cursor.ended = false) :
    r.answers = r.found.map some := by
  obtain ⟨ends, hends⟩ := hr.answers_eq
  have hnone : none ∉ r.answers := by
    rw [← hr.ended_iff, hopen]
    exact Bool.false_ne_true
  have hzero : ends = 0 := by
    by_contra hpos
    refine hnone (hends ▸ List.mem_append_right _ ?_)
    exact List.mem_replicate.2 ⟨hpos, rfl⟩
  rw [hends, hzero]
  exact List.append_nil _

theorem Sound.read (hr : r.Sound) : (r.after .read).Sound := by
  have hnext := RowCursor.follows_nextRow hr.valid
  have hclosed : r.cursor.ended = true → r.cursor.ahead r.forest = [] := fun h => if_pos h
  have hfound : (r.after .read).found = r.found ++ (r.forest.nextRow r.cursor).1.toList :=
    found_concat _ _
  refine ⟨hr.wellFormed, hnext.valid, ?_, ?_, ?_⟩
  · rw [hfound]
    show ∃ ends, r.answers ++ [(r.forest.nextRow r.cursor).1] = _
    rw [hnext.row_eq]
    cases hahead : r.cursor.ahead r.forest with
    | nil =>
        obtain ⟨ends, hends⟩ := hr.answers_eq
        refine ⟨ends + 1, ?_⟩
        simp [hends, List.replicate_succ']
    | cons row rows =>
        have hopen : r.cursor.ended = false := by
          rw [← Bool.not_eq_true]
          exact fun hended => List.cons_ne_nil row rows (hahead ▸ hclosed hended)
        refine ⟨0, ?_⟩
        simp [hr.answers_of_open hopen]
  · show (r.forest.nextRow r.cursor).2.ended = true ↔
      none ∈ r.answers ++ [(r.forest.nextRow r.cursor).1]
    rw [List.mem_append, ← hr.ended_iff, List.mem_singleton, hnext.row_eq, hnext.ended_eq]
    cases hahead : r.cursor.ahead r.forest with
    | nil => simp
    | cons row rows => simpa [hahead] using hclosed
  · rw [hfound]
    show List.Sublist _ ((r.forest.nextRow r.cursor).2.passed r.forest)
    rw [hnext.passed_eq hr.valid]
    exact hr.sublist.append_right _

theorem Sound.grow {g : Forest} (hr : r.Sound) (hg : g.WellFormed)
    (hfg : r.forest.Lengthened g) : Reading.Sound { r with forest := g } where
  wellFormed := hg
  valid := hr.valid.lengthened hfg
  answers_eq := hr.answers_eq
  ended_iff := hr.ended_iff
  sublist := hr.sublist.trans (RowCursor.passed_sublist hr.valid hfg)

/-- A step adds a child at most, and behind those that were there. -/
theorem Sound.grown (hr : r.Sound) (hstep : r.Admits step) :
    (r.after step).forest.WellFormed ∧ r.forest.Lengthened (r.after step).forest ∧
      ∀ s row, row ∈ (r.after step).forest.children s → row ∉ r.forest.children s →
        step = .append s row := by
  cases step with
  | read => exact ⟨hr.wellFormed, .refl _, fun s row hnew hold => absurd hnew hold⟩
  | make element metadata =>
      have hsame := children_newNode hr.wellFormed element hstep
      refine ⟨?_, fun q => ?_, fun s row hnew hold => ?_⟩
      · exact (carriesOn_newNode hr.wellFormed element hstep
          fun v hv => absurd hv List.not_mem_nil).wellFormed
      · exact ⟨[], (List.append_nil _).trans (hsame q).symm⟩
      · exact absurd (hsame s ▸ hnew) hold
  | append p c =>
      obtain ⟨hp, hc, hroot⟩ := hstep
      have hchildren := children_appendChild hr.wellFormed hp hroot
      have hknown : r.forest.Known (.node c) := fun k hk => Value.node.inj hk ▸ hc
      refine ⟨(relinked_appendChild hr.wellFormed hp hknown).wellFormed, fun q => ?_,
        fun s row hnew hold => ?_⟩
      · rcases hchildren q with hsame | ⟨-, hmore⟩
        · exact ⟨[], (List.append_nil _).trans hsame.symm⟩
        · exact ⟨[c], hmore.symm⟩
      · rcases hchildren s with hsame | ⟨rfl, hmore⟩
        · exact absurd (hsame ▸ hnew) hold
        · have hmem : row ∈ r.forest.children s ++ [c] := hmore ▸ hnew
          rcases List.mem_append.1 hmem with hmem | hmem
          · exact absurd hmem hold
          · rw [List.mem_singleton.1 hmem]

theorem Sound.after (hr : r.Sound) (hstep : r.Admits step) : (r.after step).Sound := by
  obtain ⟨hwf, hlonger, -⟩ := hr.grown hstep
  cases step with
  | read => exact hr.read
  | make element metadata => exact hr.grow hwf hlonger
  | append p c => exact hr.grow hwf hlonger

/-! ### Rows that are not left out -/

/-- A row is taken care of if it was read or is ahead. -/
def Covers (r : Reading) (row : NodeId) : Prop :=
  row ∈ r.found ∨ row ∈ r.cursor.ahead r.forest

theorem Sound.mem_rows_iff (hr : r.Sound) :
    row ∈ r.rows ↔ row ∈ r.cursor.passed r.forest ∨ row ∈ r.cursor.ahead r.forest := by
  rw [rows, ← RowCursor.passed_append_ahead hr.valid, List.mem_append]

theorem Sound.covers_after (hr : r.Sound) (hstep : r.Admits step) (hrow : r.Covers row) :
    (r.after step).Covers row := by
  obtain ⟨-, hlonger, -⟩ := hr.grown hstep
  have hahead : r.cursor.ahead r.forest ⊆ r.cursor.ahead (r.after step).forest :=
    (RowCursor.ahead_sublist hlonger).subset
  cases step with
  | read =>
      have hnext := RowCursor.follows_nextRow hr.valid
      have hfound : (r.after .read).found = r.found ++ (r.forest.nextRow r.cursor).1.toList :=
        found_concat _ _
      rw [Covers, hfound, List.mem_append, hnext.row_eq]
      show _ ∨ row ∈ (r.forest.nextRow r.cursor).2.ahead r.forest
      rw [hnext.ahead_eq]
      rcases hrow with hrow | hrow
      · exact .inl (.inl hrow)
      · cases hlist : r.cursor.ahead r.forest with
        | nil => exact absurd (hlist ▸ hrow) List.not_mem_nil
        | cons first rest =>
            rcases List.mem_cons.1 (hlist ▸ hrow) with rfl | hrest
            · exact .inl (.inr List.mem_cons_self)
            · exact .inr hrest
  | make element metadata => exact hrow.imp_right fun h => hahead h
  | append p c => exact hrow.imp_right fun h => hahead h

theorem Sound.table_after (hr : r.Sound) (step : ReadingStep) :
    (r.after step).cursor.table = r.cursor.table := by
  cases step with
  | read => exact (RowCursor.follows_nextRow hr.valid).table_eq
  | make element metadata => rfl
  | append p c => rfl

/-- A row that comes in is ahead, or comes too late. -/
theorem Sound.covers_or_late (hr : r.Sound) (hstep : r.Admits step)
    (hrow : row ∈ (r.after step).rows) (hnew : row ∉ r.rows) :
    (r.after step).Covers row ∨ r.Late step row := by
  rcases (hr.after hstep).mem_rows_iff.1 hrow with hpassed | hahead
  · right
    refine ⟨hnew, hrow, ?_⟩
    cases hended : r.cursor.ended with
    | true => exact .inl (hr.ended_iff.1 hended)
    | false =>
        -- No row comes in by reading, so the place is the same; the row went behind it.
        right
        have hcursor : (r.after step).cursor = r.cursor := by
          cases step with
          | read =>
              rw [rows, hr.table_after] at hrow
              exact absurd hrow hnew
          | make element metadata => rfl
          | append p c => rfl
        obtain ⟨-, hlonger, hchild⟩ := hr.grown hstep
        rw [hcursor] at hpassed
        obtain ⟨s, hs, hmem, hold⟩ :=
          RowCursor.exists_left_of_mem_passed hr.valid hlonger hended hpassed hnew
        exact ⟨s, hs, hchild s row hmem hold⟩
  · exact .inl (.inr hahead)

/-! ### Whole readings -/

def start (f : Forest) (cursor : RowCursor) : Reading :=
  ⟨f, cursor, []⟩

theorem sound_start {f : Forest} {cursor : RowCursor} {table : NodeId} (hf : f.WellFormed)
    (hcursor : f.rowCursor table = .ok cursor) :
    (start f cursor).Sound ∧ cursor.table = table ∧ cursor.ahead f = f.rowsOf table := by
  have hnew : cursor = ⟨table, none, 0, false⟩ := by
    obtain ⟨-, -, hcursor⟩ := bind_eq_ok_iff.1 hcursor
    exact (Except.ok.inj hcursor).symm
  subst hnew
  refine ⟨⟨hf, ⟨Nat.zero_le _, fun s i h => ?_⟩, ⟨0, rfl⟩, ?_, List.nil_sublist _⟩, rfl, ?_⟩
  · cases h
  · simp [start]
  · simp [RowCursor.ahead, RowCursor.current, rowsOf]

theorem Sound.run (hr : r.Sound) (hsteps : r.AdmitsAll steps) : (r.run steps).Sound := by
  induction steps generalizing r with
  | nil => exact hr
  | cons step steps ih => exact ih (hr.after hsteps.1) hsteps.2

theorem Sound.table_run (hr : r.Sound) (hsteps : r.AdmitsAll steps) :
    (r.run steps).cursor.table = r.cursor.table := by
  induction steps generalizing r with
  | nil => rfl
  | cons step steps ih => exact (ih (hr.after hsteps.1) hsteps.2).trans (hr.table_after step)

theorem Sound.covers_run (hr : r.Sound) (hsteps : r.AdmitsAll steps) (hrow : r.Covers row) :
    (r.run steps).Covers row := by
  induction steps generalizing r with
  | nil => exact hrow
  | cons step steps ih =>
      exact ih (hr.after hsteps.1) hsteps.2 (hr.covers_after hsteps.1 hrow)

/-- Every row is taken care of, or came too late. -/
theorem Sound.covers_or_came_late (hr : r.Sound) (hall : ∀ row ∈ r.rows, r.Covers row)
    (hsteps : r.AdmitsAll steps) (hrow : row ∈ (r.run steps).rows) :
    (r.run steps).Covers row ∨ ∃ before step after, steps = before ++ step :: after ∧
      (r.run before).Late step row := by
  -- From the last step back: the row is new in one of them, and stays taken care of from then on.
  induction steps using List.reverseRecOn with
  | nil => exact .inl (hall row hrow)
  | append_singleton steps step ih =>
      obtain ⟨hbefore, hstep⟩ := admitsAll_concat.1 hsteps
      have hsound := hr.run hbefore
      rw [run_concat] at hrow ⊢
      by_cases hold : row ∈ (r.run steps).rows
      · rcases ih hbefore hold with hcovers | ⟨before, other, after, heq, hlate⟩
        · exact .inl (hsound.covers_after hstep hcovers)
        · exact .inr ⟨before, other, after ++ [step], by rw [heq]; simp, hlate⟩
      · rcases hsound.covers_or_late hstep hrow hold with hcovers | hlate
        · exact .inl hcovers
        · exact .inr ⟨steps, step, [], rfl, hlate⟩

/-- After the end there is nothing ahead. -/
theorem Sound.found_of_covers (hr : r.Sound) (hended : none ∈ r.answers) (hrow : r.Covers row) :
    row ∈ r.found := by
  rcases hrow with hrow | hrow
  · exact hrow
  · rw [RowCursor.ahead, if_pos (hr.ended_iff.2 hended)] at hrow
    exact absurd hrow List.not_mem_nil

/-- Read while children are appended, the rows of a table are answered in the order of the final
table, each once, and after the end there are only ends. By then the rows that were there from the
start are all among them, and only rows that came too late are not. -/
theorem reading_keeps_rows {f : Forest} {cursor : RowCursor} {table : NodeId} (hf : f.WellFormed)
    (hcursor : f.rowCursor table = .ok cursor) (hsteps : (start f cursor).AdmitsAll steps)
    (hrun : (start f cursor).run steps = r) :
    ∃ (found : List NodeId) (ends : Nat), r.answers = found.map some ++ List.replicate ends none ∧
      found.Nodup ∧ found.Sublist (r.forest.rowsOf table) ∧
      (r.forest.rowsOf table).Sublist (r.forest.preorder table) ∧
      (0 < ends → ∀ row ∈ f.rowsOf table, row ∈ found) ∧
      (0 < ends → ∀ row ∈ r.forest.rowsOf table, row ∉ found →
        ∃ before step after, steps = before ++ step :: after ∧
          ((start f cursor).run before).Late step row) := by
  obtain ⟨hstart, htable, hahead⟩ := sound_start hf hcursor
  have hr := hstart.run hsteps
  have htables := (hstart.table_run hsteps).trans htable
  have hcovers : ∀ row ∈ f.rowsOf table, (start f cursor).Covers row :=
    fun row hrow => .inr (hahead.symm ▸ hrow)
  have hall : ∀ row ∈ (start f cursor).rows, (start f cursor).Covers row := by
    rw [rows]
    exact htable.symm ▸ hcovers
  -- A row from the start stays taken care of; any other row is as well, or came in late.
  have hkept {row : NodeId} (hrow : row ∈ f.rowsOf table) :=
    hstart.covers_run hsteps (hcovers row hrow)
  have hlate {row : NodeId} (hrow : row ∈ ((start f cursor).run steps).rows) :=
    hstart.covers_or_came_late hall hsteps hrow
  rw [rows] at hlate
  rw [hrun] at hr htables hkept hlate
  rw [htables] at hlate
  obtain ⟨ends, hends⟩ := hr.answers_eq
  have hsublist : r.found.Sublist (r.forest.rowsOf table) := by
    rw [← htables, ← RowCursor.passed_append_ahead hr.valid]
    exact hr.sublist.trans (List.sublist_append_left _ _)
  have horder := rowsOf_sublist_preorder hr.wellFormed table
  have hended (hpos : 0 < ends) : none ∈ r.answers := by
    rw [hends]
    exact List.mem_append_right _ (List.mem_replicate.2 ⟨Nat.ne_of_gt hpos, rfl⟩)
  refine ⟨r.found, ends, hends, (hr.wellFormed.nodup_preorder table).sublist
    (hsublist.trans horder), hsublist, horder, fun hpos row hrow => ?_,
    fun hpos row hrow hleft => ?_⟩
  · exact hr.found_of_covers (hended hpos) (hkept hrow)
  · rcases hlate hrow with hcovers | hcame
    · exact absurd (hr.found_of_covers (hended hpos) hcovers) hleft
    · exact hcame

/-- A row is read, and while the body is being read it gets another one. When the header has been
begun the body gets a third row, which is left out; then a second body comes in, and the header gets
another row. After the end a row in the second body is too late as well. -/
def unevenSteps : List ReadingStep :=
  [.read, .make (.ofFields .tableRow []) [], .append 3 10, .read, .read,
    .make (.ofFields .tableRow []) [], .append 3 11,
    .make (.ofFields .tableBody []) [], .make (.ofFields .tableRow []) [], .append 12 13,
    .append 9 12, .make (.ofFields .tableRow []) [], .append 8 14, .read, .read, .read, .read,
    .make (.ofFields .tableRow []) [], .append 12 15, .read]

/-- From the uneven table six rows are read, in their order, and the two that came too late are left
out. -/
theorem reading_keeps_rows_uneven :
    (start unevenTable ⟨9, none, 0, false⟩).AdmitsAll unevenSteps ∧
      ((start unevenTable ⟨9, none, 0, false⟩).run unevenSteps).answers =
        [some 2, some 10, some 6, some 7, some 14, some 13, none, none] ∧
      [2, 10, 6, 7, 14, 13].Sublist
        (((start unevenTable ⟨9, none, 0, false⟩).run unevenSteps).forest.rowsOf 9) ∧
      ∀ row ∈ [11, 15], ∃ before step after, unevenSteps = before ++ step :: after ∧
        ((start unevenTable ⟨9, none, 0, false⟩).run before).Late step row := by
  have hsteps : (start unevenTable ⟨9, none, 0, false⟩).AdmitsAll unevenSteps := by decide
  have hanswers : ((start unevenTable ⟨9, none, 0, false⟩).run unevenSteps).answers =
      [some 2, some 10, some 6, some 7, some 14, some 13, none, none] := by decide
  have hrows : ((start unevenTable ⟨9, none, 0, false⟩).run unevenSteps).forest.rowsOf 9 =
      [2, 10, 11, 6, 7, 14, 13, 15] := by decide
  have hcursor : unevenTable.rowCursor 9 = .ok ⟨9, none, 0, false⟩ := by rfl
  obtain ⟨found, ends, hends, -, hsublist, -, -, hlate⟩ :=
    reading_keeps_rows wellFormed_unevenTable hcursor hsteps rfl
  rw [hanswers] at hends
  have hfound : found = [2, 10, 6, 7, 14, 13] := by
    simpa using (congrArg (List.filterMap id) hends).symm
  have hpos : 0 < ends := by
    refine Nat.pos_of_ne_zero fun hzero => ?_
    simp [hfound, hzero] at hends
  refine ⟨hsteps, hanswers, ?_, fun row hrow => ?_⟩
  · exact hfound ▸ hsublist
  · have hlost : ∀ row ∈ [11, 15], row ∈ [2, 10, 11, 6, 7, 14, 13, 15] ∧
        row ∉ [2, 10, 6, 7, 14, 13] := by decide
    obtain ⟨hmem, hleft⟩ := hlost row hrow
    exact hlate hpos row (hrows ▸ hmem) (hfound ▸ hleft)

end Reading

end MarkdownTree.Forest
