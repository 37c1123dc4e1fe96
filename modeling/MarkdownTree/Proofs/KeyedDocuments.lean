import MarkdownTree.Proofs.EqualValues
import MarkdownTree.Toml.Reader

/-!
What TOML documents hold. A statement changes the tables in one of three ways: it adds a value that
was read, opens a table, or appends one to a list; so what these three keep holds of all documents.
Main statement: each name occurs once, in the tables of a document and wherever a value of it holds
entries.
-/

namespace MarkdownTree

namespace Entries

variable {entries : Entries} {name : String} {v : Value}

theorem nodup_names_put (h : entries.names.Nodup) : (entries.put name v).names.Nodup := by
  rw [names_put]
  split
  · exact h
  · next hnew =>
    refine List.nodup_append'.2 ⟨h, List.nodup_singleton name, ?_⟩
    intro other hother heq
    obtain rfl := List.mem_singleton.1 heq
    refine hnew (List.any_eq_true.2 ?_)
    obtain ⟨entry, hentry, rfl⟩ := List.mem_map.1 hother
    exact ⟨entry, hentry, beq_self_eq_true _⟩

/-- What holds of the values of entries holds of them after a further value was put. -/
theorem forall_mem_put {P : Value → Prop} (h : ∀ entry ∈ entries, P entry.2) (hv : P v) :
    ∀ entry ∈ entries.put name v, P entry.2 := by
  induction entries with
  | nil => simpa [put] using hv
  | cons entry rest ih =>
      obtain ⟨key, old⟩ := entry
      rw [List.forall_mem_cons] at h
      rw [put]
      split
      · exact List.forall_mem_cons.2 ⟨hv, h.2⟩
      · exact List.forall_mem_cons.2 ⟨h.1, ih h.2⟩

theorem isKeyed_iff : Value.isKeyedEntries entries = true ↔
    entries.names.Nodup ∧ ∀ entry ∈ entries, entry.2.isKeyed = true := by
  refine ⟨fun h => ⟨nodup_names_of_isKeyed h, fun _ => Value.isKeyed_of_mem h⟩, fun h => ?_⟩
  induction entries with
  | nil => rfl
  | cons entry rest ih =>
      obtain ⟨key, v⟩ := entry
      obtain ⟨hnames, hvalues⟩ := h
      obtain ⟨hkey, hnodup⟩ := List.nodup_cons.1 hnames
      rw [List.forall_mem_cons] at hvalues
      have hnew : has rest key = false := by
        refine List.any_eq_false.2 fun other hother heq => hkey ?_
        exact List.mem_map.2 ⟨other, hother, beq_iff_eq.1 heq⟩
      rw [Value.isKeyedEntries, hnew, hvalues.1, ih ⟨hnodup, hvalues.2⟩]
      rfl

theorem isKeyed_put (h : Value.isKeyedEntries entries = true) (hv : v.isKeyed = true) :
    Value.isKeyedEntries (entries.put name v) = true := by
  rw [isKeyed_iff] at h ⊢
  exact ⟨nodup_names_put h.1, forall_mem_put (P := fun v => v.isKeyed = true) h.2 hv⟩

theorem isKeyed_of_get? (h : Value.isKeyedEntries entries = true)
    (hv : entries.get? name = some v) : v.isKeyed = true :=
  Value.isKeyed_of_mem h (mem_of_get?_eq hv)

end Entries

theorem Value.isKeyedList_iff {items : List Value} :
    isKeyedList items = true ↔ ∀ v ∈ items, v.isKeyed = true := by
  induction items with
  | nil => simp [isKeyedList]
  | cons v items ih => rw [isKeyedList, Bool.and_eq_true, ih, List.forall_mem_cons]

theorem Value.isKeyed_of_not_container {v : Value} (h : v.isContainer = false) :
    v.isKeyed = true := by
  cases v <;> first | rfl | cases h

namespace Toml

variable {table changed entries : Entries} {s rest : List Char} {v : Value} {p q : Progress}
  {fuel : Nat}

theorem exists_of_map_eq_ok {α β ε : Type} {f : α → β} {read : Except ε α} {b : β}
    (h : read.map f = .ok b) : ∃ a, read = .ok a ∧ f a = b := by
  cases read with
  | error e => cases h
  | ok a => cases h; exact ⟨a, rfl, rfl⟩

theorem not_container_of_number? (h : number? s = some (v, rest)) : v.isContainer = false := by
  obtain hbased | ⟨-, hother⟩ := Option.or_eq_some_iff.mp h
  · unfold basedInteger? at hbased
    split at hbased
    · obtain ⟨_, -, hdigits⟩ := Option.bind_eq_some_iff.mp hbased
      obtain ⟨_, -, hv⟩ := Option.bind_eq_some_iff.mp hdigits
      cases hv
      rfl
    · cases hbased
  · obtain hdecimal | ⟨-, hspecial⟩ := Option.or_eq_some_iff.mp hother
    · obtain ⟨_, -, hwhole⟩ := Option.bind_eq_some_iff.mp hdecimal
      simp only at hwhole
      split at hwhole
      · cases hwhole
        rfl
      · obtain ⟨_, -, hv⟩ := Option.bind_eq_some_iff.mp hwhole
        cases hv
        rfl
    · unfold special? at hspecial
      simp only at hspecial
      split at hspecial <;> cases hspecial <;> rfl

/-- A value that is read and then wrapped is of the kind that the wrapping gives. -/
theorem of_read_map {α : Type} (P : Value → Prop) {read : Reads α} (wrap : α → Value)
    (hwrap : ∀ a rest, read = .ok (a, rest) → P (wrap a))
    (h : read.map (fun r => (wrap r.1, r.2)) = .ok (v, rest)) : P v := by
  obtain ⟨⟨a, after⟩, hread, heq⟩ := exists_of_map_eq_ok h
  cases heq
  exact hwrap a _ hread

theorem not_container_of_readSimple (h : readSimple s = .ok (v, rest)) : v.isContainer = false := by
  unfold readSimple at h
  split at h
  · exact of_read_map (fun v => v.isContainer = false) (fun t => .str (String.ofList t))
      (fun _ _ _ => rfl) h
  · split at h
    · cases h
      rfl
    · cases h
      rfl
    · split at h
      · exact of_read_map (fun v => v.isContainer = false) .moment (fun _ _ _ => rfl) h
      · split at h
        · cases h
        · next hnumber =>
          cases h
          exact not_container_of_number? hnumber
        · cases h

/-- What a statement does to the table of a key. -/
inductive Change : (Entries → Option Entries) → Prop
  | add (part : String) {fuel : Nat} {s rest : List Char} {v : Value}
      (h : readValue fuel s = .ok (v, rest)) : Change (addEntry part v)
  | declare : Change some
  | append (part : String) : Change (Toml.appendTable part)

/-- A statement changes the table of one key, if any. -/
theorem tables_of_readStatement (h : readStatement p s = .ok (q, rest)) :
    q.tables = p.tables ∨
      ∃ change key, Change change ∧ changeTable true change key p.tables = some q.tables := by
  unfold readStatement at h
  split at h
  · cases h
    exact .inl rfl
  · unfold readAppend at h
    split at h
    · cases h
    · split at h <;> cases h
      next happend =>
        unfold Progress.appendTable at happend
        simp only at happend
        split at happend
        · cases happend
        · split at happend <;> cases happend
          next htables => exact .inr ⟨_, _, .append _, htables⟩
  · unfold readDeclaration at h
    split at h
    · cases h
    · split at h <;> cases h
      next hdeclare =>
        unfold Progress.declareTable at hdeclare
        split at hdeclare
        · cases hdeclare
        · split at hdeclare <;> cases hdeclare
          next htables => exact .inr ⟨_, _, .declare, htables⟩
  · split at h
    · unfold readAssignment at h
      split at h
      · cases h
      · split at h
        · cases h
        · next hvalue =>
          obtain ⟨_, hadd, heq⟩ := exists_of_map_eq_ok h
          cases heq
          unfold Progress.addValue at hadd
          simp only at hadd
          split at hadd
          · cases hadd
          · split at hadd
            · cases hadd
            · split at hadd <;> cases hadd
              next htables => exact .inr ⟨_, _, .add _ hvalue, htables⟩
    · cases h
  · cases h
    exact .inl rfl

/-- What the changes of tables keep holds of every document. -/
theorem tables_induction {P : Entries → Prop} {text : String} (hread : read text = .ok entries)
    (nil : P [])
    (step : ∀ {change key table changed}, Change change → P table →
      changeTable true change key table = some changed → P changed) : P entries := by
  have hlines (fuel : Nat) : ∀ {p q : Progress} {s : List Char}, P p.tables →
      readLines fuel p s = .ok q → P q.tables := by
    induction fuel with
    | zero =>
        intro p q s hp h
        cases h
        exact hp
    | succ fuel ih =>
        intro p q s hp h
        unfold readLines at h
        split at h
        · cases h
          exact hp
        · exact ih hp h
        · split at h
          · cases h
          · next reached _ hstatement =>
            have hnext : P reached.tables := by
              rcases tables_of_readStatement hstatement with hsame | ⟨_, _, hchange, htables⟩
              · rwa [hsame]
              · exact step hchange hp htables
            split at h
            · cases h
            · cases h
              exact hnext
            · exact ih hnext h
            · cases h
  obtain ⟨p, hp, rfl⟩ := exists_of_map_eq_ok hread
  exact hlines _ (p := .start) nil hp

/-- A change of a table after which names occur once if they did before. -/
def KeepsNames (change : Entries → Option Entries) : Prop :=
  ∀ table changed, Value.isKeyedEntries table = true → change table = some changed →
    Value.isKeyedEntries changed = true

theorem keepsNames_addEntry (part : String) (hv : v.isKeyed = true) :
    KeepsNames (addEntry part v) := by
  intro table changed h hnew
  unfold addEntry at hnew
  split at hnew <;> cases hnew
  exact Entries.isKeyed_put h hv

theorem isKeyed_changeLast {change : Entries → Option Entries} {items new : List Value}
    (hchange : KeepsNames change)
    (h : ∀ v ∈ items, v.isKeyed = true) (hnew : changeLast change items = some new) :
    ∀ v ∈ new, v.isKeyed = true := by
  induction items generalizing new with
  | nil => cases hnew
  | cons item items ih =>
      rw [List.forall_mem_cons] at h
      unfold changeLast at hnew
      split at hnew
      · cases hnew
      · next heq =>
        obtain ⟨rfl, -⟩ := List.cons.inj heq
        obtain ⟨changed, hchanged, rfl⟩ := Option.map_eq_some_iff.mp hnew
        exact List.forall_mem_singleton.2 (hchange _ _ h.1 hchanged)
      · cases hnew
      · next heq =>
        obtain ⟨rfl, rfl⟩ := List.cons.inj heq
        obtain ⟨rest, hrest, rfl⟩ := Option.map_eq_some_iff.mp hnew
        exact List.forall_mem_cons.2 ⟨h.1, ih h.2 hrest⟩

/-- A change of the table of a key keeps names apart if it does so in that table. -/
theorem keepsNames_changeTable {throughLists : Bool} {change : Entries → Option Entries}
    {key : Key} (hchange : KeepsNames change) :
    KeepsNames (changeTable throughLists change key) := by
  induction key with
  | nil => exact hchange
  | cons part key ih =>
      intro table changed h hnew
      simp only [changeTable] at hnew
      split at hnew
      · obtain ⟨inner, hinner, rfl⟩ := Option.map_eq_some_iff.mp hnew
        exact Entries.isKeyed_put h (ih _ _ rfl hinner)
      · next hget =>
        obtain ⟨inner, hinner, rfl⟩ := Option.map_eq_some_iff.mp hnew
        exact Entries.isKeyed_put h (ih _ _ (Entries.isKeyed_of_get? h hget) hinner)
      · next items hget =>
        split at hnew
        · obtain ⟨new, hlast, rfl⟩ := Option.map_eq_some_iff.mp hnew
          have hitems : Value.isKeyedList items = true := Entries.isKeyed_of_get? h hget
          refine Entries.isKeyed_put h (Value.isKeyedList_iff.2 ?_)
          exact isKeyed_changeLast ih (Value.isKeyedList_iff.1 hitems) hlast
        · cases hnew
      · cases hnew

theorem keepsNames_appendTable (part : String) : KeepsNames (Toml.appendTable part) := by
  intro table changed h hnew
  unfold Toml.appendTable at hnew
  split at hnew
  · cases hnew
    exact Entries.isKeyed_put h rfl
  · next items hget =>
    cases hnew
    have hitems : Value.isKeyedList items = true := Entries.isKeyed_of_get? h hget
    refine Entries.isKeyed_put h (Value.isKeyedList_iff.2 ?_)
    exact List.forall_mem_append.2
      ⟨Value.isKeyedList_iff.1 hitems, List.forall_mem_singleton.2 rfl⟩
  · cases hnew

theorem isKeyed_addInline {marks : Marks} {key : Key} (h : Value.isKeyedEntries table = true)
    (hv : v.isKeyed = true) (hnew : addInline table marks key v rest = .ok changed) :
    Value.isKeyedEntries changed = true := by
  unfold addInline at hnew
  simp only at hnew
  split at hnew
  · cases hnew
  · split at hnew
    · cases hnew
    · split at hnew <;> cases hnew
      next htable => exact keepsNames_changeTable (keepsNames_addEntry _ hv) _ _ h htable

/-- What the readers of values give with some fuel names things once. -/
structure KeyedReads (fuel : Nat) : Prop where
  value (s : List Char) (v : Value) (rest : List Char) (h : readValue fuel s = .ok (v, rest)) :
    v.isKeyed = true
  items (s : List Char) (items : List Value) (rest : List Char)
    (h : readItems fuel s = .ok (items, rest)) : ∀ v ∈ items, v.isKeyed = true
  pairs (table : Entries) (marks : Marks) (s : List Char) (changed : Entries) (rest : List Char)
    (htable : Value.isKeyedEntries table = true)
    (h : readPairs fuel table marks s = .ok (changed, rest)) : Value.isKeyedEntries changed = true

section
variable (ih : KeyedReads fuel)

include ih

theorem KeyedReads.readValue_succ (h : readValue (fuel + 1) s = .ok (v, rest)) :
    v.isKeyed = true := by
  unfold readValue at h
  split at h
  · cases h
  · next heq =>
    cases heq
    split at h
    · cases h
    · cases h
      rfl
    · refine of_read_map (fun v => v.isKeyed = true) Value.list (fun items rest hread => ?_) h
      exact Value.isKeyedList_iff.2 (ih.items _ _ _ hread)
  · next heq =>
    cases heq
    split at h
    · cases h
      rfl
    · exact of_read_map (fun v => v.isKeyed = true) Value.mapping
        (fun table rest hread => ih.pairs _ _ _ _ _ rfl hread) h
  · exact Value.isKeyed_of_not_container (not_container_of_readSimple h)

theorem KeyedReads.readItems_succ {items : List Value}
    (h : readItems (fuel + 1) s = .ok (items, rest)) : ∀ v ∈ items, v.isKeyed = true := by
  unfold readItems at h
  split at h
  · cases h
  · next hread =>
    have hv := ih.value _ _ _ hread
    split at h
    · cases h
    · cases h
      exact List.forall_mem_singleton.2 hv
    · split at h
      · cases h
      · cases h
        exact List.forall_mem_singleton.2 hv
      · obtain ⟨⟨more, after⟩, hmore, heq⟩ := exists_of_map_eq_ok h
        cases heq
        exact List.forall_mem_cons.2 ⟨hv, ih.items _ _ _ hmore⟩
    · cases h

theorem KeyedReads.readPairs_succ {marks : Marks} (htable : Value.isKeyedEntries table = true)
    (h : readPairs (fuel + 1) table marks s = .ok (changed, rest)) :
    Value.isKeyedEntries changed = true := by
  unfold readPairs at h
  split at h
  · cases h
  · split at h
    · cases h
    · next hread =>
      split at h
      · cases h
      · next hadd =>
        have hnext := isKeyed_addInline htable (ih.value _ _ _ hread) hadd
        split at h
        · cases h
          exact hnext
        · exact ih.pairs _ _ _ _ _ hnext h
        · cases h

end

theorem keyedReads (fuel : Nat) : KeyedReads fuel := by
  induction fuel with
  | zero =>
      refine ⟨fun s v rest h => ?_, fun s items rest h => ?_, fun _ _ s changed rest _ h => ?_⟩
      · unfold readValue at h
        cases h
      · cases h
      · cases h
  | succ fuel ih =>
      exact ⟨fun _ _ _ => ih.readValue_succ, fun _ _ _ => ih.readItems_succ,
        fun _ _ _ _ _ => ih.readPairs_succ⟩

/-- A TOML document names things once, wherever it holds entries. -/
theorem isKeyed_read {text : String} (h : read text = .ok entries) :
    Value.isKeyedEntries entries = true := by
  refine tables_induction (P := fun table => Value.isKeyedEntries table = true) h rfl
    fun hchange hkeyed hnew => keepsNames_changeTable ?_ _ _ hkeyed hnew
  cases hchange with
  | add part hread => exact keepsNames_addEntry part ((keyedReads _).value _ _ _ hread)
  | declare =>
      intro table changed htable hnew
      cases hnew
      exact htable
  | append part => exact keepsNames_appendTable part

end Toml

end MarkdownTree
