import MarkdownTree.Proofs.EqualTrees
import MarkdownTree.Proofs.PanelContent
import MarkdownTree.Proofs.Replacing

/-!
Parts of forests under other numbers. A part of one forest is found again in another one: its nodes
have other numbers there, and what leads from one of them to the next leads there, too. Whatever is
read at nodes of the part comes to the same in both forests, up to the numbers.
-/

namespace MarkdownTree

namespace Value

mutual

/-- The text of a value that refers to no nodes does not depend on how nodes are shown. -/
theorem text_of_noNodes (first second : NodeId → String) :
    ∀ v : Value, v.nodes = [] → v.text first = v.text second
  | .node id, h => absurd h (List.cons_ne_nil id [])
  | .list items, h => by
      rw [text, text, textList_of_noNodes first second items h]
  | .mapping entries, h => by
      rw [text, text, textEntries_of_noNodes first second ": " true entries h]
  | .record type fields, h => by
      rw [text, text, textEntries_of_noNodes first second "=" false fields h]
  | .null, _ | .bool _, _ | .int _, _ | .float _, _ | .str _, _ | .moment _, _ => rfl

theorem textList_of_noNodes (first second : NodeId → String) :
    ∀ items : List Value, nodesList items = [] → textList first items = textList second items
  | [], _ => rfl
  | v :: rest, h => by
      rw [nodesList, List.append_eq_nil_iff] at h
      rw [textList, textList, text_of_noNodes first second v h.1,
        textList_of_noNodes first second rest h.2]

theorem textEntries_of_noNodes (first second : NodeId → String) (sep : String) (quoteNames : Bool) :
    ∀ entries : List (String × Value), nodesEntries entries = [] →
      textEntries first sep quoteNames entries = textEntries second sep quoteNames entries
  | [], _ => rfl
  | (name, v) :: rest, h => by
      rw [nodesEntries, List.append_eq_nil_iff] at h
      rw [textEntries, textEntries, text_of_noNodes first second v h.1,
        textEntries_of_noNodes first second sep quoteNames rest h.2]

end

theorem display_of_noNodes {first second : NodeId → String} {v : Value} (h : v.nodes = []) :
    v.display first = v.display second := by
  cases v with
  | str s => rfl
  | _ => exact text_of_noNodes first second _ h

theorem nodes_of_get? {entries : Entries} {name : String} {v : Value}
    (hentries : nodesEntries entries = []) (h : entries.get? name = some v) : v.nodes = [] := by
  refine List.eq_nil_iff_forall_not_mem.2 fun n hn => ?_
  have hmem := Forest.mem_nodesEntries_of_get? h hn
  rw [hentries] at hmem
  exact List.not_mem_nil hmem

end Value

namespace Forest

variable {T : NodeId → Prop} {r : NodeId → NodeId} {f g : Forest} {a c m n p : NodeId}
  {nodes before after : List NodeId}

/-- The nodes of `f` from a number on are the same in `g`. -/
structure KeepsFrom (bound : Nat) (f g : Forest) : Prop where
  size_le : f.size ≤ g.size
  children_eq (n : NodeId) (hle : bound ≤ n) (hlt : n < f.size) : g.children n = f.children n
  parent?_eq (n : NodeId) (hle : bound ≤ n) (hlt : n < f.size) : g.parent? n = f.parent? n
  element_eq (n : NodeId) (hle : bound ≤ n) (hlt : n < f.size) : g.element n = f.element n
  metadata_eq (n : NodeId) (hle : bound ≤ n) (hlt : n < f.size) : g.metadata n = f.metadata n

/-- The element and the metadata of a node refer to no nodes and are equal to themselves. -/
structure PlainAt (f : Forest) (n : NodeId) : Prop where
  noNodes : Value.nodesEntries (f.element n).fields = []
  keyed : Value.isKeyedEntries (f.element n).fields = true
  metadata : (f.metadata n).Plain

/-- A node of the part `T` that exists. -/
def Has (T : NodeId → Prop) (f : Forest) (n : NodeId) : Prop :=
  T n ∧ n < f.size

theorem Has.mono (hn : f.Has T n) (hle : f.size ≤ g.size) : g.Has T n :=
  ⟨hn.1, Nat.lt_of_lt_of_le hn.2 hle⟩

/-- The part `T` of `f` is found in `g` under the numbers that `r` gives to its nodes. It is closed
under links, and its data are plain. -/
structure Renamed (T : NodeId → Prop) (r : NodeId → NodeId) (f g : Forest) : Prop where
  source : f.WellFormed
  image : g.WellFormed
  lt_size (n : NodeId) (hn : f.Has T n) : r n < g.size
  children_eq (n : NodeId) (hn : f.Has T n) : g.children (r n) = (f.children n).map r
  parent?_eq (n : NodeId) (hn : f.Has T n) : g.parent? (r n) = (f.parent? n).map r
  element_eq (n : NodeId) (hn : f.Has T n) : g.element (r n) = f.element n
  metadata_eq (n : NodeId) (hn : f.Has T n) : g.metadata (r n) = f.metadata n
  plain (n : NodeId) (hn : f.Has T n) : f.PlainAt n
  child (n c : NodeId) (hn : f.Has T n) (hc : c ∈ f.children n) : T c
  parent (n p : NodeId) (hn : f.Has T n) (hp : f.parent? n = some p) : T p

/-- What `Renamed` says of a node. -/
structure RenamedAt (T : NodeId → Prop) (r : NodeId → NodeId) (f g : Forest) (n : NodeId) :
    Prop where
  lt_size : r n < g.size
  children_eq : g.children (r n) = (f.children n).map r
  parent?_eq : g.parent? (r n) = (f.parent? n).map r
  element_eq : g.element (r n) = f.element n
  metadata_eq : g.metadata (r n) = f.metadata n
  plain : f.PlainAt n
  child (c : NodeId) (hc : c ∈ f.children n) : T c
  parent (p : NodeId) (hp : f.parent? n = some p) : T p

theorem renamed_of_forall (hf : f.WellFormed) (hg : g.WellFormed)
    (h : ∀ n, f.Has T n → RenamedAt T r f g n) : Renamed T r f g where
  source := hf
  image := hg
  lt_size n hn := (h n hn).lt_size
  children_eq n hn := (h n hn).children_eq
  parent?_eq n hn := (h n hn).parent?_eq
  element_eq n hn := (h n hn).element_eq
  metadata_eq n hn := (h n hn).metadata_eq
  plain n hn := (h n hn).plain
  child n c hn := (h n hn).child c
  parent n p hn := (h n hn).parent p

theorem beq_renamed (hr : Function.Injective r) (m n : NodeId) : (r m == r n) = (m == n) := by
  rw [Bool.eq_iff_iff, beq_iff_eq, beq_iff_eq, hr.eq_iff]

theorem indexOf_map (hr : Function.Injective r) (nodes : List NodeId) (n : NodeId) :
    indexOf (nodes.map r) (r n) = indexOf nodes n := by
  have hsame : ((· == r n) ∘ r) = (· == n) := by
    funext m
    exact beq_renamed hr m n
  rw [indexOf, indexOf, List.findIdx?_map, hsame]

theorem without_map (hr : Function.Injective r) (list nodes : List NodeId) :
    without (list.map r) (nodes.map r) = (without list nodes).map r := by
  rw [without, without, List.filter_map]
  congr 1
  refine List.filter_congr fun m _ => ?_
  simp [List.mem_map, hr.eq_iff]

namespace Renamed

section
variable (h : Renamed T r f g)

include h

theorem kind_eq (hn : f.Has T n) : g.kind (r n) = f.kind n := by
  rw [kind, kind, h.element_eq n hn]

theorem has_of_mem (hn : f.Has T n) (hc : c ∈ f.children n) : f.Has T c :=
  ⟨h.child n c hn hc, h.source.lt_size_of_mem hc⟩

theorem has_of_parent? (hn : f.Has T n) (hp : f.parent? n = some p) : f.Has T p :=
  ⟨h.parent n p hn hp, lt_size_of_mem_children (h.source.mem_of_parent? hp)⟩

theorem has_of_mem_preorder (hn : f.Has T n) (hm : f.AtOrAbove n m) : f.Has T m := by
  rcases hm with rfl | hm
  · exact hn
  · induction hm with
    | parent hp => exact h.has_of_mem hn (h.source.mem_of_parent? hp)
    | above hp _ ih => exact h.has_of_mem ih (h.source.mem_of_parent? hp)

theorem plainText_eq (hn : f.Has T n) : g.plainText (r n) = f.plainText n := by
  induction n using h.source.down_induction with
  | h n ih =>
      have hmap : (f.children n).map (g.plainText ∘ r) = (f.children n).map f.plainText :=
        List.map_congr_left fun c hc => ih c hc (h.has_of_mem hn hc)
      rw [h.image.plainText_eq, h.source.plainText_eq, h.children_eq n hn, h.element_eq n hn,
        List.map_map, hmap]

end

section
variable (hr : Function.Injective r) (h : Renamed T r f g)

include hr h

theorem ancestor_image {x y : NodeId} (hxy : g.Ancestor x y) (hn : f.Has T n) (hx : x = r a)
    (hy : y = r n) : f.Ancestor a n := by
  induction hxy generalizing n with
  | parent hp =>
      rw [hy, h.parent?_eq n hn, hx, Option.map_eq_some_iff] at hp
      obtain ⟨p, hp, heq⟩ := hp
      exact .parent (hr heq ▸ hp)
  | above hp _ ih =>
      rw [hy, h.parent?_eq n hn, Option.map_eq_some_iff] at hp
      obtain ⟨p, hp, heq⟩ := hp
      exact .above hp (ih (h.has_of_parent? hn hp) heq.symm)

omit hr in
theorem ancestor_renamed (han : f.Ancestor a n) (hn : f.Has T n) : g.Ancestor (r a) (r n) := by
  induction han with
  | parent hp => exact .parent (by rw [h.parent?_eq _ hn, hp, Option.map_some])
  | above hp _ ih =>
      refine .above ?_ (ih (h.has_of_parent? hn hp))
      rw [h.parent?_eq _ hn, hp, Option.map_some]

theorem atOrAbove_iff (hn : f.Has T n) : g.AtOrAbove (r a) (r n) ↔ f.AtOrAbove a n := by
  constructor
  · rintro (heq | habove)
    · exact Or.inl (hr heq)
    · exact Or.inr (h.ancestor_image hr habove hn rfl rfl)
  · rintro (rfl | habove)
    · exact .refl g _
    · exact Or.inr (h.ancestor_renamed habove hn)

theorem laterSiblings_eq (hn : f.Has T n) :
    g.laterSiblings (r n) = (f.laterSiblings n).map (List.map r) := by
  rw [laterSiblings, laterSiblings, h.parent?_eq n hn]
  cases hp : f.parent? n with
  | none => rfl
  | some p =>
      simp only [Option.map_some, h.children_eq p (h.has_of_parent? hn hp), indexOf_map hr,
        ← List.map_drop]
      cases indexOf (f.children p) n <;> rfl

theorem previousSibling_eq (hn : f.Has T n) :
    g.previousSibling (r n) = (f.previousSibling n).map (Option.map r) := by
  rw [previousSibling, previousSibling, h.parent?_eq n hn]
  cases hp : f.parent? n with
  | none => rfl
  | some p =>
      simp only [Option.map_some, h.children_eq p (h.has_of_parent? hn hp), indexOf_map hr,
        List.getElem?_map]
      cases indexOf (f.children p) n with
      | error e => rfl
      | ok i =>
          simp only [bind, Except.bind, Except.map]
          split <;> rfl

end

/-- Later siblings are siblings, so they belong to the part. -/
theorem has_of_laterSiblings (h : Renamed T r f g) (hn : f.Has T n)
    (hlater : f.laterSiblings n = .ok nodes) (hm : m ∈ nodes) : f.Has T m := by
  obtain ⟨p, hp, hm⟩ := Tabs.Interleaved.mem_children_of_laterSiblings hlater hm
  exact h.has_of_mem (h.has_of_parent? hn hp) hm

/-- Two trees that stand for the same tree are equal, if the one from the earlier forest is still
there in the later one. -/
theorem agreeWithin {r' : NodeId → NodeId} {g' : Forest} {bound : Nat} (h : Renamed T r f g)
    (h' : Renamed T r' f g') (hkeeps : KeepsFrom bound g g') (hle : ∀ n, f.Has T n → bound ≤ r n)
    (hn : f.Has T n) (depth : Nat) : g'.agreeWithin true depth (r n) (r' n) = true := by
  induction depth generalizing n with
  | zero => rfl
  | succ depth ih =>
      have hlt := h.lt_size n hn
      have hplain := h.plain n hn
      have hlists : listsAgree (g'.agreeWithin true depth) ((f.children n).map r)
          ((f.children n).map r') = true := by
        refine listsAgree_of_forall₂ ?_
        rw [List.forall₂_map_left_iff, List.forall₂_map_right_iff, List.forall₂_same]
        exact fun c hc => ih (h.has_of_mem hn hc)
      rw [Forest.agreeWithin, hkeeps.children_eq _ (hle n hn) hlt,
        hkeeps.element_eq _ (hle n hn) hlt,
        hkeeps.metadata_eq _ (hle n hn) hlt, h.element_eq n hn, h'.element_eq n hn,
        h.metadata_eq n hn, h'.metadata_eq n hn, h.children_eq n hn, h'.children_eq n hn, hlists,
        metadataAgree_self hplain.metadata, Element.agrees_self hplain.keyed]
      rfl

end Renamed

end Forest

namespace Tabs

open Forest

variable {T : NodeId → Prop} {r : NodeId → NodeId} {f g : Forest} {c n : NodeId}
  {category : Value} {grouped : Bool} {list : List NodeId}

def Split.rename (r : NodeId → NodeId) (s : Split) : Split :=
  { s with panels := s.panels.map (List.map r), current := s.current.map r }

def renameTabs (r : NodeId → NodeId) (tabs : List String × List (List NodeId)) :
    List String × List (List NodeId) :=
  (tabs.1, tabs.2.map (List.map r))

section
variable (h : Renamed T r f g)

include h

theorem isTabs_renamed (category : Value) (hn : f.Has T n) :
    isTabs g category (r n) = isTabs f category n := by
  rw [isTabs, isTabs, h.kind_eq hn, h.element_eq n hn]

theorem isHeading_renamed (hn : f.Has T n) : isHeading g (r n) = isHeading f n := by
  rw [isHeading, isHeading, h.kind_eq hn]

theorem label_renamed (hn : f.Has T n) : label g (r n) = label f n := by
  rw [label, label, h.plainText_eq hn]

theorem Split.add_renamed (s : Split) (hc : f.Has T c) :
    (s.rename r).add g (r c) = (s.add f c).map (Split.rename r) := by
  rw [Split.add, Split.add, isHeading_renamed h hc, label_renamed h hc]
  by_cases hheading : isHeading f c = true
  · rw [if_pos hheading, if_pos hheading]
    cases label f c with
    | error e => rfl
    | ok l =>
        by_cases hstarted : s.started = true <;>
          simp [hstarted, Split.rename, bind, Except.bind, Except.map]
  · rw [if_neg hheading, if_neg hheading]
    simp [Split.rename, Except.map]

theorem Split.addAll_renamed (s : Split) (hlist : ∀ c ∈ list, f.Has T c) :
    (s.rename r).addAll g (list.map r) = (s.addAll f list).map (Split.rename r) := by
  induction list generalizing s with
  | nil => rfl
  | cons c list ih =>
      rw [List.map_cons, Split.addAll, Split.addAll, s.add_renamed h (hlist c List.mem_cons_self)]
      cases s.add f c with
      | error e => rfl
      | ok t => exact ih t fun d hd => hlist d (List.mem_cons_of_mem c hd)

theorem panels?_renamed (hn : f.Has T n) :
    panels? g (r n) = (panels? f n).map (Option.map (renameTabs r)) := by
  have hall := Split.addAll_renamed h ⟨[], [], [], false⟩ fun c hc => h.has_of_mem hn hc
  have hempty : Split.rename r ⟨[], [], [], false⟩ = ⟨[], [], [], false⟩ := rfl
  rw [hempty] at hall
  rw [panels?, panels?, h.children_eq n hn, hall]
  cases Split.addAll f ⟨[], [], [], false⟩ (f.children n) with
  | error e => rfl
  | ok s =>
      simp only [Except.map, bind, Except.bind, Split.rename]
      split <;> simp [renameTabs]

namespace Interleaved

theorem isDivided_renamed (category : Value) (hn : f.Has T n) :
    isDivided g category (r n) = isDivided f category n := by
  rw [isDivided, isDivided, isTabs_renamed h category hn, panels?_renamed h hn]
  split
  · rcases panels? f n with e | _ | _ <;> rfl
  · rfl

theorem following_renamed (category : Value) (hlist : ∀ n ∈ list, f.Has T n) :
    following g category (list.map r) = (following f category list).map (List.map r) := by
  induction list with
  | nil => rfl
  | cons n list ih =>
      have hrest := ih fun m hm => hlist m (List.mem_cons_of_mem n hm)
      rw [List.map_cons, following, following,
        isDivided_renamed h category (hlist n List.mem_cons_self), hrest]
      rcases isDivided f category n with e | _ | _
      · rfl
      · rfl
      · rcases following f category list with e | rest <;> rfl

theorem run_renamed (hr : Function.Injective r) (category : Value) (grouped : Bool)
    (hn : f.Has T n) :
    run g category grouped (r n) = (run f category grouped n).map (List.map r) := by
  cases grouped with
  | false => rfl
  | true =>
      rw [run, run, if_pos rfl, if_pos rfl, h.laterSiblings_eq hr hn]
      rcases hlater : f.laterSiblings n with e | siblings
      · rfl
      · have hrest := following_renamed h category fun m hm => h.has_of_laterSiblings hn hlater hm
        simp only [Except.map, bind, Except.bind, hrest]
        rcases following f category siblings with e | rest <;> rfl

theorem gather_renamed (hlist : ∀ n ∈ list, f.Has T n) :
    gather g (list.map r) = (gather f list).map (renameTabs r) := by
  induction list with
  | nil => rfl
  | cons n list ih =>
      have hrest := ih fun m hm => hlist m (List.mem_cons_of_mem n hm)
      rw [List.map_cons, gather, gather, panels?_renamed h (hlist n List.mem_cons_self), hrest]
      rcases panels? f n with e | own
      · rfl
      · rcases gather f list with e | ⟨labels, panels⟩
        · rfl
        · rcases own with _ | ⟨ls, ps⟩
          · rfl
          · simp [renameTabs, Except.map, bind, Except.bind]

theorem unchangedMessage_renamed (hn : f.Has T n) :
    unchangedMessage g (r n) = unchangedMessage f n := by
  have htitle : (((f.element n).get? "title").getD .null).display g.shortText =
      (((f.element n).get? "title").getD .null).display f.shortText := by
    refine Value.display_of_noNodes ?_
    cases hget : (f.element n).get? "title" with
    | none => rfl
    | some v => exact Value.nodes_of_get? (h.plain n hn).noNodes hget
  rw [unchangedMessage, unchangedMessage, h.element_eq n hn, htitle]

end Interleaved

end

end Tabs

end MarkdownTree
