import Mathlib.Data.List.Forall2
import MarkdownTree.Proofs.Expansion

/-!
Expansions of whole lists. The groups of a list hold its nodes in order, and the expansion is made
of those of the groups. The bound on its depth never cuts anything off, and where all texts are
texts the expansion never fails.
-/

namespace MarkdownTree.Tabs

open Forest

variable {f : Forest} {category : Value} {grouped : Bool} {depth depth' : Nat} {n root : NodeId}
  {list members : List NodeId} {pieces : List Piece} {α : Type}

def Group.nodes : Group → List NodeId
  | .kept n => [n]
  | .run members => members

/-- A group keeps a node that is not divided, or is a run of divided ones. -/
def Group.Proper (f : Forest) (category : Value) : Group → Prop
  | .kept n => divided f category n = false
  | .run members => ∀ k ∈ members, divided f category k = true

theorem nodes_joinRun (grouped : Bool) (n : NodeId) (gs : List Group) :
    (joinRun grouped n gs).flatMap Group.nodes = n :: gs.flatMap Group.nodes := by
  rcases gs with _ | ⟨k | members, gs⟩
  · rfl
  · rfl
  · cases grouped <;> rfl

theorem proper_joinRun (hn : divided f category n = true) {gs : List Group}
    (hgs : ∀ group ∈ gs, group.Proper f category) :
    ∀ group ∈ joinRun grouped n gs, group.Proper f category := by
  have hsingle : (Group.run [n]).Proper f category := by
    intro k hk
    obtain rfl := List.mem_singleton.1 hk
    exact hn
  rcases gs with _ | ⟨k | members, gs⟩
  · exact List.forall_mem_cons.2 ⟨hsingle, hgs⟩
  · exact List.forall_mem_cons.2 ⟨hsingle, hgs⟩
  · cases grouped with
    | false => exact List.forall_mem_cons.2 ⟨hsingle, hgs⟩
    | true =>
        obtain ⟨hrun, hrest⟩ := List.forall_mem_cons.1 hgs
        have hjoined : (Group.run (n :: members)).Proper f category :=
          List.forall_mem_cons.2 ⟨hn, hrun⟩
        exact List.forall_mem_cons.2 ⟨hjoined, hrest⟩

theorem nodes_groups (f : Forest) (category : Value) (grouped : Bool) (list : List NodeId) :
    (groups f category grouped list).flatMap Group.nodes = list := by
  induction list with
  | nil => rfl
  | cons n list ih =>
      rw [groups]
      split
      · rw [nodes_joinRun, ih]
      · rw [List.flatMap_cons, ih]
        rfl

theorem proper_groups (f : Forest) (category : Value) (grouped : Bool) (list : List NodeId) :
    ∀ group ∈ groups f category grouped list, group.Proper f category := by
  induction list with
  | nil => exact fun group hgroup => absurd hgroup List.not_mem_nil
  | cons n list ih =>
      rw [groups]
      split
      · rename_i hn
        exact proper_joinRun hn ih
      · rename_i hn
        have hkept : (Group.kept n).Proper f category := by simpa [Group.Proper] using hn
        exact List.forall_mem_cons.2 ⟨hkept, ih⟩

theorem mem_of_mem_groups {group : Group} (hgroup : group ∈ groups f category grouped list)
    (hn : n ∈ group.nodes) : n ∈ list := by
  rw [← nodes_groups f category grouped list]
  exact List.mem_flatMap.2 ⟨group, hgroup, hn⟩

theorem allOk_eq_ok_iff {rs : List (Except TreeFault α)} {as : List α} :
    allOk rs = .ok as ↔ List.Forall₂ (fun r a => r = .ok a) rs as := by
  induction rs generalizing as with
  | nil => simp [allOk, eq_comm]
  | cons r rs ih =>
      simp only [allOk, bind_eq_ok_iff, ih, List.forall₂_cons_left_iff, Except.ok.injEq]
      constructor
      · rintro ⟨a, ha, more, hmore, rfl⟩
        exact ⟨a, more, ha, hmore, rfl⟩
      · rintro ⟨a, more, ha, hmore, rfl⟩
        exact ⟨a, ha, more, hmore, rfl⟩

theorem exists_allOk {P : α → Prop} {rs : List (Except TreeFault α)}
    (h : ∀ r ∈ rs, ∃ a, P a ∧ r = .ok a) : ∃ as, (∀ a ∈ as, P a) ∧ allOk rs = .ok as := by
  induction rs with
  | nil => exact ⟨[], fun a ha => absurd ha List.not_mem_nil, rfl⟩
  | cons r rs ih =>
      obtain ⟨⟨a, ha, rfl⟩, hrest⟩ := List.forall_mem_cons.1 h
      obtain ⟨as, has, hok⟩ := ih hrest
      exact ⟨a :: as, List.forall_mem_cons.2 ⟨ha, has⟩, by simp [allOk, hok, bind, Except.bind]⟩

section
variable {expandBelow expandBelow' : List NodeId → Except TreeFault (List Piece)}

theorem expandGroup_kept_iff : expandGroup f expandBelow (.kept n) = .ok pieces ↔
    ∃ below, expandBelow (f.children n) = .ok below ∧ pieces = [.node n below] := by
  simp only [expandGroup, bind_eq_ok_iff, Except.ok.injEq, @eq_comm _ pieces]

theorem expandGroup_run_iff : expandGroup f expandBelow (.run members) = .ok pieces ↔
    ∃ labels panels contents, Interleaved.gather f members = .ok (labels, panels) ∧
      List.Forall₂ (fun panel content => expandBelow panel = .ok content) panels contents ∧
        pieces = markup labels contents := by
  simp only [expandGroup, bind_eq_ok_iff, allOk_eq_ok_iff, List.forall₂_map_left_iff,
    Except.ok.injEq]
  constructor
  · rintro ⟨⟨labels, panels⟩, hgather, contents, hcontents, rfl⟩
    exact ⟨labels, panels, contents, hgather, hcontents, rfl⟩
  · rintro ⟨labels, panels, contents, hgather, hcontents, rfl⟩
    exact ⟨(labels, panels), hgather, contents, hcontents, rfl⟩

/-- Where a group is expanded, only children of its nodes are. -/
theorem expandGroup_congr {group : Group}
    (h : ∀ list, (∀ c ∈ list, ∃ n ∈ group.nodes, c ∈ f.children n) →
      expandBelow list = expandBelow' list) :
    expandGroup f expandBelow group = expandGroup f expandBelow' group := by
  cases group with
  | kept n =>
      have hn := h (f.children n) fun c hc => ⟨n, List.mem_singleton_self n, hc⟩
      rw [expandGroup, expandGroup, hn]
  | run members =>
      rw [expandGroup, expandGroup]
      cases hgather : Interleaved.gather f members with
      | error e => rfl
      | ok gathered =>
          have hpanels : gathered.2.map expandBelow = gathered.2.map expandBelow' :=
            List.map_congr_left fun panel hpanel => h panel fun c hc =>
              Interleaved.mem_children_of_gather hgather hpanel hc
          simp only [bind, Except.bind, hpanels]

end

theorem expandWithin_eq (hf : f.WellFormed) (hd : ∀ n ∈ list, f.EnoughFor n depth)
    (hd' : ∀ n ∈ list, f.EnoughFor n depth') :
    expandWithin f category grouped depth list = expandWithin f category grouped depth' list := by
  induction depth generalizing list depth' with
  | zero =>
      rcases list with _ | ⟨n, list⟩
      · cases depth' <;> rfl
      · exact absurd (hd n List.mem_cons_self).1 (Nat.lt_irrefl 0)
  | succ depth ih =>
      cases depth' with
      | zero =>
          rcases list with _ | ⟨n, list⟩
          · rfl
          · exact absurd (hd' n List.mem_cons_self).1 (Nat.lt_irrefl 0)
      | succ depth' =>
          rw [expandWithin, expandWithin]
          have hmap : (groups f category grouped list).map
              (expandGroup f (expandWithin f category grouped depth)) =
            (groups f category grouped list).map
              (expandGroup f (expandWithin f category grouped depth')) := by
            refine List.map_congr_left fun group hgroup => expandGroup_congr fun below hbelow => ?_
            refine ih (fun c hc => ?_) fun c hc => ?_
            · obtain ⟨n, hn, hcn⟩ := hbelow c hc
              exact (hd n (mem_of_mem_groups hgroup hn)).child hf hcn
            · obtain ⟨n, hn, hcn⟩ := hbelow c hc
              exact (hd' n (mem_of_mem_groups hgroup hn)).child hf hcn
          rw [hmap]

/-- The expansion of a list is made of the expansions of its groups, where the lists further down
are expanded likewise. -/
theorem expand_eq (hf : f.WellFormed) (list : List NodeId) :
    expand f category grouped list = (do
      let parts ← allOk ((groups f category grouped list).map
        (expandGroup f (expand f category grouped)))
      .ok parts.flatten) := by
  have hmap : (groups f category grouped list).map
      (expandGroup f (expandWithin f category grouped f.size)) =
    (groups f category grouped list).map (expandGroup f (expand f category grouped)) := by
    refine List.map_congr_left fun group hgroup => expandGroup_congr fun below hbelow => ?_
    refine expandWithin_eq hf (fun c hc => ?_) fun c _ => .size_succ f c
    obtain ⟨n, -, hcn⟩ := hbelow c hc
    exact (EnoughFor.size_succ f n).child hf hcn
  rw [expand, expandWithin, hmap]

/-- A list expands if its groups do, to what they expand to. -/
theorem expand_eq_ok_iff (hf : f.WellFormed) :
    expand f category grouped list = .ok pieces ↔
      ∃ parts, List.Forall₂
        (fun group part => expandGroup f (expand f category grouped) group = .ok part)
        (groups f category grouped list) parts ∧ parts.flatten = pieces := by
  simp only [expand_eq hf, bind_eq_ok_iff, allOk_eq_ok_iff, List.forall₂_map_left_iff,
    Except.ok.injEq]

/-- What holds of a list if it holds of all lists of children of its nodes holds of every list. -/
theorem below_induction (hf : f.WellFormed) {P : List NodeId → Prop} (nil : P [])
    (step : ∀ list, (∀ below : List NodeId, (∀ c ∈ below, ∃ n ∈ list, c ∈ f.children n) → P below) →
      P list) (list : List NodeId) : P list := by
  have hbound (depth : Nat) : ∀ list : List NodeId, (∀ n ∈ list, f.EnoughFor n depth) → P list := by
    induction depth with
    | zero =>
        intro list hd
        obtain rfl : list = [] := List.eq_nil_iff_forall_not_mem.2 fun n hn =>
          absurd (hd n hn).1 (Nat.lt_irrefl 0)
        exact nil
    | succ depth ih =>
        intro list hd
        refine step list fun below hbelow => ih below fun c hc => ?_
        obtain ⟨n, hn, hcn⟩ := hbelow c hc
        exact (hd n hn).child hf hcn
  exact hbound (f.size + 1) list fun n _ => .size_succ f n

/-- At and below a node all texts are texts. -/
def Textual (f : Forest) (root : NodeId) : Prop :=
  ∀ n, f.AtOrAbove root n → ∀ v, ownText? (f.element n) = some v → ∃ text, v = .str text

theorem Textual.child (hf : f.WellFormed) {c : NodeId} (h : Textual f n) (hc : c ∈ f.children n) :
    Textual f c :=
  fun m hm => h m ((hf.ancestor_of_mem hc).atOrAbove.trans hm)

theorem exists_joinTexts {values : List Value} (h : ∀ v ∈ values, ∃ text, v = .str text)
    (position : Nat) : ∃ text, joinTexts position values = .ok text := by
  induction values generalizing position with
  | nil => exact ⟨"", rfl⟩
  | cons v values ih =>
      obtain ⟨⟨text, rfl⟩, hrest⟩ := List.forall_mem_cons.1 h
      obtain ⟨more, hmore⟩ := ih hrest (position + 1)
      exact ⟨text ++ more, by simp [joinTexts, hmore, bind, Except.bind]⟩

theorem Textual.exists_plainText (hf : f.WellFormed) (h : Textual f n) :
    ∃ text, f.plainText n = .ok (.str text) := by
  induction n using hf.down_induction with
  | h n ih =>
      rw [hf.plainText_eq]
      cases hown : ownText? (f.element n) with
      | some v =>
          obtain ⟨text, rfl⟩ := h n (.refl f n) v hown
          exact ⟨text, rfl⟩
      | none =>
          obtain ⟨parts, htexts, hparts⟩ : ∃ parts, (∀ v ∈ parts, ∃ text, v = .str text) ∧
              allOk ((f.children n).map f.plainText) = .ok parts := by
            refine exists_allOk (List.forall_mem_map.2 fun c hc => ?_)
            obtain ⟨text, htext⟩ := ih c hc (h.child hf hc)
            exact ⟨.str text, ⟨text, rfl⟩, htext⟩
          obtain ⟨text, htext⟩ := exists_joinTexts htexts 0
          exact ⟨text, by simp [hparts, htext, bind, Except.bind]⟩

theorem exists_addAll {children : List NodeId} (hf : f.WellFormed)
    (h : ∀ c ∈ children, Textual f c) (s : Split) : ∃ t, s.addAll f children = .ok t := by
  induction children generalizing s with
  | nil => exact ⟨s, rfl⟩
  | cons c children ih =>
      obtain ⟨hc, hrest⟩ := List.forall_mem_cons.1 h
      obtain ⟨text, htext⟩ := hc.exists_plainText hf
      obtain ⟨t, ht⟩ : ∃ t, s.add f c = .ok t := by
        unfold Split.add
        by_cases hheading : isHeading f c = true
        · rw [if_pos hheading, label, htext]
          simp only [needText, bind, Except.bind]
          split
          · exact ⟨_, rfl⟩
          · exact ⟨_, rfl⟩
        · rw [if_neg hheading]
          exact ⟨_, rfl⟩
      obtain ⟨u, hu⟩ := ih hrest t
      exact ⟨u, by simp [Split.addAll, ht, hu, bind, Except.bind]⟩

theorem Textual.exists_panels? (hf : f.WellFormed) (h : Textual f n) :
    ∃ own, panels? f n = .ok own := by
  obtain ⟨s, hs⟩ := exists_addAll hf (fun c hc => h.child hf hc) ⟨[], [], [], false⟩
  rw [panels?, hs]
  simp only [bind, Except.bind]
  split
  · exact ⟨_, rfl⟩
  · exact ⟨_, rfl⟩

theorem exists_gather (hf : f.WellFormed) (h : ∀ n ∈ members, Textual f n) :
    ∃ gathered, Interleaved.gather f members = .ok gathered := by
  induction members with
  | nil => exact ⟨([], []), rfl⟩
  | cons n members ih =>
      obtain ⟨hn, hrest⟩ := List.forall_mem_cons.1 h
      obtain ⟨own, hown⟩ := hn.exists_panels? hf
      obtain ⟨⟨labels, panels⟩, hgathered⟩ := ih hrest
      rw [Interleaved.gather, hown, hgathered]
      rcases own with _ | ⟨ls, ps⟩
      · exact ⟨(labels, panels), rfl⟩
      · exact ⟨(ls ++ labels, ps ++ panels), rfl⟩

/-- Where all texts are texts, every list expands. -/
theorem exists_expand (hf : f.WellFormed) (h : ∀ n ∈ list, Textual f n) :
    ∃ pieces, expand f category grouped list = .ok pieces := by
  induction list using below_induction hf with
  | nil => exact ⟨[], rfl⟩
  | step list ih =>
      rw [expand_eq hf]
      -- The lists to expand for a group are of children of its nodes, which the induction allows.
      have hgroup (group : Group) (hmem : group ∈ groups f category grouped list) :
          ∃ part, expandGroup f (expand f category grouped) group = .ok part := by
        have htextual : ∀ n ∈ group.nodes, Textual f n := fun n hn =>
          h n (mem_of_mem_groups hmem hn)
        have hbelow {below : List NodeId}
          (hsub : ∀ c ∈ below, ∃ n ∈ group.nodes, c ∈ f.children n) :
            ∃ pieces, expand f category grouped below = .ok pieces := by
          refine ih below (fun c hc => ?_) fun c hc => ?_
          · obtain ⟨n, hn, hcn⟩ := hsub c hc
            exact ⟨n, mem_of_mem_groups hmem hn, hcn⟩
          · obtain ⟨n, hn, hcn⟩ := hsub c hc
            exact (htextual n hn).child hf hcn
        cases group with
        | kept n =>
            obtain ⟨pieces, hpieces⟩ := hbelow fun c hc => ⟨n, List.mem_singleton_self n, hc⟩
            exact ⟨[.node n pieces], expandGroup_kept_iff.2 ⟨pieces, hpieces, rfl⟩⟩
        | run members =>
            obtain ⟨⟨labels, panels⟩, hgather⟩ := exists_gather hf htextual
            change Interleaved.gather f members = _ at hgather
            obtain ⟨contents, -, hcontents⟩ : ∃ contents : List (List Piece),
              (∀ c ∈ contents, True) ∧
                allOk (panels.map (expand f category grouped)) = .ok contents := by
              refine exists_allOk (List.forall_mem_map.2 fun panel hpanel => ?_)
              obtain ⟨pieces, hpieces⟩ := hbelow fun c hc =>
                Interleaved.mem_children_of_gather hgather hpanel hc
              exact ⟨pieces, trivial, hpieces⟩
            have hpanels := List.forall₂_map_left_iff.1 (allOk_eq_ok_iff.1 hcontents)
            exact ⟨markup labels contents,
              expandGroup_run_iff.2 ⟨labels, panels, contents, hgather, hpanels, rfl⟩⟩
      obtain ⟨parts, -, hparts⟩ : ∃ parts : List (List Piece), (∀ part ∈ parts, True) ∧
          allOk ((groups f category grouped list).map
            (expandGroup f (expand f category grouped))) = .ok parts := by
        refine exists_allOk (List.forall_mem_map.2 fun group hmem => ?_)
        obtain ⟨part, hpart⟩ := hgroup group hmem
        exact ⟨part, trivial, hpart⟩
      exact ⟨parts.flatten, by simp [hparts, bind, Except.bind]⟩

end MarkdownTree.Tabs
