import Mathlib.Data.List.Forall2
import MarkdownTree.Proofs.Calls
import MarkdownTree.Proofs.CopiedRecords

/-!
Copies of trees. A draft whose elements and records exist and may stand below each other is planted
as a tree of new nodes beside the forest. Copying carries the forest on if the choice of the
elements does, whether the copy is finished or not.
-/

namespace MarkdownTree.Forest

variable {f g h : Forest} {n : NodeId} {nodes : List NodeId} {k : Kind} {kinds : List Kind}
  {d : Draft} {ds : List Draft}

/-! ### Lists in step -/

theorem forall₂_imp_of_mem {α β : Type} {R S : α → β → Prop} {xs : List α} {ys : List β}
    (h : List.Forall₂ R xs ys) (himp : ∀ x ∈ xs, ∀ y ∈ ys, R x y → S x y) :
    List.Forall₂ S xs ys := by
  induction h with
  | nil => exact .nil
  | cons hxy _ ih =>
      refine .cons (himp _ List.mem_cons_self _ List.mem_cons_self hxy) (ih fun x hx y hy => ?_)
      exact himp x (List.mem_cons_of_mem _ hx) y (List.mem_cons_of_mem _ hy)

/-! ### Planting -/

def Draft.element : Draft → Nat
  | .node element _ _ => element

/-- A draft of a tree that may be added to a forest as it is. -/
inductive Draft.Sound (f : Forest) : Draft → Prop
  | node {element record : Nat} {children : List Draft} (helement : element < f.elements.size)
      (hrecord : record < f.records.size) (hsound : ∀ d ∈ children, Draft.Sound f d)
      (hkind : ∀ d ∈ children, (f.kindAt element).canContain (f.kindAt d.element) = true) :
      Draft.Sound f (.node element record children)

theorem Draft.Sound.element_lt (hd : d.Sound f) : d.element < f.elements.size := by
  cases hd with
  | node helement _ _ _ => exact helement

theorem Draft.Sound.carriesOn (hfg : f.CarriesOn g) (hd : d.Sound f) : d.Sound g := by
  induction hd with
  | node helement hrecord hsound hkind ih =>
      refine .node (Nat.lt_of_lt_of_le helement hfg.elements_le)
        (Nat.lt_of_lt_of_le hrecord hfg.records_le) ih fun d hd => ?_
      rw [hfg.kindAt_eq _ helement, hfg.kindAt_eq _ (hsound d hd).element_lt]
      exact hkind d hd

/-- `Planted f g nodes kinds` says that `g` is `f` with trees of new nodes beside it. The roots of
the trees are `nodes`, their kinds are `kinds`. -/
structure Planted (f g : Forest) (nodes : List NodeId) (kinds : List Kind) : Prop where
  wellFormed : g.WellFormed
  size_le : f.size ≤ g.size
  elements_eq : g.elements = f.elements
  records_eq : g.records = f.records
  elementKey_old (n : NodeId) (hn : n < f.size) : g.elementKey n = f.elementKey n
  parent?_old (n : NodeId) (hn : n < f.size) : g.parent? n = f.parent? n
  children_old (n : NodeId) (hn : n < f.size) : g.children n = f.children n
  new (n : NodeId) (hn : n ∈ nodes) : f.size ≤ n ∧ n < g.size ∧ g.parent? n = none
  nodup : nodes.Nodup
  kinds_eq : nodes.map g.kind = kinds

namespace Planted

theorem kindAt_eq (hfg : f.Planted g nodes kinds) (key : Nat) : g.kindAt key = f.kindAt key := by
  rw [kindAt, kindAt, hfg.elements_eq]

theorem kind_old (hfg : f.Planted g nodes kinds) (hn : n < f.size) : g.kind n = f.kind n := by
  change g.kindAt (g.elementKey n) = f.kindAt (f.elementKey n)
  rw [hfg.elementKey_old n hn, hfg.kindAt_eq]

theorem carriesOn (hfg : f.Planted g nodes kinds) : f.CarriesOn g where
  wellFormed := hfg.wellFormed
  size_le := hfg.size_le
  elements_le := Nat.le_of_eq (by rw [hfg.elements_eq])
  records_le := Nat.le_of_eq (by rw [hfg.records_eq])
  kindAt_eq key _ := hfg.kindAt_eq key

theorem nil (hf : f.WellFormed) : f.Planted f [] [] where
  wellFormed := hf
  size_le := Nat.le_refl _
  elements_eq := rfl
  records_eq := rfl
  elementKey_old _ _ := rfl
  parent?_old _ _ := rfl
  children_old _ _ := rfl
  new n hn := by simp at hn
  nodup := List.nodup_nil
  kinds_eq := rfl

theorem cons (hfg : f.Planted g [n] [k]) (hgh : g.Planted h nodes kinds) :
    f.Planted h (n :: nodes) (k :: kinds) where
  wellFormed := hgh.wellFormed
  size_le := Nat.le_trans hfg.size_le hgh.size_le
  elements_eq := hgh.elements_eq.trans hfg.elements_eq
  records_eq := hgh.records_eq.trans hfg.records_eq
  elementKey_old m hm := by
    rw [hgh.elementKey_old m (Nat.lt_of_lt_of_le hm hfg.size_le), hfg.elementKey_old m hm]
  parent?_old m hm := by
    rw [hgh.parent?_old m (Nat.lt_of_lt_of_le hm hfg.size_le), hfg.parent?_old m hm]
  children_old m hm := by
    rw [hgh.children_old m (Nat.lt_of_lt_of_le hm hfg.size_le), hfg.children_old m hm]
  new m hm := by
    rcases List.mem_cons.1 hm with rfl | hm
    · obtain ⟨hge, hlt, hroot⟩ := hfg.new m (List.mem_singleton.2 rfl)
      rw [hgh.parent?_old m hlt]
      exact ⟨hge, Nat.lt_of_lt_of_le hlt hgh.size_le, hroot⟩
    · obtain ⟨hge, hlt, hroot⟩ := hgh.new m hm
      exact ⟨Nat.le_trans hfg.size_le hge, hlt, hroot⟩
  nodup := by
    refine List.nodup_cons.2 ⟨fun hn => ?_, hgh.nodup⟩
    have hlt := (hfg.new n (List.mem_singleton.2 rfl)).2.1
    exact Nat.lt_irrefl n (Nat.lt_of_lt_of_le hlt (hgh.new n hn).1)
  kinds_eq := by
    have hlt := (hfg.new n (List.mem_singleton.2 rfl)).2.1
    have hk : g.kind n = k := by simpa using hfg.kinds_eq
    rw [List.map_cons, hgh.kind_old hlt, hk, hgh.kinds_eq]

theorem kind_addRoot_self (hfg : f.Planted g nodes kinds) (element record : Nat) :
    (g.addRoot element record).2.kind g.size = f.kindAt element := by
  change (g.addRoot element record).2.kindAt ((g.addRoot element record).2.elementKey g.size) = _
  rw [elementKey_addRoot, if_pos rfl]
  exact hfg.kindAt_eq element

theorem size_not_mem (hfg : f.Planted g nodes kinds) : g.size ∉ nodes :=
  fun hm => Nat.lt_irrefl _ (hfg.new g.size hm).2.1

/-- The trees may stand below a new root that may contain theirs: it is at the end of the forest, so
it is none of their roots, and none of these is over it. -/
theorem attachable {element : Nat} (hfg : f.Planted g nodes kinds)
    (hkinds : ∀ k ∈ kinds, (f.kindAt element).canContain k = true) (record : Nat) :
    (g.addRoot element record).2.Attachable g.size nodes := by
  have hnew {m : NodeId} (hm : m ∈ nodes) : m < g.size := (hfg.new m hm).2.1
  have hroot := parent?_addRoot_self g element record
  refine ⟨lt_size_addRoot g element record, fun m hm => ?_, fun m hm => ?_, hfg.nodup,
    fun m hm => ?_, ?_⟩
  · exact Nat.lt_trans (hnew hm) (lt_size_addRoot g element record)
  · rw [parent?_addRoot]
    exact (hfg.new m hm).2.2
  · rw [hfg.kind_addRoot_self, kind, element_addRoot g element record m (Nat.ne_of_lt (hnew hm))]
    exact hkinds _ (hfg.kinds_eq ▸ List.mem_map_of_mem hm)
  · rintro m hm (rfl | habove)
    · exact hfg.size_not_mem hm
    · cases habove with
      | parent hp => simp [hroot] at hp
      | above hp _ => simp [hroot] at hp

/-- Trees beside a forest are made one tree by a new root that may contain theirs. -/
theorem join {element record : Nat} (hfg : f.Planted g nodes kinds)
    (helement : element < f.elements.size) (hrecord : record < f.records.size)
    (hkinds : ∀ k ∈ kinds, (f.kindAt element).canContain k = true) :
    f.Planted ((g.addRoot element record).2.attach g.size nodes nodes) [g.size]
      [f.kindAt element] := by
  have hg : (g.addRoot element record).2.WellFormed :=
    hfg.wellFormed.addRoot g element record (hfg.elements_eq ▸ helement) (hfg.records_eq ▸ hrecord)
  have hattach := hfg.attachable hkinds record
  have hlast := lt_size_addRoot g element record
  have hdata := sameData_attach (g.addRoot element record).2 g.size nodes nodes
  have hne {m : NodeId} (hm : m < f.size) : m ≠ g.size :=
    Nat.ne_of_lt (Nat.lt_of_lt_of_le hm hfg.size_le)
  -- The new root comes after all nodes, and only the roots below it get another parent.
  exact {
    wellFormed := hg.attach hattach (by rw [children_addRoot_self, List.append_nil])
    size_le := by
      rw [hdata.size_eq]
      exact Nat.le_trans hfg.size_le (Nat.le_of_lt hlast)
    elements_eq := hdata.elements_eq.trans hfg.elements_eq
    records_eq := hdata.records_eq.trans hfg.records_eq
    elementKey_old m hm := by
      rw [hdata.elementKey_eq, elementKey_addRoot, if_neg (hne hm), hfg.elementKey_old m hm]
    parent?_old m hm := by
      have hmn : m ∉ nodes := fun hmn => Nat.not_lt.2 (hfg.new m hmn).1 hm
      rw [parent?_attach hattach.lt_size, if_neg hmn, parent?_addRoot, hfg.parent?_old m hm]
    children_old m hm := by
      rw [children_attach hlast, if_neg (hne hm), children_addRoot, hfg.children_old m hm]
    new m hm := by
      cases List.mem_singleton.1 hm
      rw [hdata.size_eq, parent?_attach hattach.lt_size, if_neg hfg.size_not_mem]
      exact ⟨hfg.size_le, hlast, parent?_addRoot_self g element record⟩
    nodup := List.nodup_singleton _
    kinds_eq := by rw [List.map_singleton, hdata.kind_eq, hfg.kind_addRoot_self] }

end Planted

mutual

theorem planted_plant : ∀ (d : Draft) (f : Forest), f.WellFormed → d.Sound f →
    f.Planted (plant d f).2 [(plant d f).1] [f.kindAt d.element]
  | .node element record children, f, hf, hd => by
      cases hd with
      | node helement hrecord hsound hkind =>
          refine (planted_plantAll children f hf hsound).join helement hrecord fun k hk => ?_
          obtain ⟨d, hd, rfl⟩ := List.mem_map.1 hk
          exact hkind d hd

theorem planted_plantAll : ∀ (ds : List Draft) (f : Forest), f.WellFormed →
    (∀ d ∈ ds, d.Sound f) →
    f.Planted (plantAll ds f).2 (plantAll ds f).1 (ds.map (f.kindAt ·.element))
  | [], _, hf, _ => .nil hf
  | d :: ds, f, hf, hd => by
      have hfirst := planted_plant d f hf (hd d List.mem_cons_self)
      have hrest := planted_plantAll ds (plant d f).2 hfirst.wellFormed fun d' hd' =>
        (hd d' (List.mem_cons_of_mem d hd')).carriesOn hfirst.carriesOn
      have hkinds : ds.map ((plant d f).2.kindAt ·.element) = ds.map (f.kindAt ·.element) :=
        List.map_congr_left fun d' _ => hfirst.kindAt_eq d'.element
      rw [hkinds] at hrest
      exact hfirst.cons hrest

end

/-! ### Copying -/

section
open Asking
variable {σ ε : Type} {choose : PayloadMap σ ε} {fine : σ → Prop} {parent : Option Kind}

/-- What a copy has to know of the changes that it allows: which nodes may be copied, what is
demanded of the element and record that are chosen for a node, and what of a draft of its tree. -/
structure DraftRules (ok : Forest → Prop) (may : Forest → Forest → Prop)
    (ready : NodeId → Forest → Prop) (chosen : Option Kind → Kind × Nat × Nat → Forest → Prop)
    (drafted : Option Kind → Draft → Forest → Prop) : Prop where
  allowance : Allowance ok may
  ready_of_may {f g : Forest} {n : NodeId} (hfg : may f g) (hn : ready n f) : ready n g
  chosen_of_may {f g : Forest} {p : Option Kind} {c : Kind × Nat × Nat} (hfg : may f g)
    (hc : chosen p c f) : chosen p c g
  drafted_of_may {f g : Forest} {parent : Option Kind} {d : Draft} (hfg : may f g)
    (hd : drafted parent d f) : drafted parent d g
  child {f : Forest} {n c : NodeId} (hf : ok f) (hn : ready n f) (hc : c ∈ f.children n) : ready c f
  node {f : Forest} {parent : Option Kind} {kind : Kind} {element record : Nat}
    {children : List Draft} (hchosen : chosen parent (kind, element, record) f)
    (hchildren : ∀ d ∈ children, drafted (some kind) d f) :
    drafted parent (.node element record children) f

section
variable {ok : Forest → Prop} {may : Forest → Forest → Prop} {ready : NodeId → Forest → Prop}
  {chosen : Option Kind → Kind × Nat × Nat → Forest → Prop}
  {drafted : Option Kind → Draft → Forest → Prop}
  (hrules : DraftRules ok may ready chosen drafted)

include hrules

theorem obeys_draftFrom {draftOne : NodeId → Copying σ ε Draft}
    (hone : ∀ c, Obeys ok may fine (ready c) (draftOne c) (drafted parent)) (n : NodeId)
    (turns i : Nat) :
    Obeys ok may fine (ready n) (draftFrom draftOne n turns i)
      fun ds f => ∀ d ∈ ds, drafted parent d f := by
  induction turns generalizing i with
  | zero => exact .throw hrules.allowance
  | succ turns ih =>
      refine .bind hrules.allowance (.forest hrules.allowance) fun f => ?_
      rcases hc : (f.children n)[i]? with _ | c
      · exact .pure hrules.allowance fun _ _ _ _ hd => absurd hd List.not_mem_nil
      · have hfirst : Obeys ok may fine (fun g => f = g ∧ ok f ∧ ready n f) (draftOne c)
            fun d g => drafted parent d g ∧ ready n g := by
          refine ((hone c).frame fun _ _ hfg => hrules.ready_of_may hfg).of_pre fun g _ hg => ?_
          obtain ⟨rfl, hf, hn⟩ := hg
          exact ⟨hrules.child hf hn (List.mem_of_getElem? hc), hn⟩
        refine .bind hrules.allowance hfirst fun d => ?_
        have hrest := ((ih (i + 1)).frame fun _ _ hfg => hrules.drafted_of_may (d := d) hfg).of_pre
          fun g _ (hg : drafted parent d g ∧ ready n g) => ⟨hg.2, hg.1⟩
        refine .bind hrules.allowance hrest fun ds =>
          .pure hrules.allowance fun g _ hds d' hd' => ?_
        rcases List.mem_cons.1 hd' with rfl | hd'
        · exact hds.2
        · exact hds.1 d' hd'

theorem obeys_draftWithin
    (hchoose : ∀ parent n,
      Obeys ok may fine (ready n) (choosePayload choose parent n) (chosen parent))
    (extra depth : Nat) (parent : Option Kind) (n : NodeId) :
    Obeys ok may fine (ready n) (draftWithin choose extra depth parent n) (drafted parent) := by
  induction depth generalizing parent n with
  | zero => exact .throw hrules.allowance
  | succ depth ih =>
      have hfirst := (hchoose parent n).keep fun _ _ hfg => hrules.ready_of_may hfg
      refine .bind hrules.allowance hfirst fun picked =>
        .bind hrules.allowance (.forest hrules.allowance) fun f => ?_
      obtain ⟨kind, element, record⟩ := picked
      have hbelow := obeys_draftFrom hrules (ih (some kind)) n ((f.children n).length + 1 + extra) 0
      have hboth := (hbelow.frame
          fun _ _ hfg =>
            hrules.chosen_of_may (p := parent) (c := (kind, element, record)) hfg).of_pre
        fun g _ (hg : f = g ∧ ok f ∧ chosen parent (kind, element, record) f ∧ ready n f) =>
          hg.1 ▸ ⟨hg.2.2.2, hg.2.2.1⟩
      exact .bind hrules.allowance hboth fun children =>
        .pure hrules.allowance fun g _ hg => hrules.node hg.2 hg.1

end

/-- What the chosen element and record of a copy of a node have to be. -/
structure Chosen (parent : Option Kind) (chosen : Kind × Nat × Nat) (f : Forest) : Prop where
  element_lt : chosen.2.1 < f.elements.size
  record_lt : chosen.2.2 < f.records.size
  kindAt_eq : f.kindAt chosen.2.1 = chosen.1
  canContain : ∀ k, parent = some k → k.canContain chosen.1 = true

theorem Chosen.lasting (parent : Option Kind) (chosen : Kind × Nat × Nat) :
    Lasting (Chosen parent chosen) := by
  intro f g hfg h
  refine ⟨Nat.lt_of_lt_of_le h.element_lt hfg.elements_le,
    Nat.lt_of_lt_of_le h.record_lt hfg.records_le, ?_, h.canContain⟩
  rw [hfg.kindAt_eq _ h.element_lt]
  exact h.kindAt_eq

theorem lasting_lt_elements (key : Nat) : Lasting (key < ·.elements.size) :=
  fun _ _ hfg hkey => Nat.lt_of_lt_of_le hkey hfg.elements_le

theorem canContain_of_checkPayload {key : Nat} {payload : Payload}
    (h : f.checkPayload parent key payload = .ok ()) (k : Kind) (hk : parent = some k) :
    k.canContain (f.payloadKind key payload) = true := by
  subst hk
  cases payload with
  | invalid type => cases h
  | shared | own _ =>
      simp only [checkPayload, checkKinds] at h
      split at h
      · assumption
      · cases h

theorem carriesOn_addPayload (hf : f.WellFormed) {key : Nat} (hkey : key < f.elements.size)
    {payload : Payload} (h : f.checkPayload parent key payload = .ok ()) (n : NodeId) :
    f.CarriesOn (addPayload key n payload f).2 ∧
      Chosen parent (f.payloadKind key payload, (addPayload key n payload f).1)
        (addPayload key n payload f).2 := by
  have hcopy := carriesOn_copyRecord hf (f.recordKey n)
  have hrecord := copyRecord_lt f (f.recordKey n)
  have hcan := canContain_of_checkPayload h
  cases payload with
  | invalid type => cases h
  | shared =>
      exact ⟨hcopy, Nat.lt_of_lt_of_le hkey hcopy.elements_le, hrecord, hcopy.kindAt_eq key hkey,
        hcan⟩
  | own element =>
      have hadd := carriesOn_addElement hcopy.wellFormed element
      refine ⟨hcopy.trans hadd, ?_, hrecord, ?_, hcan⟩
      · simp [addPayload, addElement]
      · simp [addPayload, addElement, kindAt, payloadKind]

/-- What is asked of a choice of elements: as long as it is fine, it carries the forest on. -/
def Choosing (fine : σ → Prop) (choose : PayloadMap σ ε) : Prop :=
  ∀ n f s r g t, choose n f s = (r, g, t) → fine t → fine s ∧
    (f.WellFormed → n < f.size → f.CarriesOn g)

theorem keeps_choosePayload (hchoose : Choosing fine choose) (parent : Option Kind) (n : NodeId) :
    Keeps fine (n < ·.size) (choosePayload choose parent n) (Chosen parent) := by
  refine .bind .forest fun f₀ => ?_
  have hask : Keeps fine (fun f => f₀ = f ∧ f₀.WellFormed ∧ n < f.size)
      (choose.ask CopyFailure.choice n) fun _ f => f₀.elementKey n < f.elements.size := by
    refine .ask fun f s r g t hcall ht => ?_
    obtain ⟨hs, hcarry⟩ := hchoose n f s r g t hcall ht
    refine ⟨hs, fun hf hpre => ?_⟩
    obtain ⟨rfl, -, hn⟩ := hpre
    have hfg := hcarry hf hn
    exact ⟨hfg, fun _ _ => lasting_lt_elements _ _ _ hfg (hf.elementKey_lt n hn)⟩
  refine hask.bind fun payload => .bind .forest fun f => ?_
  cases hcheck : f.checkPayload parent (f₀.elementKey n) payload with
  | error e => exact .throw
  | ok _ =>
      refine .bind (.change fun g hg hpre => ?_) fun keys => .pure fun _ h => h
      obtain ⟨rfl, -, hkey⟩ := hpre
      exact carriesOn_addPayload hg hkey hcheck n

/-- What a draft has to be that is to stand below an element of the given kind. -/
structure Drafted (parent : Option Kind) (d : Draft) (f : Forest) : Prop where
  sound : d.Sound f
  canContain : ∀ k, parent = some k → k.canContain (f.kindAt d.element) = true

theorem Drafted.lasting (parent : Option Kind) (d : Draft) : Lasting (Drafted parent d) := by
  intro f g hfg h
  refine ⟨h.sound.carriesOn hfg, fun k hk => ?_⟩
  rw [hfg.kindAt_eq _ h.sound.element_lt]
  exact h.canContain k hk

theorem draftRules_carriesOn :
    DraftRules Forest.WellFormed Forest.CarriesOn (fun n f => n < f.size) Chosen Drafted where
  allowance := allowance_carriesOn
  ready_of_may hfg hn := Nat.lt_of_lt_of_le hn hfg.size_le
  chosen_of_may {f g p chosen} hfg h := Chosen.lasting p chosen f g hfg h
  drafted_of_may {f g parent d} hfg h := Drafted.lasting parent d f g hfg h
  child hf _ hc := hf.lt_size_of_mem hc
  node {f parent kind element record children} hchosen hchildren := by
    refine ⟨.node hchosen.element_lt hchosen.record_lt (fun d hd => (hchildren d hd).sound)
      fun d hd => ?_, fun k hk => ?_⟩
    · rw [hchosen.kindAt_eq]
      exact (hchildren d hd).canContain kind rfl
    · change k.canContain (f.kindAt element) = true
      rw [hchosen.kindAt_eq]
      exact hchosen.canContain k hk

theorem keeps_draftWithin (hchoose : Choosing fine choose) (extra depth : Nat)
    (parent : Option Kind) (n : NodeId) :
    Keeps fine (n < ·.size) (draftWithin choose extra depth parent n) (Drafted parent) :=
  obeys_draftWithin draftRules_carriesOn (keeps_choosePayload hchoose) extra depth parent n

/-- A copy is the draft of the tree, planted. -/
theorem result_copyTreeWith (choose : PayloadMap σ ε) (extra : Nat) (n : NodeId) (f : Forest)
    (s : σ) : result (copyTreeWith choose extra n) f s =
      match result (draftWithin choose extra (f.size + 1 + extra) none n) f s with
      | (.ok d, g, t) => (.ok (plant d g).1, (plant d g).2, t)
      | (.error e, g, t) => (.error e, g, t) := by
  rw [copyTreeWith, result_bind, result_forest]
  simp only [result_bind, result_change]
  rcases result (draftWithin choose extra (f.size + 1 + extra) none n) f s with
    ⟨_ | _, _, _⟩ <;> rfl

theorem keeps_copyTreeWith (hchoose : Choosing fine choose) (extra : Nat) (n : NodeId) :
    Keeps fine (n < ·.size) (copyTreeWith choose extra n) fun c f => c < f.size := by
  refine .bind .forest fun f => ?_
  have hdraft := (keeps_draftWithin hchoose extra (f.size + 1 + extra) none n).of_pre
    fun g (hg : f = g ∧ f.WellFormed ∧ n < g.size) => hg.2.2
  refine hdraft.bind fun d => .change fun g hg hd => ?_
  have hplant := planted_plant d g hg hd.sound
  exact ⟨hplant.carriesOn, (hplant.new _ (List.mem_singleton.2 rfl)).2.1⟩

/-! ### Watching a copy -/

theorem mirrors_choosePayload (choose : PayloadMap σ ε) (parent : Option Kind) (n : NodeId) :
    Mirrors (choosePayload choose.traced parent n) (choosePayload choose parent n) := by
  refine .bind .forest fun f => .bind (.ask choose _ n) fun payload => .bind .forest fun g => ?_
  cases g.checkPayload parent (f.elementKey n) payload with
  | error e => exact .throw _
  | ok _ => exact .bind (.change _) fun keys => .pure _

theorem mirrors_draftFrom {draftOne : NodeId → Copying σ ε Draft}
    {draftOne' : NodeId → Copying (σ × List (Call ε Payload)) ε Draft}
    (hone : ∀ c, Mirrors (draftOne' c) (draftOne c)) (n : NodeId) (turns i : Nat) :
    Mirrors (draftFrom draftOne' n turns i) (draftFrom draftOne n turns i) := by
  induction turns generalizing i with
  | zero => exact .throw _
  | succ turns ih =>
      refine .bind .forest fun f => ?_
      cases (f.children n)[i]? with
      | none => exact .pure _
      | some c => exact .bind (hone c) fun d => .bind (ih (i + 1)) fun ds => .pure _

theorem mirrors_draftWithin (choose : PayloadMap σ ε) (extra depth : Nat) (parent : Option Kind)
    (n : NodeId) :
    Mirrors (draftWithin choose.traced extra depth parent n)
      (draftWithin choose extra depth parent n) := by
  induction depth generalizing parent n with
  | zero => exact .throw _
  | succ depth ih =>
      refine .bind (mirrors_choosePayload choose parent n) fun chosen => .bind .forest fun f => ?_
      exact .bind (mirrors_draftFrom (ih (some chosen.1)) n _ 0) fun ds => .pure _

theorem mirrors_copyTreeWith (choose : PayloadMap σ ε) (extra : Nat) (n : NodeId) :
    Mirrors (copyTreeWith choose.traced extra n) (copyTreeWith choose extra n) :=
  .bind .forest fun f =>
    .bind (mirrors_draftWithin choose extra (f.size + 1 + extra) none n) fun d => .change (plant d)

def copyCalls (choose : PayloadMap σ ε) (extra : Nat) (n : NodeId) (f : Forest) (s : σ) :
    List (Call ε Payload) :=
  calls (copyTreeWith choose.traced extra n) f s

theorem carriesOn_copyTreeWith {choose : PayloadMap σ ε} {extra : Nat} {s : σ} (hf : f.WellFormed)
    (hn : n < f.size)
    (hcalls : ∀ call ∈ copyCalls choose extra n f s,
      call.before.WellFormed → call.before.CarriesOn call.after) :
    f.CarriesOn (result (copyTreeWith choose extra n) f s).2.1 := by
  have hchoose : Choosing
      (AllGood fun call => call.before.WellFormed → call.before.CarriesOn call.after)
      choose.traced := by
    intro m g t r h u hcall hu
    obtain ⟨ht, hgood⟩ := Callback.allGood_traced hcall hu
    exact ⟨ht, fun hg _ => hgood hg⟩
  exact carriesOn_of_calls (mirrors_copyTreeWith choose extra n)
    (keeps_copyTreeWith hchoose extra n) hf hn hcalls

/-! ### Copies with elements like those of the source -/

def sameElements : PayloadMap Unit TreeFault := fun m f s => (.ok (.own (f.element m)), f, s)

theorem choosing_sameElements : Choosing (fun _ => True) sameElements := by
  intro m g s r h t hcall _
  cases hcall
  exact ⟨trivial, fun hg _ => .refl hg⟩

/-- What a copy with equal elements answers is what the copy with a choice does. -/
theorem outcome_copyTree (n : NodeId) (f : Forest) :
    outcome (copyTree n) f =
      match result (copyTreeWith sameElements 0 n) f () with
      | (.ok c, g, _) => (.ok c, g)
      | (.error (.fault e), g, _) | (.error (.choice e), g, _) => (.error e, g)
      | (.error .exhausted, g, _) => (.error .outOfSteps, g) := by
  have hset (h : Forest) : outcome (set h : Edit PUnit) f = (.ok ⟨⟩, h) := rfl
  rcases hres : result (copyTreeWith sameElements 0 n) f () with ⟨(e | e | _) | c, g, _⟩ <;>
  · have hrun : (copyTreeWith (fun m f s => (.ok (.own (f.element m)), f, s) :
      PayloadMap Unit TreeFault) 0 n).run.run (f, ()) = _ := hres
    simp only [copyTree, outcome_bind, outcome_get]
    rw [hrun]
    simp only [outcome_bind, hset, outcome_pure, outcome_throw]

theorem carriesOn_copyTree (hf : f.WellFormed) (hn : n < f.size) :
    f.CarriesOn (outcome (copyTree n) f).2 ∧
      ∀ c, (outcome (copyTree n) f).1 = .ok c → c < (outcome (copyTree n) f).2.size := by
  have hkeeps := keeps_copyTreeWith choosing_sameElements 0 n f ()
  rw [outcome_copyTree]
  rcases hres : result (copyTreeWith sameElements 0 n) f () with ⟨(e | e | _) | c, g, t⟩ <;>
  · obtain ⟨hfg, hc⟩ := (hkeeps _ g t hres trivial).2 hf hn
    refine ⟨hfg, fun d hd => ?_⟩
    cases hd
    try exact hc c rfl

end

end MarkdownTree.Forest
