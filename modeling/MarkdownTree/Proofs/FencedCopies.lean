import MarkdownTree.Proofs.FencedOperations

/-!
Parts of operations that call functions, started outside a fenced region, and copies of trees. A
copy is outside whenever its source is, and in a well-formed forest also when its source is in the
region: everything that the copies of metadata lead to is copied with them.
-/

namespace MarkdownTree

open Forest

variable {σ ε φ α β : Type} {P : Region} {f g h : Forest} {c n : NodeId}

/-- A part of an operation, started where `pre` holds, spares a fenced region and answers what
`post` demands, provided that the state of the function is still fine at the end; and it has been
fine before if it still is. What holds besides goes on to hold. -/
def Sparing (P : Region) (besides : Forest → Prop) (fine : σ → Prop) (pre : Forest → Prop)
    (x : Asking σ φ α) (post : α → Forest → Prop) : Prop :=
  ∀ f s r g t, Asking.result x f s = (r, g, t) → fine t → fine s ∧
    (f.Fenced P → besides f → pre f → f.Spares P g ∧ besides g ∧ ∀ a, r = .ok a → post a g)

theorem allowance_spares (P : Region) (besides : Forest → Prop) :
    Asking.Allowance (fun f => f.Fenced P ∧ besides f) fun f g => f.Spares P g ∧ besides g where
  refl hf := ⟨.refl hf.1, hf.2⟩
  ok_of_may hfg := ⟨hfg.1.fenced, hfg.2⟩
  trans hfg hgh := ⟨hfg.1.trans hgh.1, hgh.2⟩

namespace Sparing

variable {besides : Forest → Prop} {fine : σ → Prop} {pre : Forest → Prop} {x : Asking σ φ α}
  {post : α → Forest → Prop}

theorem iff_obeys : Sparing P besides fine pre x post ↔
    Asking.Obeys (fun f => f.Fenced P ∧ besides f) (fun f g => f.Spares P g ∧ besides g) fine pre x
      post := by
  simp only [Sparing, Asking.Obeys, and_imp, and_assoc]

theorem pure {a : α} (h : ∀ f, f.Fenced P → besides f → pre f → post a f) :
    Sparing P besides fine pre (Pure.pure a : Asking σ φ α) post :=
  iff_obeys.2 (.pure (allowance_spares P besides) fun f hf hpre => h f hf.1 hf.2 hpre)

theorem throw {e : φ} :
    Sparing P besides fine pre (MonadExcept.throw e : Asking σ φ α) post :=
  iff_obeys.2 (.throw (allowance_spares P besides))

theorem forest : Sparing P besides fine pre (Asking.forest : Asking σ φ Forest)
    fun a f => a = f ∧ a.Fenced P ∧ besides a ∧ pre a :=
  iff_obeys.2 ((Asking.Obeys.forest (allowance_spares P besides)).imp (fun _ _ hpre => hpre)
    fun _ _ h => ⟨h.1, h.2.1.1, h.2.1.2, h.2.2⟩)

theorem change {make : Forest → α × Forest}
    (h : ∀ f, f.Fenced P → besides f → pre f →
      f.Spares P (make f).2 ∧ besides (make f).2 ∧ post (make f).1 (make f).2) :
    Sparing P besides fine pre (Asking.change make : Asking σ φ α) post :=
  iff_obeys.2 (.change fun f hf hpre => and_assoc.2 (h f hf.1 hf.2 hpre))

theorem ask {callback : Callback σ ε α} {failure : ε → φ}
    (h : ∀ f s r g t, callback n f s = (r, g, t) → fine t → fine s ∧
      (f.Fenced P → besides f → pre f → f.Spares P g ∧ besides g ∧ ∀ a, r = .ok a → post a g)) :
    Sparing P besides fine pre (callback.ask failure n) post := by
  refine iff_obeys.2 (.ask fun f s r g t hcall ht => ?_)
  obtain ⟨hs, hspares⟩ := h f s r g t hcall ht
  exact ⟨hs, fun hf hpre => and_assoc.2 (hspares hf.1 hf.2 hpre)⟩

theorem bind {next : α → Asking σ φ β} {final : β → Forest → Prop}
    (hx : Sparing P besides fine pre x post)
    (hnext : ∀ a, Sparing P besides fine (post a) (next a) final) :
    Sparing P besides fine pre (x >>= next) final :=
  iff_obeys.2 (.bind (allowance_spares P besides) (iff_obeys.1 hx) fun a => iff_obeys.1 (hnext a))

theorem of_pre {pre' : Forest → Prop} (hx : Sparing P besides fine pre x post)
    (hpre : ∀ f, f.Fenced P → besides f → pre' f → pre f) :
    Sparing P besides fine pre' x post :=
  iff_obeys.2 ((iff_obeys.1 hx).of_pre fun f hf hp => hpre f hf.1 hf.2 hp)

end Sparing

namespace Forest

/-- A draft whose elements and metadata records are outside a region. -/
inductive Draft.Outside (P : Region) (f : Forest) : Draft → Prop
  | node {element record : Nat} {children : List Draft} (helement : f.ElementOutside P element)
      (hrecord : f.RecordOutside P record) (hchildren : ∀ d ∈ children, Draft.Outside P f d) :
      Draft.Outside P f (.node element record children)

theorem Spares.elementOutside {key : Nat} (hfg : f.Spares P g) (hk : f.ElementOutside P key) :
    g.ElementOutside P key :=
  ⟨Nat.lt_of_lt_of_le hk.lt_size hfg.elements_le, hk.not_mem⟩

theorem Spares.recordOutside {key : Nat} (hfg : f.Spares P g) (hk : f.RecordOutside P key) :
    g.RecordOutside P key :=
  ⟨Nat.lt_of_lt_of_le hk.lt_size hfg.records_le, hk.not_mem⟩

theorem Spares.draft {d : Draft} (hfg : f.Spares P g) (hd : d.Outside P f) : d.Outside P g := by
  induction hd with
  | node helement hrecord _ ih =>
      exact .node (hfg.elementOutside helement) (hfg.recordOutside hrecord) ih

mutual

theorem spares_plant : ∀ (d : Draft) (f : Forest), f.Fenced P → d.Outside P f →
    f.Spares P (plant d f).2 ∧ (plant d f).2.Outside P (plant d f).1
  | .node element record children, f, hf, hd => by
      cases hd with
      | node helement hrecord hchildren =>
          obtain ⟨hfg, hnodes⟩ := spares_plantAll children f hf hchildren
          obtain ⟨hroot, hn⟩ := hfg.fenced.addRoot (hfg.elementOutside helement)
            (hfg.recordOutside hrecord)
          have hattach := hroot.fenced.attach hn (fun k hk => hroot.outside (hnodes k hk))
            fun k hk => hroot.outside (hnodes k hk)
          exact ⟨(hfg.trans hroot).trans hattach, hattach.outside hn⟩

theorem spares_plantAll : ∀ (ds : List Draft) (f : Forest), f.Fenced P →
    (∀ d ∈ ds, d.Outside P f) →
    f.Spares P (plantAll ds f).2 ∧ ∀ n ∈ (plantAll ds f).1, (plantAll ds f).2.Outside P n
  | [], f, hf, _ => ⟨.refl hf, fun _ hn => absurd hn List.not_mem_nil⟩
  | d :: ds, f, hf, hd => by
      obtain ⟨hfg, hn⟩ := spares_plant d f hf (hd d List.mem_cons_self)
      obtain ⟨hgh, hnodes⟩ := spares_plantAll ds (plant d f).2 hfg.fenced fun d' hd' =>
        hfg.draft (hd d' (List.mem_cons_of_mem d hd'))
      refine ⟨hfg.trans hgh, fun m hm => ?_⟩
      rcases List.mem_cons.1 hm with rfl | hm
      · exact hgh.outside hn
      · exact hnodes m hm

end

section
open Asking
variable {besides : Forest → Prop} {fine : σ → Prop} {choose : PayloadMap σ ε}
  {ready : NodeId → Forest → Prop}

/-- Which nodes may be copied: their children may be as well, and they still may later on. -/
structure Readiness (P : Region) (besides : Forest → Prop) (ready : NodeId → Forest → Prop) :
    Prop where
  later (n : NodeId) (f g : Forest) (hfg : f.Spares P g) (hn : ready n f) : ready n g
  child (f : Forest) (n c : NodeId) (hf : f.Fenced P) (hb : besides f) (hn : ready n f)
    (hc : c ∈ f.children n) : ready c f

/-- What is chosen for the copy of a node is outside. -/
def ChosenOutside (P : Region) (chosen : Kind × Nat × Nat) (f : Forest) : Prop :=
  f.ElementOutside P chosen.2.1 ∧ f.RecordOutside P chosen.2.2

theorem Readiness.draftRules (hready : Readiness P besides ready) :
    DraftRules (fun f => f.Fenced P ∧ besides f) (fun f g => f.Spares P g ∧ besides g) ready
      (fun _ chosen f => ChosenOutside P chosen f) (fun _ d f => d.Outside P f) where
  allowance := allowance_spares P besides
  ready_of_may hfg hn := hready.later _ _ _ hfg.1 hn
  chosen_of_may hfg hc := ⟨hfg.1.elementOutside hc.1, hfg.1.recordOutside hc.2⟩
  drafted_of_may hfg hd := hfg.1.draft hd
  child hf hn hc := hready.child _ _ _ hf.1 hf.2 hn hc
  node hchosen hchildren := .node hchosen.1 hchosen.2 hchildren

theorem sparing_draftWithin (hready : Readiness P besides ready)
    (hchoose : ∀ parent n, Sparing P besides fine (ready n) (choosePayload choose parent n)
      (ChosenOutside P)) (extra depth : Nat) (parent : Option Kind) (n : NodeId) :
    Sparing P besides fine (ready n) (draftWithin choose extra depth parent n)
      fun d f => d.Outside P f :=
  Sparing.iff_obeys.2 (obeys_draftWithin hready.draftRules
    (fun parent n => Sparing.iff_obeys.1 (hchoose parent n)) extra depth parent n)

/-- What is added for a payload is outside, if the metadata of the node are released and an element
that is shared is outside. -/
theorem spares_addPayload {key : Nat} {payload : Payload} (hf : f.Fenced P)
    (hrelease : f.Releases P (f.recordKey n))
    (hkey : (∀ e, payload ≠ .own e) → f.ElementOutside P key) :
    f.Spares P (addPayload key n payload f).2 ∧
      (addPayload key n payload f).2.ElementOutside P (addPayload key n payload f).1.1 ∧
      (addPayload key n payload f).2.RecordOutside P (addPayload key n payload f).1.2 := by
  obtain ⟨hcopy, hrecord⟩ := hf.copyRecord hrelease
  cases payload with
  | own element =>
      obtain ⟨hadd, helement⟩ := hcopy.fenced.addElement element
      exact ⟨hcopy.trans hadd, helement, hadd.recordOutside hrecord⟩
  | shared => exact ⟨hcopy, hcopy.elementOutside (hkey nofun), hrecord⟩
  | invalid type => exact ⟨hcopy, hcopy.elementOutside (hkey nofun), hrecord⟩

theorem readiness_outside (P : Region) :
    Readiness P (fun _ => True) fun n f => f.Outside P n where
  later _ _ _ hfg hn := hfg.outside hn
  child _ _ _ hf _ hn hc := hf.outside_of_mem_children hn hc

/-- What is asked of a choice of elements: as long as it is fine, it spares a fenced region when it
is called about nodes outside. -/
def ChoosingOutside (P : Region) (fine : σ → Prop) (choose : PayloadMap σ ε) : Prop :=
  ∀ n f s r g t, choose n f s = (r, g, t) → fine t → fine s ∧
    (f.Fenced P → f.Outside P n → f.Spares P g)

theorem sparing_choosePayload (hchoose : ChoosingOutside P fine choose) (parent : Option Kind)
    (n : NodeId) :
    Sparing P (fun _ => True) fine (fun f => f.Outside P n) (choosePayload choose parent n)
      (ChosenOutside P) := by
  refine .bind .forest fun f₀ => ?_
  have hask : Sparing P (fun _ => True) fine
      (fun f => f₀ = f ∧ f₀.Fenced P ∧ True ∧ f₀.Outside P n) (choose.ask CopyFailure.choice n)
      fun _ f => f.Outside P n ∧ f.ElementOutside P (f₀.elementKey n) := by
    refine .ask fun f s r g t hcall ht => ?_
    obtain ⟨hs, hspares⟩ := hchoose n f s r g t hcall ht
    refine ⟨hs, fun hf _ hpre => ?_⟩
    obtain ⟨rfl, -, -, hn⟩ := hpre
    have hfg := hspares hf hn
    exact ⟨hfg, trivial, fun _ _ => ⟨hfg.outside hn, hfg.elementOutside (hf.elementOutside hn)⟩⟩
  refine hask.bind fun payload => .bind .forest fun f => ?_
  cases f.checkPayload parent (f₀.elementKey n) payload with
  | error e => exact .throw
  | ok _ =>
      refine .bind (.change fun g hg _ hpre => ?_) fun keys => .pure fun _ _ _ h => h
      obtain ⟨rfl, -, -, hn, hkey⟩ := hpre
      obtain ⟨hspares, hchosen⟩ := spares_addPayload hg (hg.releases (hg.recordOutside hn))
        fun _ => hkey
      exact ⟨hspares, trivial, hchosen⟩

theorem sparing_copyTreeWith (hchoose : ChoosingOutside P fine choose) (extra : Nat) (n : NodeId) :
    Sparing P (fun _ => True) fine (fun f => f.Outside P n) (copyTreeWith choose extra n)
      fun c f => f.Outside P c := by
  refine .bind .forest fun f => ?_
  have hdraft := (sparing_draftWithin (readiness_outside P) (sparing_choosePayload hchoose) extra
    (f.size + 1 + extra) none n).of_pre
      fun g _ _ (hg : f = g ∧ f.Fenced P ∧ True ∧ f.Outside P n) => hg.1 ▸ hg.2.2.2
  refine hdraft.bind fun d => .change fun g hg _ hd => ?_
  obtain ⟨hspares, hout⟩ := spares_plant d g hg hd
  exact ⟨hspares, trivial, hout⟩

theorem Fenced.copyTree (hf : f.Fenced P) (hn : f.Outside P n) :
    f.Spares P (outcome (copyTree n) f).2 ∧
      ∀ c, (outcome (copyTree n) f).1 = .ok c → (outcome (copyTree n) f).2.Outside P c := by
  have hchoose : ChoosingOutside P (fun _ => True) sameElements := by
    intro m g s r h t hcall _
    cases hcall
    exact ⟨trivial, fun hg _ => .refl hg⟩
  rw [outcome_copyTree]
  rcases hres : result (copyTreeWith sameElements 0 n) f () with ⟨(e | e | _) | c, g, _⟩ <;>
  · obtain ⟨hfg, -, hout⟩ :=
      (sparing_copyTreeWith hchoose 0 n f () _ _ _ hres trivial).2 hf trivial hn
    refine ⟨hfg, fun d hd => ?_⟩
    cases hd
    try exact hout c rfl

/-- A well-formed forest whose elements refer to no nodes. -/
structure Tidy (f : Forest) : Prop where
  wellFormed : f.WellFormed
  plain (key : Nat) (e : Element) (he : f.elements[key]? = some e) :
    Value.nodesEntries e.fields = []

theorem Tidy.nodes_element (hf : f.Tidy) (n : NodeId) :
    Value.nodesEntries (f.element n).fields = [] := by
  rw [Forest.element]
  cases he : f.elements[f.elementKey n]? with
  | none => rfl
  | some e => exact hf.plain _ e he

/-- What is added for an element of its own keeps a forest tidy. -/
theorem Tidy.addPayload {key : Nat} {e : Element} (hf : f.Tidy)
    (hg : (addPayload key n (.own e) f).2.WellFormed) (he : Value.nodesEntries e.fields = []) :
    (addPayload key n (.own e) f).2.Tidy where
  wellFormed := hg
  plain k e' hget := by
    change ((f.copyRecord (f.recordKey n)).2.elements.push e)[k]? = some e' at hget
    rw [Array.getElem?_push] at hget
    split at hget
    · cases hget
      exact he
    rcases Nat.lt_or_ge k f.elements.size with hlt | hge
    · rw [elements_copyRecord_old _ hlt] at hget
      exact hf.plain k e' hget
    · have hlt := (Array.getElem?_eq_some_iff.1 hget).1
      rw [size_elements_copyRecord] at hlt
      have hi := List.getElem?_eq_getElem (Nat.sub_lt_left_of_lt_add hge hlt)
      have hnew := elements_copyRecord_new hi
      rw [Nat.add_sub_cancel' hge, hget] at hnew
      cases hold : f.elements[(f.recordElements (f.recordKey n))[k - f.elements.size]]? with
      | none =>
          rw [hold] at hnew
          cases hnew
          rfl
      | some old =>
          rw [hold] at hnew
          cases hnew
          exact hf.plain _ _ hold

theorem sparing_choosePayload_same (P : Region) (parent : Option Kind) (n : NodeId) :
    Sparing P Tidy (fun _ => True) (fun f => n < f.size) (choosePayload sameElements parent n)
      (ChosenOutside P) := by
  refine .bind .forest fun f₀ => ?_
  have hask : Sparing P Tidy (fun _ => True)
      (fun f => f₀ = f ∧ f₀.Fenced P ∧ f₀.Tidy ∧ n < f₀.size)
      ((sameElements : PayloadMap Unit TreeFault).ask CopyFailure.choice n)
      fun payload f => payload = .own (f.element n) ∧ n < f.size ∧ f₀ = f := by
    refine .ask fun f s r g t hcall _ => ⟨trivial, fun hf htidy hpre => ?_⟩
    cases hcall
    obtain ⟨rfl, -, -, hn⟩ := hpre
    refine ⟨.refl hf, htidy, fun a ha => ?_⟩
    cases ha
    exact ⟨rfl, hn, rfl⟩
  refine hask.bind fun payload => .bind .forest fun f => ?_
  cases hcheck : f.checkPayload parent (f₀.elementKey n) payload with
  | error e => exact .throw
  | ok _ =>
      refine .bind (.change fun g hg htidy hpre => ?_) fun keys => .pure fun _ _ _ h => h
      obtain ⟨rfl, -, -, rfl, hn, rfl⟩ := hpre
      have hwf := htidy.wellFormed
      have hown : ¬ ∀ e, Payload.own (f₀.element n) ≠ .own e := fun h => h _ rfl
      obtain ⟨hspares, hchosen⟩ := spares_addPayload hg (hwf.releases P (f₀.recordKey n))
        fun h => absurd h hown
      have hcarry := (carriesOn_addPayload hwf (hwf.elementKey_lt n hn) hcheck n).1
      exact ⟨hspares, htidy.addPayload hcarry.wellFormed (htidy.nodes_element n), hchosen⟩

mutual

theorem elements_plant : ∀ (d : Draft) (f : Forest), (plant d f).2.elements = f.elements
  | .node element record children, f => by
      have hdata := sameData_attach ((plantAll children f).2.addRoot element record).2
        (plantAll children f).2.size (plantAll children f).1 (plantAll children f).1
      exact hdata.elements_eq.trans (elements_plantAll children f)

theorem elements_plantAll : ∀ (ds : List Draft) (f : Forest),
    (plantAll ds f).2.elements = f.elements
  | [], _ => rfl
  | d :: ds, f => (elements_plantAll ds (plant d f).2).trans (elements_plant d f)

end

/-- A copy of a tree spares every fenced region and is outside, wherever its source is. -/
theorem Tidy.spares_copyTree (hf : f.Fenced P) (htidy : f.Tidy) (hn : n < f.size) :
    f.Spares P (outcome (copyTree n) f).2 ∧
      (∀ (key : Nat) (e : Element), (outcome (copyTree n) f).2.elements[key]? = some e →
        Value.nodesEntries e.fields = []) ∧
      ∀ c, (outcome (copyTree n) f).1 = .ok c → (outcome (copyTree n) f).2.Outside P c := by
  have hready : Readiness P Tidy fun n f => n < f.size :=
    ⟨fun _ _ _ hfg hn => Nat.lt_of_lt_of_le hn hfg.size_le, fun _ _ _ _ htidy _ hc =>
      htidy.wellFormed.lt_size_of_mem hc⟩
  have hdraft := sparing_draftWithin hready (sparing_choosePayload_same P) 0 (f.size + 1) none n
  rw [outcome_copyTree, result_copyTreeWith, Nat.add_zero]
  rcases hdrafted : result (draftWithin sameElements 0 (f.size + 1) none n) f ()
    with ⟨(e | e | _) | d, g, _⟩
  case ok =>
    obtain ⟨hfg, hg, hd⟩ := (hdraft f () _ _ _ hdrafted trivial).2 hf htidy hn
    obtain ⟨hgh, hout⟩ := spares_plant d g hfg.fenced (hd d rfl)
    refine ⟨hfg.trans hgh, fun key e he => ?_, fun c hc => ?_⟩
    · have hold : g.elements[key]? = some e := elements_plant d g ▸ he
      exact hg.plain key e hold
    · cases hc
      exact hout
  all_goals
    obtain ⟨hfg, hg, -⟩ := (hdraft f () _ _ _ hdrafted trivial).2 hf htidy hn
    refine ⟨hfg, hg.plain, fun c hc => ?_⟩
    cases hc

end

end Forest

end MarkdownTree
