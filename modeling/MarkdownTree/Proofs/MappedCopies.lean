import MarkdownTree.Proofs.DuplicatedNodes
import MarkdownTree.Proofs.JudgedChoices

/-!
Copies with chosen elements. The choice is asked about the nodes of a tree in pre-order, once each,
until an answer is refused. If none is, the copy has the shape of the tree, the chosen elements in
the places of the nodes that they were chosen for, and equal metadata; the forest lies unchanged
beside it. The choice may do anything but change the forest, and the elements of the tree may stand
where they would not be let.
-/

namespace MarkdownTree.Forest

open Asking

variable {σ ε α β : Type} {f g h k : Forest} {c m n root : NodeId} {element record depth : Nat}
  {above : Option Kind} {call : Call ε Payload} {calls more : List (Call ε Payload)} {d : Draft}
  {ds : List Draft} {nodes : List NodeId}

/-! ### What a call stands for -/

/-- A call that finds the forest unchanged, gets the node with the element that it has, and changes
nothing. -/
structure Fair (f : Forest) (call : Call ε Payload) : Prop where
  within : f.Within call.before
  element_eq : call.before.element call.node = f.element call.node
  after_eq : call.after = call.before

/-- The element and the metadata record with some numbers are those that the copy of a node should
have after a call about it: the element of the node itself if that was chosen, or the new element
that was chosen; and a new record that is equal but for twins of the nodes that it refers to. -/
structure Fills (f g : Forest) (call : Call ε Payload) (element record : Nat) : Prop where
  element_lt : element < g.elements.size
  shared (h : call.answer = .ok .shared) : element = f.elementKey call.node
  own (e : Element) (h : call.answer = .ok (.own e)) :
    f.elements.size ≤ element ∧ g.elements[element]? = some e
  record_lt : record < g.records.size
  record_new : f.records.size ≤ record
  metadata : ∃ listed twin, f.Duplicates g listed twin ∧
    (∀ m ∈ Value.nodesEntries (f.metadata call.node), m ∈ listed) ∧
    g.records[record]? = some (Value.mapNodesEntries twin (f.metadata call.node))

theorem Fills.within (hg : g.Linked) (hfill : f.Fills g call element record) (hgh : g.Within h) :
    f.Fills h call element record where
  element_lt := Nat.lt_of_lt_of_le hfill.element_lt hgh.elements_le
  shared := hfill.shared
  own e he := by
    obtain ⟨hle, heq⟩ := hfill.own e he
    exact ⟨hle, (hgh.elements_eq element hfill.element_lt).trans heq⟩
  record_lt := Nat.lt_of_lt_of_le hfill.record_lt hgh.records_le
  record_new := hfill.record_new
  metadata := by
    obtain ⟨listed, twin, hdup, hlisted, heq⟩ := hfill.metadata
    exact ⟨listed, twin, hdup.within hg hgh, hlisted,
      (hgh.records_eq record hfill.record_lt).trans heq⟩

/-- The tree below `c` in `g` is a copy of the tree below `n` in `f` as the calls chose it. -/
inductive Replicates (f g : Forest) (calls : List (Call ε Payload)) : NodeId → NodeId → Prop
  | node {call : Call ε Payload} {c : NodeId} (hcall : call ∈ calls) (hnew : f.size ≤ c)
      (hlt : c < g.size) (hfill : f.Fills g call (g.elementKey c) (g.recordKey c))
      (hchildren : List.Forall₂ (Replicates f g calls) (f.children call.node) (g.children c)) :
      Replicates f g calls call.node c

/-! ### Drafts -/

mutual

/-- A draft is one of the tree below a node as the calls chose it. -/
def Sketches (f g : Forest) (calls : List (Call ε Payload)) : Draft → NodeId → Prop
  | .node element record children, n =>
    (∃ call ∈ calls, call.node = n ∧ f.Fills g call element record) ∧
      SketchesAll f g calls children (f.children n)

/-- Drafts are ones of the trees below nodes, one after the other. -/
def SketchesAll (f g : Forest) (calls : List (Call ε Payload)) : List Draft → List NodeId → Prop
  | [], [] => True
  | d :: ds, n :: nodes => Sketches f g calls d n ∧ SketchesAll f g calls ds nodes
  | _, _ => False

end

mutual

theorem Sketches.mono (hg : g.Linked) (hgh : g.Within h) (hsub : calls ⊆ more) :
    ∀ (d : Draft) (n : NodeId), f.Sketches g calls d n → f.Sketches h more d n
  | .node element record children, n, hd => by
      unfold Sketches at hd ⊢
      obtain ⟨⟨call, hcall, hnode, hfill⟩, hchildren⟩ := hd
      exact ⟨⟨call, hsub hcall, hnode, hfill.within hg hgh⟩,
        SketchesAll.mono hg hgh hsub children (f.children n) hchildren⟩

theorem SketchesAll.mono (hg : g.Linked) (hgh : g.Within h) (hsub : calls ⊆ more) :
    ∀ (ds : List Draft) (nodes : List NodeId), f.SketchesAll g calls ds nodes →
      f.SketchesAll h more ds nodes
  | [], [], _ => trivial
  | d :: ds, n :: nodes, hds =>
      ⟨Sketches.mono hg hgh hsub d n hds.1, SketchesAll.mono hg hgh hsub ds nodes hds.2⟩
  | [], _ :: _, hds => hds.elim
  | _ :: _, [], hds => hds.elim

end

mutual

theorem Sketches.inRange : ∀ (d : Draft) (n : NodeId), f.Sketches g calls d n → d.InRange g
  | .node element record children, n, hd => by
      unfold Sketches at hd
      obtain ⟨⟨call, -, -, hfill⟩, hchildren⟩ := hd
      exact .node hfill.element_lt hfill.record_lt
        (SketchesAll.inRange children (f.children n) hchildren)

theorem SketchesAll.inRange : ∀ (ds : List Draft) (nodes : List NodeId),
    f.SketchesAll g calls ds nodes → ∀ d ∈ ds, d.InRange g
  | [], [], _, _, hd => absurd hd List.not_mem_nil
  | d :: ds, n :: nodes, hds, d', hd' =>
      (List.mem_cons.1 hd').elim (fun heq => heq ▸ Sketches.inRange d n hds.1)
        (SketchesAll.inRange ds nodes hds.2 d')
  | [], _ :: _, hds, _, _ => hds.elim
  | _ :: _, [], hds, _, _ => hds.elim

end

/-! ### Planting -/

mutual

/-- Planted trees are made of new nodes. -/
theorem within_plant : ∀ (d : Draft) (g : Forest),
    g.Within (plant d g).2 ∧ g.size ≤ (plant d g).1 ∧ (plant d g).1 < (plant d g).2.size
  | .node element record children, g => by
      obtain ⟨hwithin, hroots⟩ := within_plantAll children g
      have hdata := sameData_attach ((plantAll children g).2.addRoot element record).2
        (plantAll children g).2.size (plantAll children g).1 (plantAll children g).1
      refine ⟨(hwithin.trans (within_addRoot _ element record)).attach hwithin.size_le
        (fun k hk => (hroots k hk).1) _, hwithin.size_le, ?_⟩
      have hlast : (plantAll children g).2.size <
          ((plantAll children g).2.addRoot element record).2.size := by
        rw [size_addRoot]
        exact Nat.lt_succ_self _
      exact hdata.size_eq ▸ hlast

theorem within_plantAll : ∀ (ds : List Draft) (g : Forest), g.Within (plantAll ds g).2 ∧
    ∀ k ∈ (plantAll ds g).1, g.size ≤ k ∧ k < (plantAll ds g).2.size
  | [], g => ⟨.refl g, fun _ hk => absurd hk List.not_mem_nil⟩
  | d :: ds, g => by
      obtain ⟨hfirst, hge, hlt⟩ := within_plant d g
      obtain ⟨hrest, hroots⟩ := within_plantAll ds (plant d g).2
      refine ⟨hfirst.trans hrest, fun k hk => ?_⟩
      rcases List.mem_cons.1 hk with rfl | hk
      · exact ⟨hge, Nat.lt_of_lt_of_le hlt hrest.size_le⟩
      · exact ⟨Nat.le_trans hfirst.size_le (hroots k hk).1, (hroots k hk).2⟩

end

/-- From a number on, the nodes of a forest have the same children, elements and records in another
one. -/
structure KeptFrom (start : Nat) (g k : Forest) : Prop where
  size_le : g.size ≤ k.size
  children_eq (m : NodeId) (hm : start ≤ m) (hlt : m < g.size) : k.children m = g.children m
  elementKey_eq (m : NodeId) (hm : start ≤ m) (hlt : m < g.size) :
    k.elementKey m = g.elementKey m
  recordKey_eq (m : NodeId) (hm : start ≤ m) (hlt : m < g.size) : k.recordKey m = g.recordKey m

theorem Within.keptFrom (hgh : g.Within h) (start : Nat) : KeptFrom start g h :=
  ⟨hgh.size_le, fun _ _ hlt => hgh.children_eq hlt, fun _ _ hlt => hgh.elementKey_eq hlt,
    fun _ _ hlt => hgh.recordKey_eq hlt⟩

theorem KeptFrom.mono {start start' : Nat} (hk : KeptFrom start g k) (hle : start ≤ start') :
    KeptFrom start' g k where
  size_le := hk.size_le
  children_eq m hm := hk.children_eq m (Nat.le_trans hle hm)
  elementKey_eq m hm := hk.elementKey_eq m (Nat.le_trans hle hm)
  recordKey_eq m hm := hk.recordKey_eq m (Nat.le_trans hle hm)

theorem KeptFrom.trans {start : Nat} (hgh : KeptFrom start g h) (hhk : KeptFrom start h k) :
    KeptFrom start g k where
  size_le := Nat.le_trans hgh.size_le hhk.size_le
  children_eq m hm hlt := (hhk.children_eq m hm (Nat.lt_of_lt_of_le hlt hgh.size_le)).trans
    (hgh.children_eq m hm hlt)
  elementKey_eq m hm hlt := (hhk.elementKey_eq m hm (Nat.lt_of_lt_of_le hlt hgh.size_le)).trans
    (hgh.elementKey_eq m hm hlt)
  recordKey_eq m hm hlt := (hhk.recordKey_eq m hm (Nat.lt_of_lt_of_le hlt hgh.size_le)).trans
    (hgh.recordKey_eq m hm hlt)

/-- A root that is put over trees leaves their nodes as they are, but for the parents of their
roots. -/
theorem keptFrom_join (g : Forest) (nodes : List NodeId) (element record : Nat) :
    KeptFrom 0 g ((g.addRoot element record).2.attach g.size nodes nodes) := by
  have hdata := sameData_attach (g.addRoot element record).2 g.size nodes nodes
  have hlast : g.size < (g.addRoot element record).2.size := by
    rw [size_addRoot]
    exact Nat.lt_succ_self _
  refine ⟨hdata.size_eq ▸ Nat.le_of_lt hlast, fun m _ hlt => ?_, fun m _ hlt => ?_,
    fun m _ hlt => ?_⟩
  · rw [children_attach hlast, if_neg (Nat.ne_of_lt hlt), children_addRoot]
  · rw [hdata.elementKey_eq, elementKey_addRoot, if_neg (Nat.ne_of_lt hlt)]
  · rw [hdata.recordKey_eq, recordKey_addRoot, if_neg (Nat.ne_of_lt hlt)]

mutual

/-- Planting a draft makes the copy that was drafted. -/
theorem replicates_plant : ∀ (d : Draft) (n : NodeId) (g : Forest), f.Sketches k calls d n →
    f.size ≤ g.size → KeptFrom g.size (plant d g).2 k → f.Replicates k calls n (plant d g).1
  | .node element record children, n, g, hd, hle, hk => by
      unfold Sketches at hd
      obtain ⟨⟨call, hcall, rfl, hfill⟩, hchildren⟩ := hd
      change KeptFrom g.size (((plantAll children g).2.addRoot element record).2.attach
        (plantAll children g).2.size (plantAll children g).1 (plantAll children g).1) k at hk
      change f.Replicates k calls call.node (plantAll children g).2.size
      have hjoin := (keptFrom_join (plantAll children g).2 (plantAll children g).1 element
        record).mono (Nat.zero_le g.size)
      have hbelow := replicates_plantAll children (f.children call.node) g hchildren hle
        (hjoin.trans hk)
      have hge := (within_plantAll children g).1.size_le
      generalize (plantAll children g).2 = h at hk hge ⊢
      generalize (plantAll children g).1 = nodes at hk hbelow ⊢
      have hdata := sameData_attach (h.addRoot element record).2 h.size nodes nodes
      have hlast : h.size < (h.addRoot element record).2.size := by
        rw [size_addRoot]
        exact Nat.lt_succ_self _
      have hlt := hdata.size_eq ▸ hlast
      refine .node hcall (Nat.le_trans hle hge) (Nat.lt_of_lt_of_le hlt hk.size_le) ?_ ?_
      · rw [hk.elementKey_eq h.size hge hlt, hk.recordKey_eq h.size hge hlt, hdata.elementKey_eq,
          hdata.recordKey_eq, elementKey_addRoot, recordKey_addRoot, if_pos rfl, if_pos rfl]
        exact hfill
      · rw [hk.children_eq h.size hge hlt, children_attach hlast, if_pos rfl]
        exact hbelow

theorem replicates_plantAll : ∀ (ds : List Draft) (nodes : List NodeId) (g : Forest),
    f.SketchesAll k calls ds nodes → f.size ≤ g.size → KeptFrom g.size (plantAll ds g).2 k →
    List.Forall₂ (f.Replicates k calls) nodes (plantAll ds g).1
  | [], [], _, _, _, _ => .nil
  | d :: ds, n :: nodes, g, hds, hle, hk => by
      have hfirst := (within_plant d g).1
      have hrest := (within_plantAll ds (plant d g).2).1
      refine .cons (replicates_plant d n g hds.1 hle ((hrest.keptFrom g.size).trans hk)) ?_
      exact replicates_plantAll ds nodes (plant d g).2 hds.2 (Nat.le_trans hle hfirst.size_le)
        (hk.mono hfirst.size_le)
  | [], _ :: _, _, hds, _, _ => hds.elim
  | _ :: _, [], _, hds, _, _ => hds.elim

end

/-! ### Asking -/

/-- A part of a copy, started in a forest, adds to it, makes calls that are fair and notes them, and
comes to what `post` demands of these calls, the answer or failure, and the forest. -/
def Runs (f : Forest) (x : Copying (σ × List (Call ε Payload)) ε α) (g : Forest)
    (post : List (Call ε Payload) → Except (CopyFailure ε) α → Forest → Prop) : Prop :=
  ∀ s noted, ∃ more r h t, result x g (s, noted) = (r, h, t, noted ++ more) ∧ g.Within h ∧
    h.Linked ∧ (∀ call ∈ more, f.Fair call) ∧ post more r h

namespace Runs

theorem pure {a : α} {post : List (Call ε Payload) → Except (CopyFailure ε) α → Forest → Prop}
    (hg : g.Linked) (h : post [] (.ok a) g) :
    f.Runs (Pure.pure a : Copying (σ × List (Call ε Payload)) ε α) g post :=
  fun s noted => ⟨[], .ok a, g, s, by rw [List.append_nil]; rfl, .refl g, hg, nofun, h⟩

theorem bind {x : Copying (σ × List (Call ε Payload)) ε α}
    {next : α → Copying (σ × List (Call ε Payload)) ε β}
    {mid : List (Call ε Payload) → Except (CopyFailure ε) α → Forest → Prop}
    {post : List (Call ε Payload) → Except (CopyFailure ε) β → Forest → Prop} (hx : f.Runs x g mid)
    (hstop : ∀ calls e h, mid calls (.error e) h → post calls (.error e) h)
    (hnext : ∀ calls a h, g.Within h → h.Linked → mid calls (.ok a) h →
      f.Runs (next a) h fun more r k => post (calls ++ more) r k) :
    f.Runs (x >>= next) g post := by
  intro s noted
  obtain ⟨calls, r, h, t, hres, hgh, hh, hfair, hmid⟩ := hx s noted
  rcases r with e | a
  · exact ⟨calls, .error e, h, t, by rw [result_bind, hres], hgh, hh, hfair, hstop calls e h hmid⟩
  · obtain ⟨more, r, k, u, hres', hhk, hk, hfair', hpost⟩ := hnext calls a h hgh hh hmid t
      (noted ++ calls)
    refine ⟨calls ++ more, r, k, u, ?_, hgh.trans hhk, hk, fun call hcall => ?_, hpost⟩
    · rw [result_bind, hres, ← List.append_assoc]
      exact hres'
    · exact (List.mem_append.1 hcall).elim (hfair call) (hfair' call)

theorem forest {next : Forest → Copying (σ × List (Call ε Payload)) ε α}
    {post : List (Call ε Payload) → Except (CopyFailure ε) α → Forest → Prop}
    (h : f.Runs (next g) g post) : f.Runs (Asking.forest >>= next) g post := by
  intro s noted
  obtain ⟨more, r, h, t, hres, hkept⟩ := h s noted
  exact ⟨more, r, h, t, by rw [result_bind, result_forest]; exact hres, hkept⟩

theorem throw {e : CopyFailure ε}
    {post : List (Call ε Payload) → Except (CopyFailure ε) α → Forest → Prop} (hg : g.Linked)
    (h : post [] (.error e) g) :
    f.Runs (MonadExcept.throw e : Copying (σ × List (Call ε Payload)) ε α) g post :=
  fun s noted => ⟨[], .error e, g, s, by rw [List.append_nil]; rfl, .refl g, hg, nofun, h⟩

theorem change {make : Forest → α × Forest}
    {post : List (Call ε Payload) → Except (CopyFailure ε) α → Forest → Prop}
    (hgh : g.Within (make g).2) (hh : (make g).2.Linked) (h : post [] (.ok (make g).1) (make g).2) :
    f.Runs (Asking.change make : Copying (σ × List (Call ε Payload)) ε α) g post :=
  fun s noted => ⟨[], .ok (make g).1, (make g).2, s, by rw [List.append_nil]; rfl, hgh,
    hh, nofun, h⟩

end Runs

/-- The choice changes nothing when it is called. -/
def ChangesNothing (choose : PayloadMap σ ε) : Prop :=
  ∀ n g s, (choose n g s).2.1 = g

/-- A call about a node is noted, and it is fair if the choice changes nothing. -/
theorem Runs.ask {choose : PayloadMap σ ε} (hchoose : ChangesNothing choose) (hf : f.Linked)
    (hfg : f.Within g) (hg : g.Linked) (hn : n < f.size) :
    f.Runs (choose.traced.ask .choice n) g fun calls r h => h = g ∧ ∃ call : Call ε Payload,
      calls = [call] ∧ call.node = n ∧
        (∀ e, r = .error e → ∃ e', call.answer = .error e' ∧ e = .choice e') ∧
        ∀ payload, r = .ok payload → call.answer = .ok payload := by
  intro s noted
  rcases hcall : choose n g s with ⟨answer, g', t⟩
  obtain rfl : g' = g := by
    have hsame := hchoose n g s
    rwa [hcall] at hsame
  have hfair : ∀ call ∈ [(⟨n, g', answer, g'⟩ : Call ε Payload)], f.Fair call := by
    intro call hmem
    cases List.mem_singleton.1 hmem
    exact ⟨hfg, hfg.linked_element_eq hf hn, rfl⟩
  refine ⟨[⟨n, g', answer, g'⟩], answer.mapError .choice, g', t, ?_, .refl g', hg, hfair, rfl, _,
    rfl, rfl, fun e hr => ?_, fun payload hr => ?_⟩
  · rw [result_ask, Callback.traced, hcall]
    cases answer <;> rfl
  · cases answer with
    | error e' => exact ⟨e', rfl, (Except.error.inj hr).symm⟩
    | ok payload => cases hr
  · cases answer with
    | error e => cases hr
    | ok payload' => rw [Except.ok.inj hr]

theorem Within.kindAt_elementKey (hfg : f.Within g) (hf : f.Linked) (hn : n < f.size) :
    g.kindAt (g.elementKey n) = f.kind n := by
  rw [hfg.elementKey_eq hn, hfg.kindAt_eq (hf.elementKey_lt n hn)]
  rfl

/-- The kind that a call chose is that of its payload. -/
theorem chosenKind?_eq (hf : f.Linked) (hfg : f.Within g) (hn : call.node < f.size)
    {payload : Payload} (hanswer : call.answer = .ok payload)
    (hvalid : ∀ type, payload ≠ .invalid type) :
    f.chosenKind? call = some (g.payloadKind (g.elementKey call.node) payload) := by
  rw [chosenKind?, hanswer]
  cases payload with
  | invalid type => exact absurd rfl (hvalid type)
  | shared => rw [payloadKind, hfg.kindAt_elementKey hf hn]
  | own e => rfl

/-- A call is judged as the copy judges it. -/
theorem judge_eq (hf : f.Linked) (hfg : f.Within g) (hn : call.node < f.size) {payload : Payload}
    (hanswer : call.answer = .ok payload) :
    f.judge above call =
      (g.checkPayload above (g.elementKey call.node) payload).mapError CopyFailure.fault := by
  have hkind := hfg.kindAt_elementKey hf hn
  have hfits (kind : Kind) : (fits above kind : Except (CopyFailure ε) Unit) =
      (above.elim (.ok ()) fun k => checkKinds k kind).mapError CopyFailure.fault := by
    cases above with
    | none => rfl
    | some k =>
        simp only [fits, Option.elim, checkKinds]
        split <;> rfl
  rw [judge, hanswer]
  cases payload with
  | invalid type => rfl
  | shared =>
      change fits above (f.kind call.node) = _
      rw [hfits, ← hkind]
      cases above <;> rfl
  | own e =>
      change fits above e.kind = _
      rw [hfits]
      cases above <;> rfl

/-- What is made for a node whose answer is accepted is what the copy of the node should have. -/
theorem fills_addPayload (call : Call ε Payload) (hf : f.Linked) (hfg : f.Within g)
    (hg : g.Linked) (hn : call.node < f.size) {payload : Payload}
    (hanswer : call.answer = .ok payload) (hvalid : ∀ type, payload ≠ .invalid type) :
    g.Within (addPayload (g.elementKey call.node) call.node payload g).2 ∧
      (addPayload (g.elementKey call.node) call.node payload g).2.Linked ∧
      f.Fills (addPayload (g.elementKey call.node) call.node payload g).2 call
        (addPayload (g.elementKey call.node) call.node payload g).1.1
        (addPayload (g.elementKey call.node) call.node payload g).1.2 := by
  have hwithin := within_copyRecord g (g.recordKey call.node)
  have hlinked := hg.copyRecord (g.recordKey call.node)
  have hnew := Nat.le_trans hfg.records_le (le_copyRecord g (g.recordKey call.node))
  have hrecord := copyRecord_lt g (g.recordKey call.node)
  have hmetadata := hfg.duplicates_copyRecord hf hg hn
  have hkey : g.elementKey call.node = f.elementKey call.node := hfg.elementKey_eq hn
  cases payload with
  | invalid type => exact absurd rfl (hvalid type)
  | shared =>
      have hlt := Nat.lt_of_lt_of_le (hf.elementKey_lt _ hn)
        (Nat.le_trans hfg.elements_le hwithin.elements_le)
      refine ⟨hwithin, hlinked, hkey ▸ hlt, fun _ => hkey, fun e he => ?_, hrecord, hnew, hmetadata⟩
      rw [hanswer] at he
      cases he
  | own e =>
      have hadd := within_addElement (g.copyRecord (g.recordKey call.node)).2 e
      obtain ⟨listed, twin, hdup, hlisted, hcopy⟩ := hmetadata
      refine ⟨hwithin.trans hadd, hlinked.addElement e, ?_, fun h => ?_, fun e' he => ?_, hrecord,
        hnew, listed, twin, hdup.within hlinked hadd, hlisted, hcopy⟩
      · simp [addPayload, addElement]
      · rw [hanswer] at h
        cases h
      · rw [hanswer] at he
        cases he
        refine ⟨Nat.le_trans hfg.elements_le hwithin.elements_le, ?_⟩
        simp [addPayload, addElement]

section
variable {choose : PayloadMap σ ε}

/-- One call is made about a node, and what follows is what it is judged to be. -/
theorem runs_choosePayload (hchoose : ChangesNothing choose) (hf : f.Linked) (hfg : f.Within g)
    (hg : g.Linked) (hn : n < f.size) (above : Option Kind) :
    f.Runs (choosePayload choose.traced above n) g fun calls r h => ∃ call, calls = [call] ∧
      call.node = n ∧ (∀ e, r = .error e → f.judge above call = .error e) ∧
      ∀ chosen, r = .ok chosen → f.judge above call = .ok () ∧
        f.chosenKind? call = some chosen.1 ∧ f.Fills h call chosen.2.1 chosen.2.2 := by
  refine .forest ((Runs.ask hchoose hf hfg hg hn).bind (fun calls e h hcall => ?_)
    fun calls payload h hgh hh hcall => .forest ?_)
  · obtain ⟨-, call, rfl, hnode, herror, -⟩ := hcall
    refine ⟨call, rfl, hnode, ?_, fun _ hr => by cases hr⟩
    rintro _ ⟨⟩
    obtain ⟨e', hanswer, rfl⟩ := herror e rfl
    rw [judge, hanswer]
  · obtain ⟨rfl, call, rfl, rfl, -, hok⟩ := hcall
    have hanswer := hok payload rfl
    have hjudge : f.judge above call = _ := judge_eq hf hfg hn hanswer
    -- The call is judged by the same check, so it is refused in both or in neither.
    cases hcheck : h.checkPayload above (h.elementKey call.node) payload with
    | error e =>
        rw [hcheck] at hjudge
        refine .throw hh ⟨call, rfl, rfl, ?_, fun _ hr => by cases hr⟩
        rintro e' ⟨⟩
        exact hjudge
    | ok u =>
        rw [hcheck] at hjudge
        have hvalid (type : String) : payload ≠ .invalid type := by
          rintro rfl
          cases hcheck
        obtain ⟨hwithin, hlinked, hfill⟩ := fills_addPayload call hf hfg hg hn hanswer hvalid
        have hadd : f.Runs (Asking.change (addPayload (h.elementKey call.node) call.node payload) :
            Copying (σ × List (Call ε Payload)) ε (Nat × Nat)) h fun calls r k => calls = [] ∧
              r = .ok (addPayload (h.elementKey call.node) call.node payload h).1 ∧
              k = (addPayload (h.elementKey call.node) call.node payload h).2 :=
          .change hwithin hlinked ⟨rfl, rfl, rfl⟩
        refine hadd.bind (fun _ _ _ hr => by cases hr.2.1) fun _ keys k _ hk hkeys => .pure hk ?_
        obtain ⟨rfl, hkeys, rfl⟩ := hkeys
        refine ⟨call, rfl, rfl, fun _ hr => (by cases hr), ?_⟩
        rintro chosen ⟨⟩
        rw [Except.ok.inj hkeys]
        exact ⟨hjudge, chosenKind?_eq hf hfg hn hanswer hvalid, hfill⟩

/-- What drafting the tree below a node comes to: the calls that have to be made, and a draft of the
tree if they are all accepted. -/
def Drafting (f : Forest) (above : Option Kind) (n : NodeId) (calls : List (Call ε Payload))
    (r : Except (CopyFailure ε) Draft) (h : Forest) : Prop :=
  f.Asked [(above, n)] calls (r.map fun _ => ()) ∧ ∀ d, r = .ok d → f.Sketches h calls d n

/-- The drafts of the children of a node are made one after the other. -/
theorem runs_draftFrom {draftOne : NodeId → Copying (σ × List (Call ε Payload)) ε Draft}
    (hfg : f.Within g) (hg : g.Linked) (hn : n < f.size)
    (hone : ∀ c ∈ f.children n, ∀ g, f.Within g → g.Linked →
      f.Runs (draftOne c) g (f.Drafting above c)) {turns i : Nat}
    (hi : i ≤ (f.children n).length) (hturns : (f.children n).length < turns + i) :
    f.Runs (draftFrom draftOne n turns i) g fun calls r h =>
      f.Asked (((f.children n).drop i).map (above, ·)) calls (r.map fun _ => ()) ∧
        ∀ ds, r = .ok ds → f.SketchesAll h calls ds ((f.children n).drop i) := by
  induction turns generalizing g i with
  | zero => omega
  | succ turns ih =>
      refine .forest ?_
      rw [hfg.children_eq hn]
      rcases Nat.lt_or_ge i (f.children n).length with hlt | hge
      · rw [List.getElem?_eq_getElem hlt, List.drop_eq_getElem_cons hlt, List.map_cons]
        refine (hone _ (List.getElem_mem hlt) g hfg hg).bind (fun calls e h hd => ?_)
          fun calls d h hgh hh hd => ?_
        · exact ⟨hd.1.stop _, nofun⟩
        · refine (ih (hfg.trans hgh) hh hlt (by omega)).bind (fun more e k hds => ?_)
            fun more ds k hhk hk hds => ?_
          · exact ⟨hd.1.append hds.1, nofun⟩
          · refine .pure hk ?_
            rw [List.append_nil]
            refine ⟨hd.1.append hds.1, ?_⟩
            rintro _ ⟨⟩
            exact ⟨(hd.2 d rfl).mono hh hhk (List.subset_append_left _ _) d _,
              (hds.2 ds rfl).mono hk (.refl k) (List.subset_append_right _ _) ds _⟩
      · rw [List.getElem?_eq_none hge, List.drop_eq_nil_of_le hge]
        refine .pure hg ⟨.done, ?_⟩
        rintro ds ⟨⟩
        trivial

/-- The draft of a tree is made down to any depth that is enough. -/
theorem runs_draftWithin (hchoose : ChangesNothing choose) (hf : f.Linked) (hfg : f.Within g)
    (hg : g.Linked) (hn : n < f.size) (hdepth : f.EnoughFor n depth) (extra : Nat)
    (above : Option Kind) :
    f.Runs (draftWithin choose.traced extra depth above n) g (f.Drafting above n) := by
  induction depth generalizing g n above with
  | zero => exact absurd hdepth.1 (Nat.lt_irrefl 0)
  | succ depth ih =>
      refine (runs_choosePayload hchoose hf hfg hg hn above).bind (fun calls e h hcall => ?_)
        fun calls chosen h hgh hh hcall => .forest ?_
      · obtain ⟨call, rfl, rfl, herror, -⟩ := hcall
        exact ⟨.refused (herror e rfl), nofun⟩
      · obtain ⟨call, rfl, rfl, -, haccept⟩ := hcall
        obtain ⟨hjudge, hkind, hfill⟩ := haccept chosen rfl
        have hfh := hfg.trans hgh
        have hbelow (c : NodeId) (hc : c ∈ f.children call.node) (k : Forest) (hfk : f.Within k)
            (hk : k.Linked) : f.Runs (draftWithin choose.traced extra depth (some chosen.1) c) k
              (f.Drafting (some chosen.1) c) :=
          ih hfk hk (hf.lt_size_of_mem hc) (hf.enoughFor_child hc hdepth) (some chosen.1)
        have hwidth : (f.children call.node).length <
            (h.children call.node).length + 1 + extra + 0 := by
          rw [hfh.children_eq hn]
          omega
        refine (runs_draftFrom hfh hh hn hbelow (Nat.zero_le _) hwidth).bind
          (fun more e k hds => ?_) fun more ds k hhk hk hds => ?_
        all_goals
          have hasked := hds.1
          rw [List.drop_zero, ← hkind, ← List.append_nil (List.map _ _)] at hasked
        · exact ⟨.accepted hjudge hasked, nofun⟩
        · refine .pure hk ?_
          rw [List.append_nil, List.singleton_append]
          refine ⟨.accepted hjudge hasked, ?_⟩
          rintro _ ⟨⟩
          unfold Sketches
          refine ⟨⟨call, List.mem_cons_self, rfl, hfill.within hh hhk⟩, ?_⟩
          exact (hds.2 ds rfl).mono hk (.refl k) (List.subset_cons_self call more) ds _

end

/-! ### Copies -/

/-- What a copy of the tree below `root` with chosen elements comes to: the calls that are made, the
answer or failure, and the forest. -/
structure ChosenCopy (f : Forest) (root : NodeId) (calls : List (Call ε Payload))
    (answer : Except (CopyFailure ε) NodeId) (g : Forest) : Prop where
  /-- Nodes are asked about in pre-order, from the root on, and each once. -/
  nodes_begin : calls.map (·.node) <+: f.preorder root
  nodup_nodes : (calls.map (·.node)).Nodup
  /-- Each is handed over with its own element, and nothing has changed until then. -/
  fair (call : Call ε Payload) (h : call ∈ calls) : f.Fair call
  /-- The source is not changed. -/
  within : f.Within g
  /-- The copy succeeds if and only if every answer is an element, and one that may stand below what
  was chosen for the parent. -/
  succeeds_iff : (∃ c, answer = .ok c) ↔ ∀ call ∈ calls, f.verdict root calls call = .ok ()
  /-- Then all nodes were asked about, and the tree below a new root is the copy. The links of all
  nodes agree, so those of the copy lead to nodes of the copy. -/
  nodes_eq (c : NodeId) (h : answer = .ok c) : calls.map (·.node) = f.preorder root
  linked (c : NodeId) (h : answer = .ok c) : g.Linked
  isRoot (c : NodeId) (h : answer = .ok c) : g.parent? c = none
  replicates (c : NodeId) (h : answer = .ok c) : f.Replicates g calls root c
  /-- It fails for the first answer that is refused, and nothing is asked afterwards. -/
  fails (e : CopyFailure ε) (h : answer = .error e) : ∃ earlier last, calls = earlier ++ [last] ∧
    (∀ call ∈ earlier, f.verdict root calls call = .ok ()) ∧ f.verdict root calls last = .error e

theorem chosenCopy_of_asked {answer : Except (CopyFailure ε) NodeId} (hf : f.Linked)
    (hasked : f.Asked [(none, root)] calls (answer.map fun _ => ()))
    (hfair : ∀ call ∈ calls, f.Fair call) (hfg : f.Within g)
    (hcopy : ∀ c, answer = .ok c → g.Linked ∧ g.parent? c = none ∧ f.Replicates g calls root c) :
    f.ChosenCopy root calls answer g := by
  have hnodes := (hasked.nodes_begin hf).1
  rw [List.flatMap_singleton] at hnodes
  obtain ⟨hall, hfirst⟩ := hasked.verdicts hf
  refine ⟨hnodes, hnodes.sublist.nodup (hf.nodup_preorder root), hfair, hfg, ?_, ?_,
    fun c hc => (hcopy c hc).1, fun c hc => (hcopy c hc).2.1, fun c hc => (hcopy c hc).2.2, ?_⟩
  · constructor
    · rintro ⟨c, rfl⟩
      exact (hall rfl).2
    · intro hok
      cases answer with
      | ok c => exact ⟨c, rfl⟩
      | error e =>
          obtain ⟨earlier, last, rfl, -, herror⟩ := hfirst e rfl
          have hlast := hok last (List.mem_append_right _ List.mem_cons_self)
          rw [hlast] at herror
          cases herror
  · rintro c rfl
    exact (hall rfl).1
  · rintro e rfl
    exact hfirst e rfl

section
variable {choose : PayloadMap σ ε}

theorem result_of_traced {extra : Nat} {s t : σ} {answer : Except (CopyFailure ε) NodeId}
    (h : result (copyTreeWith choose.traced extra root) f (s, []) = (answer, g, t, calls)) :
    result (copyTreeWith choose extra root) f s = (answer, g, t) ∧
      copyCalls choose extra root f s = calls := by
  obtain ⟨noted, hmirror⟩ := mirrors_copyTreeWith choose extra root f s []
  refine ⟨?_, ?_⟩
  · rw [hmirror] at h
    cases h
    rfl
  · rw [copyCalls, Asking.calls, h]

/-- A copy is the draft of the tree, planted. -/
theorem runs_copyTreeWith (hf : f.Linked) (hroot : root < f.size)
    (hchoose : ChangesNothing choose) (extra : Nat) :
    f.Runs (copyTreeWith choose.traced extra root) f fun calls r g =>
      f.Asked [(none, root)] calls (r.map fun _ => ()) ∧
        ∀ c, r = .ok c → g.Linked ∧ g.parent? c = none ∧ f.Replicates g calls root c := by
  have hdepth : f.EnoughFor root (f.size + 1 + extra) := ⟨by omega, by omega⟩
  refine .forest ((runs_draftWithin hchoose hf (.refl f) hf hroot hdepth extra none).bind
    (fun calls e h hdraft => ⟨hdraft.1, fun _ hr => by cases hr⟩) fun calls d h hfh hh hdraft => ?_)
  obtain ⟨hasked, hsketch⟩ := hdraft
  have hd := hsketch d rfl
  have hhg := (within_plant d h).1
  have hrange : ∀ d' ∈ [d], d'.InRange h := by
    intro d' hd'
    cases List.mem_singleton.1 hd'
    exact hd.inRange d root
  obtain ⟨hlinked, hroots⟩ := hh.plantAll hrange
  refine .change hhg hlinked ?_
  rw [List.append_nil]
  refine ⟨hasked, ?_⟩
  rintro c ⟨⟩
  refine ⟨hlinked, (hroots _ List.mem_cons_self).2.2, ?_⟩
  have hafter := hd.mono hh hhg (List.Subset.refl calls) d root
  exact replicates_plant d root h hafter hfh.size_le ((Within.refl _).keptFrom h.size)

/-- The copy of a linked tree with elements that are chosen by a function that changes nothing,
whatever the elements of the tree and the chosen ones are. -/
theorem Linked.chosenCopy (hf : f.Linked) (hroot : root < f.size)
    (hchoose : ChangesNothing choose) (extra : Nat) (s : σ) :
    f.ChosenCopy root (copyCalls choose extra root f s)
      (result (copyTreeWith choose extra root) f s).1
      (result (copyTreeWith choose extra root) f s).2.1 := by
  obtain ⟨calls, answer, g, t, hres, hfg, -, hfair, hasked, hcopy⟩ :=
    runs_copyTreeWith hf hroot hchoose extra s []
  obtain ⟨heq, hcalls⟩ := result_of_traced hres
  rw [heq, hcalls]
  exact chosenCopy_of_asked hf hasked hfair hfg hcopy

def quotedParagraph : Forest :=
  (outcome (newNode (.ofFields .blockQuote []) [.node 0] [])
    (outcome (newNode (.ofFields .paragraph []) [] []) .empty).2).2

theorem linked_quotedParagraph : quotedParagraph.Linked := by
  have hparagraph := wellFormed_newNode wellFormed_empty (.ofFields .paragraph []) [] (by simp)
  exact (wellFormed_newNode hparagraph (.ofFields .blockQuote []) [0] (by decide)).linked

/-- A choice that makes a table of a block quote and leaves other elements as they are. -/
def tableForQuote : PayloadMap Unit TreeFault := fun n f s =>
  (.ok (if f.kind n == .blockQuote then .own (.ofFields .table []) else .shared), f, s)

theorem chosenCopy_tableForQuote :
    quotedParagraph.ChosenCopy 1 (copyCalls tableForQuote 0 1 quotedParagraph ())
        (result (copyTreeWith tableForQuote 0 1) quotedParagraph ()).1
        (result (copyTreeWith tableForQuote 0 1) quotedParagraph ()).2.1 ∧
      (copyCalls tableForQuote 0 1 quotedParagraph ()).map (·.node) = [1, 0] ∧
      (result (copyTreeWith tableForQuote 0 1) quotedParagraph ()).1 =
        .error (.fault (.illegalChild .table .paragraph)) :=
  ⟨linked_quotedParagraph.chosenCopy (by decide) (fun _ _ _ => rfl) 0 (), by decide, rfl⟩

end

end MarkdownTree.Forest
