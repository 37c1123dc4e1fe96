import MarkdownTree.Forest.Sequence
import MarkdownTree.Proofs.Fences

/-!
Operations on nodes outside a fenced region. Attaching, detaching and replacing only links nodes
that are outside, new nodes are outside, and assignments only touch the elements and metadata of
nodes outside.
-/

namespace MarkdownTree.Forest

variable {P : Region} {f g h : Forest} {c m n p : NodeId} {nodes seen : List NodeId} {v w : Value}
  {values : List Value} {metadata : Entries} {name : String} {α β : Type}

/-- A value that is a node names one outside a region. -/
def ValueOutside (P : Region) (f : Forest) (v : Value) : Prop :=
  ∀ c, v = .node c → f.Outside P c

theorem ValueOutside.mono (hv : f.ValueOutside P v) (hle : f.size ≤ g.size) : g.ValueOutside P v :=
  fun c hc => (hv c hc).mono hle

theorem Spares.outside (hfg : f.Spares P g) (hn : f.Outside P n) : g.Outside P n :=
  hn.mono hfg.size_le

theorem Spares.valueOutside (hfg : f.Spares P g) (hv : f.ValueOutside P v) : g.ValueOutside P v :=
  hv.mono hfg.size_le

/-- The nodes of a sequence are outside a region, or the node whose children it lists. -/
def SequenceOutside (P : Region) (f : Forest) : Sequence → Prop
  | .own items => ∀ v ∈ items, f.ValueOutside P v
  | .childrenOf n => f.Outside P n

/-- Sparing a fenced region is a way to change a forest. -/
theorem allowance_fenced (P : Region) :
    Asking.Allowance (fun f => f.Fenced P) fun f g => f.Spares P g where
  refl hf := .refl hf
  ok_of_may hfg := hfg.fenced
  trans hfg hgh := hfg.trans hgh

/-- One operation after another. -/
theorem spares_bind {x : Edit α} {next : α → Edit β} (hx : f.Spares P (outcome x f).2)
    (hnext : ∀ a g, outcome x f = (.ok a, g) → f.Spares P g → g.Spares P (outcome (next a) g).2) :
    f.Spares P (outcome (x >>= next) f).2 :=
  (allowance_fenced P).bind hx hnext

theorem spares_get {next : Forest → Edit β} (h : f.Spares P (outcome (next f) f).2) :
    f.Spares P (outcome (get >>= next) f).2 := by
  rw [outcome_bind]
  exact h

theorem Fenced.lift (hf : f.Fenced P) {r : Except TreeFault α} {next : α → Edit β}
    (h : ∀ a, r = .ok a → f.Spares P (outcome (next a) f).2) :
    f.Spares P (outcome (liftM r >>= next) f).2 :=
  spares_bind (by rw [outcome_liftM]; exact .refl hf) fun a g hres _ => by
    rw [outcome_liftM] at hres
    cases hres
    exact h a rfl

theorem node_of_checkAttach (h : f.checkAttach p v = .ok c) : v = .node c := by
  cases v with
  | node k =>
      obtain ⟨-, -, h⟩ := bind_eq_ok_iff.1 h
      split at h <;> cases h
      rfl
  | _ => cases h

theorem nodes_of_checkReplacement (h : f.checkReplacement p seen values = .ok nodes) :
    values = nodes.map .node := by
  induction values generalizing seen nodes with
  | nil =>
      cases h
      rfl
  | cons v values ih =>
      obtain ⟨c, hv, h⟩ := bind_eq_ok_iff.1 h
      split at h
      · cases h
      · obtain ⟨cs, hrest, h⟩ := bind_eq_ok_iff.1 h
        cases h
        rw [node_of_checkAttach hv, ih hrest, List.map_cons]

namespace Fenced

variable (hf : f.Fenced P)

include hf

theorem removeChild (hp : f.Outside P p) (v : Value) :
    f.Spares P (outcome (removeChild p v) f).2 := by
  refine spares_get ?_
  cases v with
  | node c =>
      by_cases hc : c ∈ f.children p
      · simp only [List.contains_eq_mem, hc, decide_true, if_true, outcome_change]
        have hlist : f.Spares P (f.setChildren p ((f.children p).erase c)) :=
          hf.setChildren hp fun k hk => hf.outside_of_mem_children hp (List.mem_of_mem_erase hk)
        refine hlist.trans (hlist.fenced.setParent ?_ nofun)
        exact hlist.outside (hf.outside_of_mem_children hp hc)
      · simp only [List.contains_eq_mem, hc, decide_false, Bool.false_eq_true, if_false,
          outcome_throw]
        exact .refl hf
  | _ => exact .refl hf

theorem unlink (hn : f.Outside P n) : f.Spares P (outcome (unlink n) f).2 := by
  refine spares_get ?_
  cases hp : f.parent? n with
  | none => exact .refl hf
  | some p => exact hf.removeChild (hf.outside_of_parent? hn hp) (.node n)

theorem unlinkAll (hnodes : ∀ n ∈ nodes, f.Outside P n) :
    f.Spares P (outcome (unlinkAll nodes) f).2 := by
  induction nodes generalizing f with
  | nil => exact .refl hf
  | cons n nodes ih =>
      refine spares_bind (hf.unlink (hnodes n List.mem_cons_self)) fun _ g _ hfg => ?_
      exact ih hfg.fenced fun m hm => hfg.outside (hnodes m (List.mem_cons_of_mem n hm))

/-- A list of children with another node put in. -/
theorem insertAt (hp : f.Outside P p) (hn : f.Outside P n) (i : Int) :
    f.Spares P (f.setChildren p (insertAt (f.children p) i n)) := by
  refine hf.setChildren hp fun k hk => ?_
  rcases List.mem_cons.1 ((insertAt_perm _ _ _).mem_iff.1 hk) with rfl | hk
  · exact hn
  · exact hf.outside_of_mem_children hp hk

theorem attachAt (takes : Int → Bool) (hp : f.Outside P p) (i : Int) (hv : f.ValueOutside P v) :
    f.Spares P (outcome (attachAt takes p i v) f).2 := by
  refine spares_get (hf.lift fun c hc => hf.lift fun j _ => ?_)
  have hcout := hv c (node_of_checkAttach hc)
  refine spares_bind (hf.unlink hcout) fun _ g _ hfg => ?_
  have hset : g.Spares P (g.setParent c (some p)) := by
    refine hfg.fenced.setParent (hfg.outside hcout) fun q hq => ?_
    cases hq
    exact hfg.outside hp
  refine spares_bind hset fun _ h _ hgh => ?_
  have hgone := hfg.trans hgh
  split
  · exact hgh.fenced.insertAt (hgone.outside hp) (hgone.outside hcout) j
  · exact .refl hgh.fenced

theorem appendChild (hp : f.Outside P p) (hv : f.ValueOutside P v) :
    f.Spares P (outcome (appendChild p v) f).2 :=
  spares_get (hf.attachAt _ hp _ hv)

theorem insertSibling (hn : f.Outside P n) (hv : f.ValueOutside P v) (offset : Nat) :
    f.Spares P (outcome (insertSibling n v offset) f).2 := by
  refine spares_get ?_
  cases hp : f.parent? n with
  | none => cases v <;> exact .refl hf
  | some p =>
      have hpout := hf.outside_of_parent? hn hp
      refine hf.lift fun s hs => ?_
      have hsout := hv s (node_of_checkAttach hs)
      split
      · exact .refl hf
      refine spares_bind (hf.unlink hsout) fun _ g _ hfg =>
        spares_get (hfg.fenced.lift fun i _ => ?_)
      have hlist := hfg.fenced.insertAt (hfg.outside hpout) (hfg.outside hsout) (i + offset)
      refine spares_bind hlist fun _ h _ hgh => hgh.fenced.setParent ?_ fun q hq => ?_
      · exact hgh.outside (hfg.outside hsout)
      · cases hq
        exact hgh.outside (hfg.outside hpout)

theorem replaceChild (hp : f.Outside P p) (v : Value) (hvalues : ∀ w ∈ values, f.ValueOutside P w) :
    f.Spares P (outcome (replaceChild p v values) f).2 := by
  refine spares_get ?_
  cases v with
  | node c =>
      refine hf.lift fun i hi => hf.lift fun nodes hnodes => ?_
      have hcout : f.Outside P c := hf.outside_of_mem_children hp (mem_of_indexOf hi)
      have hall : ∀ k ∈ nodes, f.Outside P k := fun k hk => by
        refine hvalues (.node k) ?_ k rfl
        rw [nodes_of_checkReplacement hnodes]
        exact List.mem_map_of_mem hk
      refine spares_bind (hf.unlinkAll fun k hk => hall k (List.mem_of_mem_filter hk))
        fun _ g _ hfg => spares_get (hfg.fenced.lift fun index _ => ?_)
      have hchild : ∀ k ∈ g.children p, g.Outside P k :=
        fun k hk => hfg.fenced.outside_of_mem_children (hfg.outside hp) hk
      have hparent : g.Spares P (g.setParent c none) :=
        hfg.fenced.setParent (hfg.outside hcout) nofun
      have hgone := hfg.trans hparent
      refine hparent.trans (hparent.fenced.attach (hgone.outside hp)
        (fun k hk => hgone.outside (hall k hk)) fun k hk => ?_)
      rw [spliceAt, List.mem_append, List.mem_append] at hk
      rcases hk with (hk | hk) | hk
      · exact hparent.outside (hchild k (List.mem_of_mem_take hk))
      · exact hgone.outside (hall k hk)
      · exact hparent.outside (hchild k (List.mem_of_mem_drop hk))
  | _ => exact .refl hf

theorem newRoot (element : Element) (hmeta : ∀ c ∈ Value.nodesEntries metadata, f.Outside P c) :
    f.Spares P (outcome (newRoot element metadata) f).2 :=
  (hf.addNode element hmeta).1

theorem appendAll (hp : f.Outside P p) (hvalues : ∀ w ∈ values, f.ValueOutside P w) :
    f.Spares P (outcome (appendAll p values) f).2 := by
  induction values generalizing f with
  | nil => exact .refl hf
  | cons w values ih =>
      refine spares_bind (hf.appendChild hp (hvalues w List.mem_cons_self)) fun _ g _ hfg => ?_
      refine ih hfg.fenced (hfg.outside hp) fun u hu => ?_
      exact hfg.valueOutside (hvalues u (List.mem_cons_of_mem w hu))

theorem newNode (element : Element) (hmeta : ∀ c ∈ Value.nodesEntries metadata, f.Outside P c)
    (hvalues : ∀ w ∈ values, f.ValueOutside P w) :
    f.Spares P (outcome (newNode element values metadata) f).2 := by
  refine spares_bind (hf.newRoot element hmeta) fun n g hres hfg => ?_
  cases hres
  have hn := (hf.addNode element hmeta).2
  refine spares_bind (hfg.fenced.appendAll hn fun w hw => hfg.valueOutside (hvalues w hw))
    fun _ h _ hgh => ?_
  exact .refl hgh.fenced

theorem unlinkAlong (hm : f.Outside P m) (c : NodeId) (rounds i : Nat) :
    f.Spares P (outcome (unlinkAlong m c rounds i) f).2 := by
  induction rounds generalizing f i with
  | zero => exact .refl hf
  | succ rounds ih =>
      refine spares_get ?_
      cases hk : (f.children m)[i]? with
      | none => exact .refl hf
      | some k =>
          have hkout := hf.outside_of_mem_children hm (List.mem_of_getElem? hk)
          dsimp only
          split
          · exact ih hf hm (i + 1)
          · exact spares_bind (hf.unlink hkout) fun _ g _ hfg =>
              ih hfg.fenced (hfg.outside hm) (i + 1)

theorem insertAlong (hp : f.Outside P p) (hm : f.Outside P m) (index rounds offset : Nat) :
    f.Spares P (outcome (insertAlong p m index rounds offset) f).2 := by
  induction rounds generalizing f offset with
  | zero => exact spares_get (.refl hf)
  | succ rounds ih =>
      refine spares_get ?_
      cases hk : (f.children m)[offset]? with
      | none => exact .refl hf
      | some k =>
          have hkout := hf.outside_of_mem_children hm (List.mem_of_getElem? hk)
          have hset : f.Spares P (f.setParent k (some p)) := by
            refine hf.setParent hkout fun q hq => ?_
            cases hq
            exact hp
          refine spares_bind hset fun _ g hres _ => ?_
          cases hres
          have hlist := hset.fenced.insertAt (hset.outside hp) (hset.outside hkout)
            (index + offset : Nat)
          refine spares_bind hlist fun _ h hres' _ => ?_
          cases hres'
          have hboth := hset.trans hlist
          exact ih hboth.fenced (hboth.outside hp) (hboth.outside hm) (offset + 1)

theorem replaceByChildren (hp : f.Outside P p) (hm : f.Outside P m) (rounds : Nat) (v : Value) :
    f.Spares P (outcome (replaceByChildren rounds p v m) f).2 := by
  refine spares_get ?_
  cases v with
  | node c =>
      refine hf.lift fun i hi => hf.lift fun nodes _ => ?_
      have hcout : f.Outside P c := hf.outside_of_mem_children hp (mem_of_indexOf hi)
      refine spares_bind (hf.unlinkAlong hm c _ 0) fun _ g _ hfg =>
        spares_get (hfg.fenced.lift fun index _ => ?_)
      have hlist : g.Spares P (g.setChildren p (spliceAt (g.children p) index [])) := by
        refine hfg.fenced.setChildren (hfg.outside hp) fun k hk => ?_
        rw [spliceAt, List.append_nil] at hk
        refine hfg.fenced.outside_of_mem_children (hfg.outside hp) ?_
        exact (List.mem_append.1 hk).elim List.mem_of_mem_take List.mem_of_mem_drop
      have hparent := hlist.fenced.setParent (hlist.outside (hfg.outside hcout))
        fun (q : NodeId) (hq : none = some q) => by cases hq
      have hgone := hlist.trans hparent
      refine spares_bind hgone fun _ h hres _ => ?_
      cases hres
      have hall := hfg.trans hgone
      exact spares_bind (hgone.fenced.insertAlong (hall.outside hp) (hall.outside hm) index rounds 0)
        fun _ k _ hgk => .refl hgk.fenced
  | _ => exact .refl hf

theorem replaceChildBy (hp : f.Outside P p) (rounds : Nat) (v : Value) {seq : Sequence}
    (hseq : f.SequenceOutside P seq) : f.Spares P (outcome (replaceChildBy rounds p v seq) f).2 := by
  cases seq with
  | own items => exact spares_bind (hf.replaceChild hp v hseq) fun _ g _ hfg => .refl hfg.fenced
  | childrenOf m => exact hf.replaceByChildren hp hseq rounds v

theorem appendAlong (hn : f.Outside P n) (hm : f.Outside P m) (rounds i : Nat) :
    f.Spares P (outcome (appendAlong n m rounds i) f).2 := by
  induction rounds generalizing f i with
  | zero => exact .refl hf
  | succ rounds ih =>
      refine spares_get ?_
      cases hk : (f.children m)[i]? with
      | none => exact .refl hf
      | some k =>
          have hkout := hf.outside_of_mem_children hm (List.mem_of_getElem? hk)
          refine spares_bind (hf.appendChild hn fun c hc => ?_) fun _ g _ hfg =>
            ih hfg.fenced (hfg.outside hn) (hfg.outside hm) (i + 1)
          cases hc
          exact hkout

theorem newNodeBy (element : Element) {seq : Sequence} (hseq : f.SequenceOutside P seq)
    (hmeta : ∀ c ∈ Value.nodesEntries metadata, f.Outside P c) :
    f.Spares P (outcome (newNodeBy element seq metadata) f).2 := by
  cases seq with
  | own items => exact hf.newNode element hmeta hseq
  | childrenOf m =>
      refine spares_bind (hf.newRoot element hmeta) fun n g hres hfg => spares_get ?_
      cases hres
      refine spares_bind (hfg.fenced.appendAlong (hf.addNode element hmeta).2 (hfg.outside hseq) _ 0)
        fun _ h _ hgh => .refl hgh.fenced

end Fenced

end MarkdownTree.Forest
