import MarkdownTree.Forest.Callback
import MarkdownTree.Proofs.Growth

/-!
Operations that call a function about nodes. Watching the calls changes nothing: `Mirrors` says so
of a part of an operation. What the operation does itself is kept apart from what the function does
by `Obeys`: as long as every call changed the forest as it may, so does the part of the operation.
`Keeps` is the case in which the forest may be carried on.
-/

namespace MarkdownTree

variable {σ ε φ α β : Type}

/-- A call that was made: the node, the forest before, the answer, and the forest after. -/
structure Call (ε α : Type) where
  node : NodeId
  before : Forest
  answer : Except ε α
  after : Forest

def Callback.traced (callback : Callback σ ε α) : Callback (σ × List (Call ε α)) ε α :=
  fun n f (s, calls) =>
    let (answer, f', s') := callback n f s
    (answer, f', s', calls ++ [⟨n, f, answer, f'⟩])

/-- All calls that were noted are good. -/
def AllGood (good : Call ε α → Prop) (t : σ × List (Call ε α)) : Prop :=
  ∀ call ∈ t.2, good call

theorem Callback.allGood_traced {callback : Callback σ ε α} {good : Call ε α → Prop} {n : NodeId}
    {f g : Forest} {s t : σ × List (Call ε α)} {r : Except ε α}
    (hcall : callback.traced n f s = (r, g, t)) (ht : AllGood good t) :
    AllGood good s ∧ good ⟨n, f, r, g⟩ := by
  cases hcall
  refine ⟨fun call hc => ht call (List.mem_append_left _ hc), ht _ ?_⟩
  exact List.mem_append_right _ List.mem_cons_self

namespace Asking

/-- The answer, the forest and the state after a part of an operation. -/
def result (x : Asking σ φ α) (f : Forest) (s : σ) : Except φ α × Forest × σ :=
  x.run.run (f, s)

section
variable (f : Forest) (s : σ)

@[simp] theorem result_pure (a : α) : result (pure a : Asking σ φ α) f s = (.ok a, f, s) := rfl

@[simp] theorem result_throw (e : φ) :
    result (throw e : Asking σ φ α) f s = (.error e, f, s) := rfl

@[simp] theorem result_forest : result (forest : Asking σ φ Forest) f s = (.ok f, f, s) := rfl

@[simp] theorem result_change (g : Forest → α × Forest) :
    result (change g : Asking σ φ α) f s = (.ok (g f).1, (g f).2, s) := rfl

theorem result_ask (callback : Callback σ ε α) (failure : ε → φ) (n : NodeId) :
    result (callback.ask failure n) f s =
      match callback n f s with
      | (.ok a, g, t) => (.ok a, g, t)
      | (.error e, g, t) => (.error (failure e), g, t) := by
  simp only [result, Callback.ask, ExceptT.run, StateT.run]
  rcases callback n f s with ⟨_ | _, _, _⟩ <;> rfl

theorem result_bind (x : Asking σ φ α) (next : α → Asking σ φ β) :
    result (x >>= next) f s =
      match result x f s with
      | (.ok a, g, t) => result (next a) g t
      | (.error e, g, t) => (.error e, g, t) := by
  unfold result
  simp only [ExceptT.run_bind, StateT.run_bind]
  rcases x.run.run (f, s) with ⟨_ | _, _⟩ <;> rfl

end

section
variable {x : Asking σ φ α} {next : α → Asking σ φ β} {f h : Forest} {s u : σ}

/-- A sequence returns if both its parts do, one after the other. -/
theorem result_bind_eq_ok_iff {b : β} : result (x >>= next) f s = (.ok b, h, u) ↔
    ∃ a g t, result x f s = (.ok a, g, t) ∧ result (next a) g t = (.ok b, h, u) := by
  rw [result_bind]
  rcases result x f s with ⟨e | a, g, t⟩ <;> simp

/-- A sequence fails in its first part, or in the second after the first returned. -/
theorem result_bind_eq_error_iff {e : φ} : result (x >>= next) f s = (.error e, h, u) ↔
    result x f s = (.error e, h, u) ∨
      ∃ a g t, result x f s = (.ok a, g, t) ∧ result (next a) g t = (.error e, h, u) := by
  rw [result_bind]
  rcases result x f s with ⟨e' | a, g, t⟩ <;> simp

end

/-- One part of an operation does the same as another, and notes more calls. -/
def Mirrors (x' : Asking (σ × List (Call ε β)) φ α) (x : Asking σ φ α) : Prop :=
  ∀ f s calls, ∃ more, result x' f (s, calls) =
    ((result x f s).1, (result x f s).2.1, (result x f s).2.2, calls ++ more)

namespace Mirrors

variable {x' : Asking (σ × List (Call ε β)) φ α} {x : Asking σ φ α}

theorem of_same (h : ∀ f s calls, result x' f (s, calls) =
    ((result x f s).1, (result x f s).2.1, (result x f s).2.2, calls)) : Mirrors x' x := by
  intro f s calls
  refine ⟨[], ?_⟩
  rw [h, List.append_nil]

theorem pure (a : α) : Mirrors (Pure.pure a : Asking (σ × List (Call ε β)) φ α) (Pure.pure a) :=
  of_same fun _ _ _ => rfl

theorem throw (e : φ) :
    Mirrors (MonadExcept.throw e : Asking (σ × List (Call ε β)) φ α) (MonadExcept.throw e) :=
  of_same fun _ _ _ => rfl

theorem forest : Mirrors (Asking.forest : Asking (σ × List (Call ε β)) φ Forest) Asking.forest :=
  of_same fun _ _ _ => rfl

theorem change (g : Forest → α × Forest) :
    Mirrors (Asking.change g : Asking (σ × List (Call ε β)) φ α) (Asking.change g) :=
  of_same fun _ _ _ => rfl

theorem ask (callback : Callback σ ε β) (failure : ε → φ) (n : NodeId) :
    Mirrors (callback.traced.ask failure n) (callback.ask failure n) := by
  intro f s calls
  refine ⟨[⟨n, f, (callback n f s).1, (callback n f s).2.1⟩], ?_⟩
  have htraced : callback.traced n f (s, calls) = ((callback n f s).1, (callback n f s).2.1,
      (callback n f s).2.2, calls ++ [⟨n, f, (callback n f s).1, (callback n f s).2.1⟩]) := rfl
  rw [result_ask, result_ask, htraced]
  rcases callback n f s with ⟨_ | _, _, _⟩ <;> rfl

theorem bind {γ : Type} {next' : α → Asking (σ × List (Call ε β)) φ γ} {next : α → Asking σ φ γ}
    (hx : Mirrors x' x) (hnext : ∀ a, Mirrors (next' a) (next a)) :
    Mirrors (x' >>= next') (x >>= next) := by
  intro f s calls
  obtain ⟨more, hmore⟩ := hx f s calls
  rw [result_bind, result_bind, hmore]
  rcases result x f s with ⟨_ | a, g, t⟩
  · exact ⟨more, rfl⟩
  · obtain ⟨yet, hyet⟩ := hnext a g t (calls ++ more)
    refine ⟨more ++ yet, ?_⟩
    rw [← List.append_assoc]
    exact hyet

/-- Calls that were noted stay noted. -/
theorem allGood (hx : Mirrors x' x) {good : Call ε β → Prop} {f g : Forest}
    {s t : σ × List (Call ε β)} {r : Except φ α} (hres : result x' f s = (r, g, t))
    (ht : AllGood good t) : AllGood good s := by
  obtain ⟨more, hmore⟩ := hx f s.1 s.2
  have heq := hres.symm.trans hmore
  cases heq
  exact fun call hc => ht call (List.mem_append_left more hc)

end Mirrors

def calls (x : Asking (σ × List (Call ε β)) φ α) (f : Forest) (s : σ) : List (Call ε β) :=
  (result x f (s, [])).2.2.2

/-! ### Changing the forest

An operation may change the forest in some ways only. The rules are the same for all such
restrictions, as long as changes can be made one after the other. -/

/-- Which changes may be made: `may f g` says that the forest `f` may become `g`. What holds of a
forest that `ok` says is fine holds of it on. -/
structure Allowance (ok : Forest → Prop) (may : Forest → Forest → Prop) : Prop where
  refl {f : Forest} (hf : ok f) : may f f
  ok_of_may {f g : Forest} (hfg : may f g) : ok g
  trans {f g h : Forest} (hfg : may f g) (hgh : may g h) : may f h

open Forest in
/-- An edit after another changes the forest as it may, also when the first is refused. -/
theorem Allowance.bind {ok : Forest → Prop} {may : Forest → Forest → Prop} (h : Allowance ok may)
    {x : Edit α} {next : α → Edit β} {f : Forest} (hx : may f (outcome x f).2)
    (hnext : ∀ a g, outcome x f = (.ok a, g) → may f g → may g (outcome (next a) g).2) :
    may f (outcome (x >>= next) f).2 := by
  rw [outcome_bind]
  rcases hout : outcome x f with ⟨_ | a, g⟩
  · rw [hout] at hx
    exact hx
  · rw [hout] at hx
    exact h.trans hx (hnext a g hout hx)

/-- A part of an operation, started in a fine forest where `pre` holds, changes it as it may and
answers what `post` demands, provided that the state of the function is still fine at the end; and
it has been fine before if it still is. -/
def Obeys (ok : Forest → Prop) (may : Forest → Forest → Prop) (fine : σ → Prop)
    (pre : Forest → Prop) (x : Asking σ φ α) (post : α → Forest → Prop) : Prop :=
  ∀ f s r g t, result x f s = (r, g, t) → fine t → fine s ∧
    (ok f → pre f → may f g ∧ ∀ a, r = .ok a → post a g)

namespace Obeys

variable {ok : Forest → Prop} {may : Forest → Forest → Prop} {fine : σ → Prop}
  {pre : Forest → Prop} {x : Asking σ φ α} {post : α → Forest → Prop}

theorem pure (hmay : Allowance ok may) {a : α} (h : ∀ f, ok f → pre f → post a f) :
    Obeys ok may fine pre (Pure.pure a : Asking σ φ α) post := by
  intro f s r g t hres ht
  cases hres
  refine ⟨ht, fun hf hpre => ⟨hmay.refl hf, fun b hb => ?_⟩⟩
  cases hb
  exact h f hf hpre

theorem throw (hmay : Allowance ok may) {e : φ} :
    Obeys ok may fine pre (MonadExcept.throw e : Asking σ φ α) post := by
  intro f s r g t hres ht
  cases hres
  exact ⟨ht, fun hf _ => ⟨hmay.refl hf, fun _ hr => by cases hr⟩⟩

theorem forest (hmay : Allowance ok may) :
    Obeys ok may fine pre (Asking.forest : Asking σ φ Forest) fun a f => a = f ∧ ok a ∧ pre a := by
  intro f s r g t hres ht
  cases hres
  refine ⟨ht, fun hf hpre => ⟨hmay.refl hf, fun a ha => ?_⟩⟩
  cases ha
  exact ⟨rfl, hf, hpre⟩

theorem change {make : Forest → α × Forest}
    (h : ∀ f, ok f → pre f → may f (make f).2 ∧ post (make f).1 (make f).2) :
    Obeys ok may fine pre (Asking.change make : Asking σ φ α) post := by
  intro f s r g t hres ht
  cases hres
  refine ⟨ht, fun hf hpre => ⟨(h f hf hpre).1, fun a ha => ?_⟩⟩
  cases ha
  exact (h f hf hpre).2

theorem ask {callback : Callback σ ε α} {failure : ε → φ} {n : NodeId}
    (h : ∀ f s r g t, callback n f s = (r, g, t) → fine t → fine s ∧
      (ok f → pre f → may f g ∧ ∀ a, r = .ok a → post a g)) :
    Obeys ok may fine pre (callback.ask failure n) post := by
  intro f s r g t hres ht
  rw [result_ask] at hres
  rcases hcall : callback n f s with ⟨e | a, g', t'⟩
  · rw [hcall] at hres
    cases hres
    obtain ⟨hs, hchange⟩ := h f s _ _ _ hcall ht
    exact ⟨hs, fun hf hpre => ⟨(hchange hf hpre).1, fun _ hr => by cases hr⟩⟩
  · rw [hcall] at hres
    cases hres
    obtain ⟨hs, hchange⟩ := h f s _ _ _ hcall ht
    refine ⟨hs, fun hf hpre => ⟨(hchange hf hpre).1, fun b hb => ?_⟩⟩
    cases hb
    exact (hchange hf hpre).2 a rfl

theorem bind (hmay : Allowance ok may) {next : α → Asking σ φ β} {final : β → Forest → Prop}
    (hx : Obeys ok may fine pre x post) (hnext : ∀ a, Obeys ok may fine (post a) (next a) final) :
    Obeys ok may fine pre (x >>= next) final := by
  intro f s r h u hres hu
  rw [result_bind] at hres
  rcases hfirst : result x f s with ⟨e | a, g, t⟩
  · rw [hfirst] at hres
    cases hres
    obtain ⟨hs, hchange⟩ := hx f s _ _ _ hfirst hu
    exact ⟨hs, fun hf hpre => ⟨(hchange hf hpre).1, fun _ hr => by cases hr⟩⟩
  · rw [hfirst] at hres
    -- The state is fine at the end, so it was after the first part, and so it was before.
    obtain ⟨ht, hrest⟩ := hnext a g t r h u hres hu
    obtain ⟨hs, hchange⟩ := hx f s _ _ _ hfirst ht
    refine ⟨hs, fun hf hpre => ?_⟩
    obtain ⟨hfg, hpost⟩ := hchange hf hpre
    obtain ⟨hgh, hfinal⟩ := hrest (hmay.ok_of_may hfg) (hpost a rfl)
    exact ⟨hmay.trans hfg hgh, hfinal⟩

/-- What no change that may be made can end holds on. -/
theorem frame {lasting : Forest → Prop} (hx : Obeys ok may fine pre x post)
    (hlasting : ∀ f g, may f g → lasting f → lasting g) :
    Obeys ok may fine (fun f => pre f ∧ lasting f) x (fun a f => post a f ∧ lasting f) := by
  intro f s r g t hres ht
  obtain ⟨hs, hchange⟩ := hx f s r g t hres ht
  refine ⟨hs, fun hf hpre => ?_⟩
  obtain ⟨hfg, hpost⟩ := hchange hf hpre.1
  exact ⟨hfg, fun a ha => ⟨hpost a ha, hlasting f g hfg hpre.2⟩⟩

theorem imp {pre' : Forest → Prop} {post' : α → Forest → Prop} (hx : Obeys ok may fine pre x post)
    (hpre : ∀ f, ok f → pre' f → pre f) (hpost : ∀ a f, post a f → post' a f) :
    Obeys ok may fine pre' x post' := by
  intro f s r g t hres ht
  obtain ⟨hs, hchange⟩ := hx f s r g t hres ht
  refine ⟨hs, fun hf hp => ?_⟩
  obtain ⟨hfg, hanswer⟩ := hchange hf (hpre f hf hp)
  exact ⟨hfg, fun a ha => hpost a g (hanswer a ha)⟩

theorem of_pre {pre' : Forest → Prop} (hx : Obeys ok may fine pre x post)
    (hpre : ∀ f, ok f → pre' f → pre f) : Obeys ok may fine pre' x post :=
  hx.imp hpre fun _ _ h => h

/-- A condition that no change that may be made can end holds afterwards. -/
theorem keep (hx : Obeys ok may fine pre x post) (hkeep : ∀ f g, may f g → pre f → pre g) :
    Obeys ok may fine pre x fun a f => post a f ∧ pre f :=
  (hx.frame hkeep).of_pre fun _ _ h => ⟨h, h⟩

/-- The operation itself changes the forest as it may if every call that is made is good. -/
theorem of_calls {x' : Asking (σ × List (Call ε β)) φ α} {good : Call ε β → Prop}
    (hmirror : Mirrors x' x) (hx : Obeys ok may (AllGood good) pre x' post) {f : Forest} {s : σ}
    (hf : ok f) (hpre : pre f) (hcalls : ∀ call ∈ calls x' f s, good call) :
    may f (result x f s).2.1 ∧
      ∀ a, (result x f s).1 = .ok a → post a (result x f s).2.1 := by
  obtain ⟨noted, hres⟩ := hmirror f s []
  have hgood : AllGood good ((result x f s).2.2, noted) := by
    intro call hc
    refine hcalls call ?_
    rw [calls, hres]
    exact hc
  exact (hx f (s, []) _ _ _ hres hgood).2 hf hpre

end Obeys

/-- A part of an operation, started where `pre` holds, carries the forest on and answers what `post`
demands, provided that the state of the function is still fine at the end; and it has been fine
before if it still is. -/
def Keeps (fine : σ → Prop) (pre : Forest → Prop) (x : Asking σ φ α) (post : α → Forest → Prop) :
    Prop :=
  ∀ f s r g t, result x f s = (r, g, t) → fine t → fine s ∧
    (f.WellFormed → pre f → f.CarriesOn g ∧ ∀ a, r = .ok a → post a g)

/-- A property of forests that is never lost while forests are carried on. -/
def Lasting (keep : Forest → Prop) : Prop :=
  ∀ f g, f.CarriesOn g → keep f → keep g

theorem allowance_carriesOn : Allowance Forest.WellFormed Forest.CarriesOn where
  refl hf := .refl hf
  ok_of_may hfg := hfg.wellFormed
  trans hfg hgh := hfg.trans hgh

namespace Keeps

variable {fine : σ → Prop} {pre keep : Forest → Prop} {x : Asking σ φ α} {post : α → Forest → Prop}

theorem pure {a : α} (h : ∀ f, pre f → post a f) :
    Keeps fine pre (Pure.pure a : Asking σ φ α) post :=
  Obeys.pure allowance_carriesOn fun f _ hpre => h f hpre

theorem throw {e : φ} : Keeps fine pre (MonadExcept.throw e : Asking σ φ α) post :=
  Obeys.throw allowance_carriesOn

theorem forest : Keeps fine pre (Asking.forest : Asking σ φ Forest)
    fun a f => a = f ∧ a.WellFormed ∧ pre f :=
  (Obeys.forest allowance_carriesOn).imp (fun _ _ hpre => hpre) fun _ _ h =>
    ⟨h.1, h.2.1, h.1 ▸ h.2.2⟩

theorem change {g : Forest → α × Forest}
    (h : ∀ f, f.WellFormed → pre f → f.CarriesOn (g f).2 ∧ post (g f).1 (g f).2) :
    Keeps fine pre (Asking.change g : Asking σ φ α) post :=
  Obeys.change h

theorem ask {callback : Callback σ ε α} {failure : ε → φ} {n : NodeId}
    (h : ∀ f s r g t, callback n f s = (r, g, t) → fine t → fine s ∧
      (f.WellFormed → pre f → f.CarriesOn g ∧ ∀ a, r = .ok a → post a g)) :
    Keeps fine pre (callback.ask failure n) post :=
  Obeys.ask h

theorem bind {next : α → Asking σ φ β} {final : β → Forest → Prop} (hx : Keeps fine pre x post)
    (hnext : ∀ a, Keeps fine (post a) (next a) final) : Keeps fine pre (x >>= next) final :=
  Obeys.bind allowance_carriesOn hx hnext

theorem of_pre {pre' : Forest → Prop} (hx : Keeps fine pre x post)
    (hpre : ∀ f, pre' f → pre f) : Keeps fine pre' x post :=
  Obeys.of_pre hx fun f _ hp => hpre f hp

end Keeps

/-- The forest is carried on if every call that is made is good. -/
theorem carriesOn_of_calls {x : Asking σ φ α} {x' : Asking (σ × List (Call ε β)) φ α}
    {good : Call ε β → Prop} {pre : Forest → Prop} {post : α → Forest → Prop}
    (hmirror : Mirrors x' x) (hkeeps : Keeps (AllGood good) pre x' post) {f : Forest} {s : σ}
    (hf : f.WellFormed) (hpre : pre f) (hcalls : ∀ call ∈ calls x' f s, good call) :
    f.CarriesOn (result x f s).2.1 :=
  (Obeys.of_calls hmirror hkeeps hf hpre hcalls).1

end Asking

end MarkdownTree
