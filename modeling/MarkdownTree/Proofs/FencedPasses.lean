import MarkdownTree.Proofs.FencedCopies
import MarkdownTree.Proofs.LiveChanges
import MarkdownTree.Proofs.TabsGrowth

/-!
Passes from a root outside a fenced region. Every place of the pass is outside, so its visitor is
only asked about nodes outside; if it spares the region then, and names nodes outside, so does the
pass. The transformations of tabs are passes of this kind.
-/

namespace MarkdownTree

open Forest Asking

variable {P : Region} {f : Forest} {root : NodeId}

namespace Revision

variable {σ ε : Type} {visit : Responder σ ε}

/-- A pass may be at nodes outside a fenced region, and name such nodes. -/
theorem allows_spares (P : Region) : Allows (fun f => f.Fenced P) (fun f g => f.Spares P g)
    (fun f n => f.Outside P n) fun f n => f.Outside P n where
  allowance := allowance_fenced P
  here_of_may hfg hn := hfg.outside hn
  named_of_may hfg hn := hfg.outside hn
  here_of_named hn := hn
  here_of_mem hf hp hc := hf.outside_of_mem_children hp hc
  replaceChild hf hp hvalues := hf.replaceChild hp _ hvalues
  unlink hf hn := hf.unlink hn

theorem allowsLists_spares (P : Region) : AllowsLists (fun f => f.Fenced P)
    (fun f g => f.Spares P g) (fun f n => f.Outside P n) fun f n => f.Outside P n where
  toAllows := allows_spares P
  replaceByChildren rounds hf hp hn := hf.replaceByChildren hp hn rounds _

theorem Live.spares_revise {s : σ} {rounds steps : Nat} (hf : f.Fenced P) (hroot : f.Outside P root)
    (hcalls : ∀ call ∈ Live.passCalls visit rounds steps root f s,
      call.before.Fenced P → call.before.Outside P call.node →
        call.before.Spares P call.after ∧ ∀ reply decision, call.answer = .ok reply →
          reply.toDecision call.node = .ok decision →
            decision.Names fun n => call.after.Outside P n) :
    f.Spares P (result (Live.revise visit rounds steps root) f s).2.1 :=
  Live.may_revise_of_calls (allowsLists_spares P) rounds hf hroot hcalls

end Revision

namespace Tabs

/-- What the transformations of tabs find near a node outside a fenced region is outside. -/
theorem allowsTabs_spares (P : Region) : AllowsTabs (fun f => f.Fenced P) (fun f g => f.Spares P g)
    (fun f n => f.Outside P n) fun f n => f.Outside P n where
  toAllows := Revision.allows_spares P
  here_of_parent? hf hn hp := hf.outside_of_parent? hn hp
  named_of_mem hf hp hc := hf.outside_of_mem_children hp hc
  named_of_mem_metadata hf hn hc := hf.outside_of_mem_metadata hn hc
  addNode hf element := hf.addNode_nil element
  copyTree hf hn := hf.copyTree hn
  appendChild hf hp hc := hf.appendChild hp fun k hk => by cases hk; exact hc
  updateMetadata hf hn change hchange := hf.updateMetadata hn change hchange

section
variable (hf : f.Fenced P) (hroot : f.Outside P root)

include hf hroot

theorem spares_interleave (category : Value) (grouped : Bool) :
    f.Spares P (interleave category grouped root f).2.2 :=
  may_interleave (allowsTabs_spares P) hf hroot category grouped

theorem spares_stash (category : Value) (grouped : Bool) :
    f.Spares P (stash category grouped root f).2.2 :=
  may_stash (allowsTabs_spares P) hf hroot category grouped

end

end Tabs

end MarkdownTree
