import MarkdownTree.Settings.Section
import MarkdownTree.Tabs.Stash

/-!
Tabs of a document as its settings say.
-/

namespace MarkdownTree.Tabs

def tabsSettings (settings : Value) : Except TreeFault Value :=
  match settings with
  | .record type _ =>
    if Settings.isSettings type then needMember settings Settings.tabsSection.key
    else if type.name = Settings.tabsSection.record then .ok settings
    else .error (.notSettings type.name)
  | v => .error (.notSettings v.typeName)

/-- Turns the tabs of a document into markup, in the way that the settings name. If they name none,
nothing is done, and there is no result. -/
def transform (settings : Value) (root : NodeId) (f : Forest) :
    Except TreeFault (Option NodeId) × List Log.Message × Forest :=
  let run (way : Value → Bool → NodeId → Forest →
      Except TreeFault NodeId × List Log.Message × Forest) (tabs : Value) :=
    match needMember tabs "group_consecutive", needMember tabs "category" with
    | .ok grouped, .ok category =>
      let (result, messages, f) := way category grouped.isTruthy root f
      (result.map some, messages, f)
    | .error e, _ | _, .error e => (.error e, [], f)
  match tabsSettings settings with
  | .error e => (.error e, [], f)
  | .ok tabs =>
    match needMember tabs "strategy" with
    | .error e => (.error e, [], f)
    | .ok (.str "interleaved") => run interleave tabs
    | .ok (.str "stash") => run stash tabs
    | .ok _ => (.ok none, [], f)

end MarkdownTree.Tabs
