import MarkdownTree.Moment
import MarkdownTree.Number.Binary64
import MarkdownTree.Text.Quoted

/-!
Dynamic values: what metadata, element fields, configuration files and settings hold. Numbers of
different types are equal if their exact values are, with `true` as one and `false` as zero.
-/

namespace MarkdownTree

abbrev NodeId := Nat

/-- The type of a settings record. Records of one name but of different generations are of
different types: each loading of a settings file makes a generation of its own. -/
structure RecordType where
  name : String
  generation : Nat
  deriving DecidableEq, Inhabited

/-- A dynamic value. A node is held by reference. -/
inductive Value where
  | null
  | bool (b : Bool)
  | int (i : Int)
  | float (x : Binary64)
  | str (s : String)
  | list (items : List Value)
  | mapping (entries : List (String × Value))
  | moment (m : Moment)
  | node (id : NodeId)
  | record (type : RecordType) (fields : List (String × Value))
  deriving Inhabited

/-- Named values in order, each name once. -/
abbrev Entries := List (String × Value)

namespace Entries

def get? (entries : Entries) (name : String) : Option Value :=
  (entries.find? (·.1 == name)).map (·.2)

def has (entries : Entries) (name : String) : Bool :=
  entries.any (·.1 == name)

/-- Sets the value under a name: a new name goes to the end, a known one keeps its place. -/
def put (entries : Entries) (name : String) (value : Value) : Entries :=
  match entries with
  | [] => [(name, value)]
  | (key, old) :: rest =>
    if key == name then (key, value) :: rest else (key, old) :: put rest name value

def without (entries : Entries) (name : String) : Entries :=
  entries.filter (·.1 != name)

def names (entries : Entries) : List String :=
  entries.map (·.1)

@[simp] theorem get?_nil (name : String) : get? [] name = none := rfl

theorem get?_cons (key name : String) (v : Value) (rest : Entries) :
    get? ((key, v) :: rest) name = if key = name then some v else get? rest name := by
  by_cases h : key = name <;> simp [get?, h]

theorem get?_put_self (entries : Entries) (name : String) (v : Value) :
    (entries.put name v).get? name = some v := by
  induction entries with
  | nil => simp [put, get?_cons]
  | cons entry rest ih =>
    obtain ⟨key, old⟩ := entry
    by_cases h : key = name <;> simp [put, h, get?_cons, ih]

theorem get?_put_of_ne (entries : Entries) {name other : String} (v : Value) (h : name ≠ other) :
    (entries.put name v).get? other = entries.get? other := by
  induction entries with
  | nil => simp [put, get?_cons, h]
  | cons entry rest ih =>
    obtain ⟨key, old⟩ := entry
    by_cases hk : key = name
    · subst hk
      simp [put, get?_cons, h]
    · simp [put, hk, get?_cons, ih]

/-- A name keeps its place, or goes to the end. -/
theorem names_put (entries : Entries) (name : String) (v : Value) :
    (entries.put name v).names =
      if entries.has name then entries.names else entries.names ++ [name] := by
  induction entries with
  | nil => simp [put, names, has]
  | cons entry rest ih =>
    obtain ⟨key, old⟩ := entry
    by_cases hk : key = name
    · simp [put, hk, names, has]
    · simp only [names, has] at ih
      by_cases hr : rest.any (·.1 == name) = true <;> simp_all [put, names, has]

end Entries

namespace Value

def typeName : Value → String
  | .null => "NoneType"
  | .bool _ => "bool"
  | .int _ => "int"
  | .float _ => "float"
  | .str _ => "str"
  | .list _ => "list"
  | .mapping _ => "dict"
  | .moment m => m.typeName
  | .node _ => "Node"
  | .record type _ => type.name

def member? (v : Value) (name : String) : Option Value :=
  match v with
  | .record _ fields => Entries.get? fields name
  | _ => none

/-- Whether a value counts as true where a flag is asked for. -/
def isTruthy : Value → Bool
  | .null => false
  | .bool b => b
  | .int i => i != 0
  | .float (.finite _ mantissa _) => mantissa != 0
  | .str s => s != ""
  | .list items => !items.isEmpty
  | .mapping entries => !entries.isEmpty
  | _ => true

mutual

def plain : Value → Value
  | .list items => .list (plainList items)
  | .mapping entries => .mapping (plainEntries entries)
  | .record _ fields => .mapping (plainEntries fields)
  | v => v
termination_by structural v => v

def plainList : List Value → List Value
  | [] => []
  | v :: rest => plain v :: plainList rest

def plainEntries : List (String × Value) → List (String × Value)
  | [] => []
  | (name, v) :: rest => (name, plain v) :: plainEntries rest

end

mutual

/-- Entries laid over others: what they name counts, dictionaries are laid over dictionaries. -/
def overlay (base : List (String × Value)) : List (String × Value) → List (String × Value)
  | [] => base
  | (name, v) :: rest =>
    overlay (Entries.put base name (overlayValue (Entries.get? base name) v)) rest

def overlayValue (base : Option Value) : Value → Value
  | .mapping entries => match base with
    | some (.mapping old) => .mapping (overlay old entries)
    | _ => .mapping entries
  | v => v

end

/-- The exact number that a value denotes, as a numerator over a power of two. -/
def number? : Value → Option (Int × Nat)
  | .bool b => some (if b then 1 else 0, 0)
  | .int i => some (i, 0)
  | .float x => x.dyadic?
  | _ => none

/-- Equality of values with an exact number, or of infinities. -/
def sameNumber (a b : Value) : Bool :=
  match a, b with
  | .float (.infinite s), .float (.infinite t) => s == t
  | _, _ => match a.number?, b.number? with
    | some x, some y => x == y
    | _, _ => false

mutual

/-- Equality of values: dictionaries without regard to order, nodes by identity. What is not a
number differs from itself, except `inside` a container. -/
def agreesWithin (inside : Bool) : Value → Value → Bool
  | .null, .null => true
  | .float .nan, .float .nan => inside
  | .str s, .str t => s == t
  | .moment m, .moment n => m == n
  | .node m, .node n => m == n
  | .list xs, .list ys => agreesList xs ys
  | .mapping xs, .mapping ys => xs.length == ys.length && agreesEntries xs ys
  | .record s xs, .record t ys => s == t && xs.length == ys.length && agreesEntries xs ys
  | a, b => sameNumber a b
termination_by structural a => a

def agreesList : List Value → List Value → Bool
  | [], [] => true
  | x :: xs, y :: ys => agreesWithin true x y && agreesList xs ys
  | _, _ => false

def agreesEntries : List (String × Value) → List (String × Value) → Bool
  | [], _ => true
  | (name, x) :: rest, ys =>
    (match ys.find? (·.1 == name) with
      | some (_, y) => agreesWithin true x y
      | none => false) && agreesEntries rest ys

end

def agrees (a b : Value) : Bool :=
  agreesWithin false a b

instance : BEq Value := ⟨agrees⟩

mutual

/-- The text of a value that shows its type: strings are quoted. -/
def text (nodeText : NodeId → String) : Value → String
  | .null => "None"
  | .bool b => if b then "True" else "False"
  | .int i => toString i
  | .float x => x.text
  | .str s => Text.quoted s
  | .list items => "[" ++ String.intercalate ", " (textList nodeText items) ++ "]"
  | .mapping entries =>
    "\x7b" ++ String.intercalate ", " (textEntries nodeText ": " true entries) ++ "\x7d"
  | .moment m => m.text
  | .node id => nodeText id
  | .record type fields =>
    type.name ++ "(" ++ String.intercalate ", " (textEntries nodeText "=" false fields) ++ ")"
termination_by structural v => v

def textList (nodeText : NodeId → String) : List Value → List String
  | [] => []
  | v :: rest => text nodeText v :: textList nodeText rest

def textEntries (nodeText : NodeId → String) (sep : String) (quoteNames : Bool) :
    List (String × Value) → List String
  | [] => []
  | (name, v) :: rest =>
    ((if quoteNames then Text.quoted name else name) ++ sep ++ text nodeText v) ::
      textEntries nodeText sep quoteNames rest

end

/-- The text of a value within other text: a string stands for itself. -/
def display (nodeText : NodeId → String) : Value → String
  | .str s => s
  | v => v.text nodeText

mutual

def nodes : Value → List NodeId
  | .node id => [id]
  | .list items => nodesList items
  | .mapping entries => nodesEntries entries
  | .record _ fields => nodesEntries fields
  | _ => []
termination_by structural v => v

def nodesList : List Value → List NodeId
  | [] => []
  | v :: rest => nodes v ++ nodesList rest

def nodesEntries : List (String × Value) → List NodeId
  | [] => []
  | (_, v) :: rest => nodes v ++ nodesEntries rest

end

mutual

def mapNodes (f : NodeId → NodeId) : Value → Value
  | .node id => .node (f id)
  | .list items => .list (mapNodesList f items)
  | .mapping entries => .mapping (mapNodesEntries f entries)
  | .record type fields => .record type (mapNodesEntries f fields)
  | v => v
termination_by structural v => v

def mapNodesList (f : NodeId → NodeId) : List Value → List Value
  | [] => []
  | v :: rest => mapNodes f v :: mapNodesList f rest

def mapNodesEntries (f : NodeId → NodeId) : List (String × Value) → List (String × Value)
  | [] => []
  | (name, v) :: rest => (name, mapNodes f v) :: mapNodesEntries f rest

end

end Value

end MarkdownTree
