import MarkdownTree.Value
import MarkdownTree.Yaml.Scalar

/-!
Block notation of nested values: an entry or an item on each line, sorted by name, with the items of
a list no deeper than the name of the list, and empty containers in brackets. Nodes, records and
times of day have no notation.
-/

namespace MarkdownTree.Yaml

/-- The text of a number with a fraction; there is always a point. -/
def realText : Binary64 → List Char
  | .nan => ['.', 'n', 'a', 'n']
  | .infinite negative => (if negative then ['-'] else []) ++ ['.', 'i', 'n', 'f']
  | x =>
    let s := x.text.toList
    if s.contains '.' then s
    else s.takeWhile (· != 'e') ++ ['.', '0'] ++ s.dropWhile (· != 'e')

/-- A number in so many digits, with zeros in front. -/
def padded (width n : Nat) : List Char :=
  let digits := (toString n).toList
  List.replicate (width - digits.length) '0' ++ digits

def dateText (d : Date) : List Char :=
  padded 4 d.year ++ '-' :: padded 2 d.month ++ '-' :: padded 2 d.day

def timeText (t : TimeOfDay) : List Char :=
  padded 2 t.hour ++ ':' :: padded 2 t.minute ++ ':' :: padded 2 t.second ++
    if t.microsecond = 0 then [] else '.' :: padded 6 t.microsecond

/-- The hours and minutes that local time is ahead of universal time. -/
def offsetText (minutes : Int) : List Char :=
  (if minutes < 0 then '-' else '+') ::
    padded 2 (minutes.natAbs / 60) ++ ':' :: padded 2 (minutes.natAbs % 60)

/-- The text of a moment; a time of day alone has none. -/
def momentText? : Moment → Option (List Char)
  | .date d => some (dateText d)
  | .time _ => none
  | .dateTime d t offset =>
    some (dateText d ++ ' ' :: timeText t ++ (offset.map offsetText).getD [])

def sortEntries (entries : Entries) : Entries :=
  entries.mergeSort fun a b => a.1 ≤ b.1

/-- The number of characters from which on a name is too long for the line of its value. -/
def longName : Nat := 123

def isSimpleName (name : List Char) : Bool :=
  !name.isEmpty && name.length < longName &&
    !name.any ['\n', '\u0085', '\u2028', '\u2029'].contains

/-- The name of an entry and the colon after it. A name that cannot stand on the line of its value
comes after a question mark, and the colon stands on a line of its own. -/
def keyText (indent : Nat) (name : List Char) : List Char :=
  if isSimpleName name then
    writeText (styleOf true name) indent indent name ++ [':']
  else
    '?' :: ' ' :: writeText (styleOf false name) (indent + 2) (indent + 2) name ++
      newLine indent ++ [':']

/-- A new line where an entry starts, unless the entry goes on with the line of an item. -/
def lineStart (indent : Nat) (continues : Bool) : List Char :=
  if continues then [] else newLine indent

mutual

/-- A value after the name of an entry or the dash of an item: `column` is where the line stands,
`indent` the depth of the container around it. -/
def blockValue (indent column : Nat) (inEntry : Bool) : Value → List Char
  | .null => " null".toList
  | .bool b => if b then " true".toList else " false".toList
  | .int i => ' ' :: (toString i).toList
  | .float x => ' ' :: realText x
  | .str s => ' ' :: writeText (styleOf false s.toList) (indent + 2) (column + 1) s.toList
  | .list [] => " []".toList
  | .mapping [] => " \x7b\x7d".toList
  | .list items =>
    if inEntry then blockItems indent false items else ' ' :: blockItems (indent + 2) true items
  | .mapping entries =>
    if inEntry then blockEntries (indent + 2) false entries
    else ' ' :: blockEntries (indent + 2) true entries
  | .moment m => ' ' :: (momentText? m).getD []
  | .node _ | .record .. => []
termination_by structural v => v

def blockItems (indent : Nat) (continues : Bool) : List Value → List Char
  | [] => []
  | v :: rest =>
    lineStart indent continues ++ '-' :: blockValue indent (indent + 1) false v ++
      blockItems indent false rest

def blockEntries (indent : Nat) (continues : Bool) : List (String × Value) → List Char
  | [] => []
  | (name, v) :: rest =>
    let key := keyText indent name.toList
    let simple := isSimpleName name.toList
    let column := indent + if simple then key.length else 1
    lineStart indent continues ++ key ++ blockValue indent column simple v ++
      blockEntries indent false rest

end

mutual

def sortValue : Value → Value
  | .list items => .list (sortItems items)
  | .mapping entries => .mapping (sortEntries (sortNested entries))
  | v => v
termination_by structural v => v

def sortItems : List Value → List Value
  | [] => []
  | v :: rest => sortValue v :: sortItems rest

def sortNested : List (String × Value) → List (String × Value)
  | [] => []
  | (name, v) :: rest => (name, sortValue v) :: sortNested rest

end

mutual

def unwritable? : Value → Option Value
  | .list items => firstUnwritable? items
  | .mapping entries => firstUnwritableIn? entries
  | .moment m => if (momentText? m).isNone then some (.moment m) else none
  | .node n => some (.node n)
  | .record type fields => some (.record type fields)
  | _ => none
termination_by structural v => v

def firstUnwritable? : List Value → Option Value
  | [] => none
  | v :: rest => (unwritable? v).or (firstUnwritable? rest)

def firstUnwritableIn? : List (String × Value) → Option Value
  | [] => none
  | (_, v) :: rest => (unwritable? v).or (firstUnwritableIn? rest)

end

/-- Entries in block notation, or the first value that has none. -/
def dump (entries : Entries) : Except Value String :=
  let sorted := sortEntries (sortNested entries)
  match firstUnwritableIn? sorted with
  | some v => .error v
  | none => .ok (String.ofList (blockEntries 0 true sorted ++ ['\n']))

end MarkdownTree.Yaml
