import MarkdownTree.Toml.Moment
import MarkdownTree.Toml.Number
import MarkdownTree.Toml.Text
import MarkdownTree.Toml.Tree

/-!
Reads TOML documents. A document is a series of statements, each on a line: a value under a key, the
declaration of a table, or of a further table of a list.
-/

namespace MarkdownTree.Toml

/-- Whether a character may occur in a key without quotation marks. -/
def isBare (c : Char) : Bool :=
  c.isAlphanum || c = '-' || c = '_'

def readPart (s : List Char) : Reads String :=
  match s with
  | '"' :: rest => (readBasic false .nothing rest).map fun (t, rest) => (String.ofList t, rest)
  | '\'' :: rest =>
    (readLiteral ['\''] isIllegal rest).map fun (t, rest) => (String.ofList t, rest)
  | s =>
    let bare := s.takeWhile isBare
    if bare.isEmpty then stop .noKey s else .ok (String.ofList bare, s.dropWhile isBare)

/-- Reads the parts of a key after the first, each behind a point. -/
def readParts : Nat → List Char → Reads Key
  | fuel + 1, '.' :: rest =>
    match readPart (skipBlanks rest) with
    | .error e => .error e
    | .ok (part, rest) =>
      (readParts fuel (skipBlanks rest)).map fun (parts, rest) => (part :: parts, rest)
  | _, s => .ok ([], s)

def readKey (s : List Char) : Reads Key :=
  match readPart s with
  | .error e => .error e
  | .ok (part, rest) =>
    (readParts rest.length (skipBlanks rest)).map fun (parts, rest) => (part :: parts, rest)

def splitKey (key : Key) : Key × String :=
  (key.dropLast, key.getLastD "")

def readKeyEquals (s : List Char) : Reads Key :=
  match readKey s with
  | .error e => .error e
  | .ok (key, '=' :: rest) => .ok (key, skipBlanks rest)
  | .ok (_, rest) => stop .noEquals rest

def readSimple (s : List Char) : Reads Value :=
  match readText? s with
  | some read => read.map fun (t, rest) => (.str (String.ofList t), rest)
  | none =>
    match s with
    | 't' :: 'r' :: 'u' :: 'e' :: rest => .ok (.bool true, rest)
    | 'f' :: 'a' :: 'l' :: 's' :: 'e' :: rest => .ok (.bool false, rest)
    | s =>
      match moment? s with
      | some read => read.map fun (m, rest) => (.moment m, rest)
      | none =>
        match oversized? s, number? s with
        | some digits, _ => stop (.oversizedInteger digits) s
        | none, some (v, rest) => .ok (v, rest)
        | none, none => stop .noValue s

/-- Adds the value of a key to a table that is written in one piece; `rest` is the text after
it. -/
def addInline (table : Entries) (marks : Marks) (key : Key) (v : Value) (rest : List Char) :
    Except Fault Entries :=
  let (path, part) := splitKey key
  if marks.isFrozen key then stop (.immutable key) rest
  else
    match changeTable false some path table with
    | none => stop .overwritten rest
    | some _ =>
      match changeTable false (addEntry part v) path table with
      | some table => .ok table
      | none => stop (.repeatedInline part) rest

mutual

def readValue : Nat → List Char → Reads Value
  | 0, s => stop .noValue s
  | fuel + 1, '[' :: rest =>
    match skipFiller rest.length rest with
    | .error e => .error e
    | .ok (']' :: after) => .ok (.list [], after)
    | .ok s => (readItems fuel s).map fun (items, rest) => (.list items, rest)
  | fuel + 1, '\x7b' :: rest =>
    match skipBlanks rest with
    | '\x7d' :: after => .ok (.mapping [], after)
    | s => (readPairs fuel [] Marks.none s).map fun (table, rest) => (.mapping table, rest)
  | _, s => readSimple s

/-- Reads the items of an array up to its end; there is at least one. -/
def readItems : Nat → List Char → Reads (List Value)
  | 0, s => stop .openArray s
  | fuel + 1, s =>
    match readValue fuel s with
    | .error e => .error e
    | .ok (v, rest) =>
      match skipFiller rest.length rest with
      | .error e => .error e
      | .ok (']' :: after) => .ok ([v], after)
      | .ok (',' :: rest) =>
        match skipFiller rest.length rest with
        | .error e => .error e
        | .ok (']' :: after) => .ok ([v], after)
        | .ok s => (readItems fuel s).map fun (items, rest) => (v :: items, rest)
      | .ok s => stop .openArray s

/-- Reads the pairs of a table that is written in one piece, up to its end; there is at least
one. -/
def readPairs : Nat → Entries → Marks → List Char → Reads Entries
  | 0, _, _, s => stop .openInlineTable s
  | fuel + 1, table, marks, s =>
    match readKeyEquals s with
    | .error e => .error e
    | .ok (key, rest) =>
      match readValue fuel rest with
      | .error e => .error e
      | .ok (v, rest) =>
        match addInline table marks key v rest with
        | .error e => .error e
        | .ok table =>
          match skipBlanks rest with
          | '\x7d' :: after => .ok (table, after)
          | ',' :: rest =>
            readPairs fuel table (if isNested v then marks.freeze key else marks) (skipBlanks rest)
          | s => stop .openInlineTable s

end

/-- What was read so far: the tables, the marked keys, those to be marked as declared when the next
declaration comes, and the key of the table that values go to. -/
structure Progress where
  tables : Entries
  marks : Marks
  pending : List Key
  current : Key

def Progress.start : Progress := ⟨[], Marks.none, [], []⟩

/-- The keys of the tables that a dotted key opens below the current table. -/
def openedBy (current key : Key) : List Key :=
  (List.range (key.length - 1)).map fun i => current ++ key.take (i + 1)

def Progress.addValue (p : Progress) (key : Key) (v : Value) (rest : List Char) :
    Except Fault Progress :=
  let opened := openedBy p.current key
  let (path, part) := splitKey (p.current ++ key)
  match opened.find? p.marks.isDeclared with
  | some k => stop (.redefined k) rest
  | none =>
    if p.marks.isFrozen path then stop (.immutable path) rest
    else
      match changeTable true (addEntry part v) path p.tables with
      | none => stop .overwritten rest
      | some tables => .ok { p with
          tables := tables
          marks := if isNested v then p.marks.freeze (p.current ++ key) else p.marks
          pending := opened ++ p.pending }

def Progress.settle (p : Progress) : Progress :=
  { p with marks := p.pending.foldl Marks.declare p.marks, pending := [] }

def Progress.declareTable (p : Progress) (key : Key) (rest : List Char) : Except Fault Progress :=
  if p.marks.isDeclared key || p.marks.isFrozen key then stop (.declaredTwice key) rest
  else
    match changeTable true some key p.tables with
    | none => stop .overwritten rest
    | some tables => .ok { p with tables := tables, marks := p.marks.declare key, current := key }

def Progress.appendTable (p : Progress) (key : Key) (rest : List Char) : Except Fault Progress :=
  let (path, part) := splitKey key
  if p.marks.isFrozen key then stop (.immutable key) rest
  else
    match changeTable true (Toml.appendTable part) path p.tables with
    | none => stop .overwritten rest
    | some tables => .ok { p with
        tables := tables, marks := (p.marks.release key).declare key, current := key }

def readAssignment (p : Progress) (s : List Char) : Reads Progress :=
  match readKeyEquals s with
  | .error e => .error e
  | .ok (key, rest) =>
    match readValue (2 * rest.length + 2) rest with
    | .error e => .error e
    | .ok (v, rest) => (p.addValue key v rest).map fun p => (p, rest)

def readDeclaration (p : Progress) (s : List Char) : Reads Progress :=
  match readKey (skipBlanks s) with
  | .error e => .error e
  | .ok (key, rest) =>
    match p.declareTable key rest, rest with
    | .error e, _ => .error e
    | .ok p, ']' :: after => .ok (p, after)
    | .ok _, rest => stop .openTable rest

/-- Reads the declaration of a further table of a list behind its two opening brackets. -/
def readAppend (p : Progress) (s : List Char) : Reads Progress :=
  match readKey (skipBlanks s) with
  | .error e => .error e
  | .ok (key, rest) =>
    match p.appendTable key rest, rest with
    | .error e, _ => .error e
    | .ok p, ']' :: ']' :: after => .ok (p, after)
    | .ok _, rest => stop .openTableList rest

def readStatement (p : Progress) (s : List Char) : Reads Progress :=
  match s with
  | '#' :: _ => .ok (p, s)
  | '[' :: '[' :: rest => readAppend p.settle rest
  | '[' :: rest => readDeclaration p.settle rest
  | c :: _ =>
    if isBare c || c = '"' || c = '\'' then readAssignment p s else stop .noStatement s
  | [] => .ok (p, s)

def readLines : Nat → Progress → List Char → Except Fault Progress
  | 0, p, _ => .ok p
  | fuel + 1, p, s =>
    match skipBlanks s with
    | [] => .ok p
    | '\n' :: rest => readLines fuel p rest
    | line =>
      match readStatement p line with
      | .error e => .error e
      | .ok (p, rest) =>
        match skipComment (skipBlanks rest) with
        | .error e => .error e
        | .ok [] => .ok p
        | .ok ('\n' :: rest) => readLines fuel p rest
        | .ok rest => stop .noLineEnd rest

def joinLineEnds : List Char → List Char
  | '\r' :: '\n' :: rest => '\n' :: joinLineEnds rest
  | c :: rest => c :: joinLineEnds rest
  | [] => []

def sourceOf (text : String) : List Char :=
  joinLineEnds text.toList

def read (text : String) : Except Fault Entries :=
  let source := sourceOf text
  (readLines (source.length + 1) .start source).map (·.tables)

end MarkdownTree.Toml
