import MarkdownTree.Text.Quoted
import MarkdownTree.Yaml.Plain

/-!
How a text is written as a scalar: without quotes where nothing in it has another meaning, in single
quotes where it can be read back from its lines, and otherwise in double quotes with escapes. All
that is not ASCII is escaped. Lines are folded at spaces past a width of eighty.
-/

namespace MarkdownTree.Yaml

def bestWidth : Nat := 80

/-- Characters that separate words for the purpose of comments and of mapping values. -/
def isSeparator (c : Char) : Bool :=
  ['\x00', ' ', '\t', '\r', '\n', '\u0085', '\u2028', '\u2029'].contains c

/-- Whether the next character separates words; so does the end. -/
def separatorNext : List Char → Bool
  | [] => true
  | c :: _ => isSeparator c

def startsWithMark (s : List Char) : Bool :=
  ['-', '-', '-'].isPrefixOf s || ['.', '.', '.'].isPrefixOf s ||
    match s with
    | [] => false
    | c :: rest =>
      ['#', ',', '[', ']', '\x7b', '\x7d', '&', '*', '!', '|', '>', '\'', '"', '%', '@',
        '\x60'].contains c ||
        (['?', ':', '-'].contains c && separatorNext rest)

/-- Whether a text has a mark inside: a colon at the end of a word, or a number sign at the start
of one. -/
def containsMark : List Char → Bool
  | c :: d :: rest =>
    (d == ':' && separatorNext rest) || (d == '#' && isSeparator c) || containsMark (d :: rest)
  | _ => false

def isSpecial (c : Char) : Bool :=
  !(c == '\n' || (' ' ≤ c && c ≤ '~'))

def hasPair (a b : Char) : List Char → Bool
  | c :: d :: rest => (c == a && d == b) || hasPair a b (d :: rest)
  | _ => false

/-- Whether a text starts or ends with a given character. -/
def bounded (c : Char) (s : List Char) : Bool :=
  s.head? == some c || s.getLast? == some c

/-- How a scalar is written. -/
inductive Style where
  | plain | single | double
  deriving DecidableEq

/-- Whether a text may be written without quotes, apart from being taken for another type. -/
def allowsPlain (s : List Char) : Bool :=
  !(startsWithMark s || containsMark s || bounded ' ' s || s.contains '\n' || s.any isSpecial)

def allowsSingle (s : List Char) : Bool :=
  !(hasPair '\n' ' ' s || hasPair ' ' '\n' s || s.any isSpecial)

/-- The style of a text, as a value or as the key of a mapping. -/
def styleOf (key : Bool) (s : List Char) : Style :=
  if !readsAsOther s && !(key && s.isEmpty) && allowsPlain s then .plain
  else if allowsSingle s && !(key && s.contains '\n') then .single
  else .double

/-- A stretch of a text: a word without spaces, or a number of spaces or of line ends. -/
inductive Stretch where
  | word (chars : List Char)
  | spaces (count : Nat)
  | breaks (count : Nat)

def Stretch.cons (c : Char) (rest : List Stretch) : List Stretch :=
  if c = ' ' then
    match rest with
    | .spaces n :: more => .spaces (n + 1) :: more
    | _ => .spaces 1 :: rest
  else if c = '\n' then
    match rest with
    | .breaks n :: more => .breaks (n + 1) :: more
    | _ => .breaks 1 :: rest
  else
    match rest with
    | .word w :: more => .word (c :: w) :: more
    | _ => .word [c] :: rest

def stretches (s : List Char) : List Stretch :=
  s.foldr Stretch.cons []

def newLine (indent : Nat) : List Char :=
  '\n' :: List.replicate indent ' '

/-- Writes stretches from a column on. A single space between words past the width becomes a line
end; line ends of the text are doubled. -/
def foldStretches (indent : Nat) (mayFold : Bool) (column : Nat) : List Stretch → List Char
  | [] => []
  | .word w :: rest => w ++ foldStretches indent true (column + w.length) rest
  | .spaces n :: rest =>
    if n = 1 ∧ bestWidth < column ∧ mayFold ∧ !rest.isEmpty then
      newLine indent ++ foldStretches indent true indent rest
    else
      List.replicate n ' ' ++ foldStretches indent true (column + n) rest
  | .breaks n :: rest =>
    List.replicate n '\n' ++ newLine indent ++ foldStretches indent true indent rest

def doubleQuotes : Stretch → Stretch
  | .word w => .word (w.flatMap fun c => if c = '\'' then ['\'', '\''] else [c])
  | other => other

def escapeLetter? (c : Char) : Option Char :=
  [('\x00', '0'), ('\x07', 'a'), ('\x08', 'b'), ('\t', 't'), ('\n', 'n'), ('\x0b', 'v'),
    ('\x0c', 'f'), ('\r', 'r'), ('\x1b', 'e'), ('"', '"'), ('\\', '\\'), ('\u0085', 'N'),
    ('\u00a0', '_'), ('\u2028', 'L'), ('\u2029', 'P')].lookup c

def escape (c : Char) : List Char :=
  let hex (width : Nat) := (Text.hexDigits width c.toNat).map Char.toUpper
  match escapeLetter? c with
  | some letter => ['\\', letter]
  | none =>
    if c.toNat ≤ 0xFF then '\\' :: 'x' :: hex 2
    else if c.toNat ≤ 0xFFFF then '\\' :: 'u' :: hex 4
    else '\\' :: 'U' :: hex 8

def isEscaped (c : Char) : Bool :=
  c == '"' || c == '\\' || c == '\n' || isSpecial c

/-- Continues a text between double quotes on a new line; a space that starts the line is marked. -/
def continueLine (indent : Nat) (next : Option Char) : List Char × Nat :=
  if next = some ' ' then ('\\' :: (newLine indent ++ ['\\']), indent + 1)
  else ('\\' :: newLine indent, indent)

/-- Writes the rest of a text between double quotes. The `pending` characters, last one first, are
decided on but not yet written; `column` is the one before them. -/
def foldEscaped (indent : Nat) (first : Bool) (pending : List Char) (column : Nat) :
    List Char → List Char
  | [] => pending.reverse
  | c :: rest =>
    let inside := !first && !rest.isEmpty
    if isEscaped c then
      let column := column + pending.length + (escape c).length
      let written := pending.reverse ++ escape c
      if inside && bestWidth + 1 < column then
        let (cut, column) := continueLine indent rest.head?
        written ++ cut ++ foldEscaped indent false [] column rest
      else
        written ++ foldEscaped indent false [] column rest
    else if inside && (c == ' ' || pending.isEmpty) && bestWidth < column + pending.length then
      let (cut, column) := continueLine indent (some c)
      pending.reverse ++ cut ++ foldEscaped indent false [c] column rest
    else
      foldEscaped indent false (c :: pending) column rest

/-- A text in a style, from a column on, with continuation lines indented. -/
def writeText (style : Style) (indent column : Nat) (s : List Char) : List Char :=
  match style with
  | .plain => foldStretches indent true column (stretches s)
  | .single =>
    '\'' :: (foldStretches indent false (column + 1) ((stretches s).map doubleQuotes) ++ ['\''])
  | .double => '"' :: (foldEscaped indent true [] (column + 1) s ++ ['"'])

end MarkdownTree.Yaml
