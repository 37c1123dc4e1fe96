/-!
Lines of text. A line ends at a line feed, a carriage return or the pair of both, or at one of the
other line and paragraph separators; the end of the last line need not be marked.
-/

namespace MarkdownTree.Text

def isLineEnd (c : Char) : Bool :=
  (0x0A ≤ c.toNat && c.toNat ≤ 0x0D) || (0x1C ≤ c.toNat && c.toNat ≤ 0x1E) ||
    c.toNat == 0x85 || c.toNat == 0x2028 || c.toNat == 0x2029

/-- The lines of a text, given the characters of the current line, last one first. -/
def linesFrom (current : List Char) : List Char → List (List Char)
  | [] => if current.isEmpty then [] else [current.reverse]
  | '\r' :: '\n' :: rest => current.reverse :: linesFrom [] rest
  | c :: rest =>
    if isLineEnd c then current.reverse :: linesFrom [] rest else linesFrom (c :: current) rest

def lines (s : String) : List String :=
  (linesFrom [] s.toList).map String.ofList

def piecesFrom : List Char → List (List Char)
  | [] => [[]]
  | c :: rest =>
    match piecesFrom rest with
    | [] => [[c]]
    | piece :: pieces => if c = '\n' then [] :: piece :: pieces else (c :: piece) :: pieces

def splitAtLineFeeds (s : String) : List String :=
  (piecesFrom s.toList).map String.ofList

def occursIn (part : List Char) : List Char → Bool
  | [] => part.isEmpty
  | c :: rest => part.isPrefixOf (c :: rest) || occursIn part rest

def contains (part s : String) : Bool :=
  occursIn part.toList s.toList

end MarkdownTree.Text
