import MarkdownTree.Toml.Fault

/-!
What stands between the parts of a TOML document: blanks, line ends and comments.
-/

namespace MarkdownTree.Toml

def isBlank (c : Char) : Bool :=
  c = ' ' || c = '\t'

def isBlankOrLineEnd (c : Char) : Bool :=
  isBlank c || c = '\n'

def isControl (c : Char) : Bool :=
  c.toNat < 0x20 || c.toNat = 0x7F

/-- Whether a character may not stand for itself within one line. -/
def isIllegal (c : Char) : Bool :=
  isControl c && c != '\t'

/-- Whether a character may not stand for itself in a text of several lines. -/
def isIllegalInLines (c : Char) : Bool :=
  isIllegal c && c != '\n'

def skipBlanks (s : List Char) : List Char :=
  s.dropWhile isBlank

/-- Fails at the first character of `taken` that is illegal; `rest` comes after `taken`. -/
def checkLegal (illegal : Char → Bool) (rest : List Char) : List Char → Except Fault Unit
  | [] => .ok ()
  | c :: taken =>
    if illegal c then .error ⟨.invalidCharacter c, (c :: taken).length + rest.length⟩
    else checkLegal illegal rest taken

/-- The text up to the first occurrence of `mark`, and what follows that mark. -/
def splitAtMark? (mark : List Char) : List Char → Option (List Char × List Char)
  | [] => none
  | c :: rest =>
    if mark.isPrefixOf (c :: rest) then some ([], (c :: rest).drop mark.length)
    else (splitAtMark? mark rest).map fun (taken, after) => (c :: taken, after)

def skipComment : List Char → Except Fault (List Char)
  | '#' :: s => do
    let rest := s.dropWhile (· != '\n')
    checkLegal isIllegal rest (s.takeWhile (· != '\n'))
    .ok rest
  | s => .ok s

/-- The text after blanks, line ends and comments, as they may stand between the items of an
array. -/
def skipFiller : Nat → List Char → Except Fault (List Char)
  | 0, s => .ok s
  | fuel + 1, s => do
    let after ← skipComment (s.dropWhile isBlankOrLineEnd)
    if after.length < s.length then skipFiller fuel after else .ok after

end MarkdownTree.Toml
