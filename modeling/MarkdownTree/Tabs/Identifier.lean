import MarkdownTree.Text.Blank
import MarkdownTree.Text.Case
import MarkdownTree.Text.Word

/-!
Identifiers of tabs: the words of a title in lower case, joined by dashes, cut to fifty characters
and marked as belonging to a tab.
-/

namespace MarkdownTree.Tabs

/-- Whether a character is kept for an identifier: word characters, blanks and dashes. -/
def isKept (c : Char) : Bool :=
  Text.isWord c || Text.isBlank c || c == '-'

def joinWithDashes : List Char → List Char
  | [] => []
  | c :: rest =>
    let more := joinWithDashes rest
    if c = '-' ∨ Text.isBlank c = true then
      match more with
      | '-' :: _ => more
      | _ => '-' :: more
    else
      c :: more

def stripDashes (s : List Char) : List Char :=
  ((s.dropWhile (· == '-')).reverse.dropWhile (· == '-')).reverse

/-- The greatest length of the part of an identifier that comes from the title. -/
def longestBody : Nat := 50

def identifierBody (title : List Char) : List Char :=
  (stripDashes (joinWithDashes ((Text.lower title).filter isKept))).take longestBody

def identifier (title : String) : String :=
  String.ofList (['t', 'a', 'b', '-'] ++ identifierBody title.toList)

end MarkdownTree.Tabs
