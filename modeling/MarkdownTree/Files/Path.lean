/-!
Paths of files. A path is a series of names, from the working folder on or from a root; a point or
nothing between two slashes names the folder itself and is left out. Two points are kept, since what
they mean depends on the folders that there are.
-/

namespace MarkdownTree.Files

/-- A path. The root is empty for paths from the working folder on. -/
structure Path where
  root : String
  parts : List String
  deriving DecidableEq, Inhabited

namespace Path

def splitAtSlashes : List Char → List (List Char)
  | [] => [[]]
  | c :: rest =>
    match splitAtSlashes rest with
    | [] => [[c]]
    | piece :: pieces => if c = '/' then [] :: piece :: pieces else (c :: piece) :: pieces

/-- The root at the start of a text: one slash, or two if there are just two. -/
def rootOf : List Char → String
  | '/' :: '/' :: '/' :: _ => "/"
  | '/' :: '/' :: _ => "//"
  | '/' :: _ => "/"
  | _ => ""

def ofString (s : String) : Path where
  root := rootOf s.toList
  parts := ((splitAtSlashes s.toList).map String.ofList).filter fun part =>
    part != "" && part != "."

/-- Reads the path of a folder: slashes at its end do not count, and nothing else is the root. -/
def ofFolder (s : String) : Path :=
  let core := (s.toList.reverse.dropWhile (· == '/')).reverse
  ofString (if core.isEmpty then "/" else String.ofList core)

/-- The name of the user whose home folder a path begins with: it follows a tilde. -/
def namedUser? (p : Path) : Option String :=
  match p.root, p.parts.map String.toList with
  | "", ('~' :: user) :: _ => some (String.ofList user)
  | _, _ => none

def text (p : Path) : String :=
  if p.root = "" && p.parts.isEmpty then "." else p.root ++ String.intercalate "/" p.parts

def parent (p : Path) : Path :=
  { p with parts := p.parts.dropLast }

end Path

end MarkdownTree.Files
