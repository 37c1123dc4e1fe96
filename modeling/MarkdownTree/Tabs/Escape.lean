/-!
Escaped text for markup: the characters that have a meaning in markup are written as entities. The
replacements are made one character after the other over the whole text, the ampersand first, so
that no entity is escaped again. Entities are read back from left to right.
-/

namespace MarkdownTree.Markup

def entity? (c : Char) : Option (List Char) :=
  match c with
  | '&' => some ['&', 'a', 'm', 'p', ';']
  | '<' => some ['&', 'l', 't', ';']
  | '>' => some ['&', 'g', 't', ';']
  | '"' => some ['&', 'q', 'u', 'o', 't', ';']
  | '\'' => some ['&', '#', '3', '9', ';']
  | _ => none

def escapeChar (c : Char) : List Char :=
  (entity? c).getD [c]

def escapeEach (s : List Char) : List Char :=
  s.flatMap escapeChar

def replaceAll (c : Char) (text : List Char) (s : List Char) : List Char :=
  s.flatMap fun d => if d = c then text else [d]

/-- The characters with entities, in the order of replacement. -/
def escapedChars : List Char := ['&', '<', '>', '"', '\'']

def escapeText (s : List Char) : List Char :=
  escapedChars.foldl (fun s c => replaceAll c (escapeChar c) s) s

def escape (s : String) : String :=
  String.ofList (escapeText s.toList)

/-- Reads entities back, from left to right; what is no entity stands for itself. -/
def unescapeText : List Char → List Char
  | [] => []
  | '&' :: 'a' :: 'm' :: 'p' :: ';' :: rest => '&' :: unescapeText rest
  | '&' :: 'l' :: 't' :: ';' :: rest => '<' :: unescapeText rest
  | '&' :: 'g' :: 't' :: ';' :: rest => '>' :: unescapeText rest
  | '&' :: 'q' :: 'u' :: 'o' :: 't' :: ';' :: rest => '"' :: unescapeText rest
  | '&' :: '#' :: '3' :: '9' :: ';' :: rest => '\'' :: unescapeText rest
  | c :: rest => c :: unescapeText rest

end MarkdownTree.Markup
