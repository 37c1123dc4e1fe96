/-!
Regular patterns of characters, matched by derivatives: the derivative of a pattern by a character
matches what may follow that character.
-/

namespace MarkdownTree.Text

inductive Pattern where
  | nothing
  | empty
  | one (holds : Char → Bool)
  | seq (first second : Pattern)
  | alt (left right : Pattern)
  | many (p : Pattern)

namespace Pattern

def matchesEmpty : Pattern → Bool
  | nothing | one _ => false
  | empty | many _ => true
  | seq a b => a.matchesEmpty && b.matchesEmpty
  | alt a b => a.matchesEmpty || b.matchesEmpty

/-- A sequence, simplified where a part matches nothing. -/
def andThen : Pattern → Pattern → Pattern
  | nothing, _ => nothing
  | empty, b => b
  | a, b => seq a b

/-- An alternative, simplified where a part matches nothing. -/
def orElse : Pattern → Pattern → Pattern
  | nothing, b => b
  | a, nothing => a
  | a, b => alt a b

def derive (c : Char) : Pattern → Pattern
  | nothing | empty => nothing
  | one holds => if holds c then empty else nothing
  | seq a b =>
    if a.matchesEmpty then orElse (andThen (derive c a) b) (derive c b) else andThen (derive c a) b
  | alt a b => orElse (derive c a) (derive c b)
  | many a => andThen (derive c a) (many a)

def covers (p : Pattern) : List Char → Bool
  | [] => p.matchesEmpty
  | c :: rest => match derive c p with
    | nothing => false
    | q => q.covers rest

def oneOf (chars : String) : Pattern :=
  one chars.toList.contains

def digit : Pattern :=
  one Char.isDigit

def literal (s : String) : Pattern :=
  s.toList.foldr (fun c p => seq (one (· == c)) p) empty

def anyOf (texts : List String) : Pattern :=
  texts.foldr (fun s p => alt (literal s) p) nothing

def inOrder (ps : List Pattern) : Pattern :=
  ps.foldr seq empty

def either (ps : List Pattern) : Pattern :=
  ps.foldr alt nothing

def optional (p : Pattern) : Pattern :=
  alt p empty

def some (p : Pattern) : Pattern :=
  seq p (many p)

end Pattern

end MarkdownTree.Text
