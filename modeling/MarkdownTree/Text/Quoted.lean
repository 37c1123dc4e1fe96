import MarkdownTree.Text.Printable

/-!
Quoted text: a string between quotes on one line, with escapes for the quote, the backslash and
everything that is not printable. Single quotes are used unless only double quotes spare an escape.
-/

namespace MarkdownTree.Text

/-- The lower case hexadecimal digits of a number, filled with zeros up to a width. -/
def hexDigits (width code : Nat) : List Char :=
  let digits := Nat.toDigits 16 code
  List.replicate (width - digits.length) '0' ++ digits

/-- The quote around a text: double if the text has single quotes and no double ones. -/
def quoteFor (s : List Char) : Char :=
  if s.contains '\'' && !s.contains '"' then '"' else '\''

def quoteChar (quote c : Char) : List Char :=
  if c = quote ∨ c = '\\' then ['\\', c]
  else if c = '\n' then ['\\', 'n']
  else if c = '\r' then ['\\', 'r']
  else if c = '\t' then ['\\', 't']
  else if isPrintable c then [c]
  else if c.toNat < 0x100 then '\\' :: 'x' :: hexDigits 2 c.toNat
  else if c.toNat < 0x10000 then '\\' :: 'u' :: hexDigits 4 c.toNat
  else '\\' :: 'U' :: hexDigits 8 c.toNat

def quote (s : List Char) : List Char :=
  quoteFor s :: (s.flatMap (quoteChar (quoteFor s)) ++ [quoteFor s])

def quoted (s : String) : String :=
  String.ofList (quote s.toList)

end MarkdownTree.Text
