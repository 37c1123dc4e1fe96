import MarkdownTree.Text.Pattern

/-!
Plain scalars that do not stand for text: a text that reads as a flag, a number, a date, an absent
value or a merge key has to be quoted.
-/

namespace MarkdownTree.Yaml

open Text Pattern

def flagWords : Pattern := anyOf [
  "yes", "Yes", "YES", "no", "No", "NO", "true", "True", "TRUE", "false", "False", "FALSE",
  "on", "On", "ON", "off", "Off", "OFF"]

/-- The words for an absent value, a merge key and a default value. -/
def specialWords : Pattern := anyOf ["", "~", "null", "Null", "NULL", "<<", "="]

def sign : Pattern := optional (oneOf "-+")

def digitOrLine : Pattern := oneOf "0123456789_"

def sexagesimalTail : Pattern :=
  Pattern.some (inOrder [literal ":", optional (oneOf "012345"), digit])

def exponent : Pattern :=
  optional (inOrder [oneOf "eE", oneOf "-+", Pattern.some digit])

def integer : Pattern := either [
  inOrder [sign, literal "0b", Pattern.some (oneOf "01_")],
  inOrder [sign, literal "0", Pattern.some (oneOf "01234567_")],
  inOrder [sign, either [literal "0", seq (oneOf "123456789") (many digitOrLine)]],
  inOrder [sign, literal "0x", Pattern.some (oneOf "0123456789abcdefABCDEF_")],
  inOrder [sign, oneOf "123456789", many digitOrLine, sexagesimalTail]]

/-- A number with a point, or one of the words for infinities and for what is no number. -/
def real : Pattern := either [
  inOrder [sign, digit, many digitOrLine, literal ".", many digitOrLine, exponent],
  inOrder [literal ".", digit, many digitOrLine, exponent],
  inOrder [sign, digit, many digitOrLine, sexagesimalTail, literal ".", many digitOrLine],
  inOrder [sign, anyOf [".inf", ".Inf", ".INF"]],
  anyOf [".nan", ".NaN", ".NAN"]]

def upToTwoDigits : Pattern := seq digit (optional digit)

/-- Spaces and tabs, perhaps none. -/
def gap : Pattern := many (oneOf " \t")

def zone : Pattern :=
  optional (seq gap (either [
    literal "Z",
    inOrder [oneOf "-+", upToTwoDigits, optional (inOrder [literal ":", digit, digit])]]))

/-- A date, perhaps with a time of day. -/
def timestamp : Pattern := either [
  inOrder [digit, digit, digit, digit, literal "-", digit, digit, literal "-", digit, digit],
  inOrder [digit, digit, digit, digit, literal "-", upToTwoDigits, literal "-", upToTwoDigits,
    either [oneOf "Tt", Pattern.some (oneOf " \t")], upToTwoDigits, literal ":", digit, digit,
    literal ":", digit, digit, optional (seq (literal ".") (many digit)), zone]]

def notText : Pattern := either [flagWords, specialWords, integer, real, timestamp]

/-- Whether a text may be taken for something else if it is written without quotes. -/
def readsAsOther (s : List Char) : Bool :=
  notText.covers s

end MarkdownTree.Yaml
