import MarkdownTree.Text.Case
import MarkdownTree.Value

/-!
Messages and levels. A message has a severity; a logger passes on those whose severity is at least
its level.
-/

namespace MarkdownTree.Log

/-- The weight of a message. -/
inductive Severity where
  | info | warning | error | critical
  deriving DecidableEq, Inhabited

namespace Severity

def number : Severity → Int
  | .info => 20
  | .warning => 30
  | .error => 40
  | .critical => 50

def label : Severity → String
  | .info => "INFO"
  | .warning => "WARNING"
  | .error => "ERROR"
  | .critical => "CRITICAL"

def name : Severity → String
  | .info => "info"
  | .warning => "warning"
  | .error => "error"
  | .critical => "critical"

def all : List Severity := [.info, .warning, .error, .critical]

def ofName? (s : String) : Option Severity :=
  all.find? (·.name == s)

theorem ofName?_name (s : Severity) : ofName? s.name = some s := by
  cases s <;> decide

end Severity

structure Message where
  severity : Severity
  text : String
  deriving DecidableEq, Inhabited

def Message.line (m : Message) : String :=
  m.severity.label ++ " - " ++ m.text

/-- The level of a logger. A flag counts as one or zero, and is reported as it was set. -/
inductive Level where
  | number (i : Int)
  | flag (b : Bool)
  deriving DecidableEq, Inhabited

namespace Level

/-- The number that a level counts as. Zero stands for no level. -/
def weight : Level → Int
  | .number i => i
  | .flag b => if b then 1 else 0

def toValue : Level → Value
  | .number i => .int i
  | .flag b => .bool b

def names : List (String × Int) := [
  ("CRITICAL", 50), ("FATAL", 50), ("ERROR", 40), ("WARN", 30), ("WARNING", 30), ("INFO", 20),
  ("DEBUG", 10), ("NOTSET", 0)]

def ofName? (s : String) : Option Level :=
  (names.lookup s).map .number

end Level

/-- Why a level cannot be set. -/
inductive LevelFault where
  /-- There is no level of this name. -/
  | unknown (name : String)
  /-- There is no level of this name in any case. -/
  | unknownInAnyCase (name : String)
  /-- The value, shown by its text, is neither a number nor a name. -/
  | neither (shown : String)
  deriving DecidableEq

def LevelFault.message : LevelFault → String
  | .unknown name => "Unknown level: " ++ Text.quoted name
  | .unknownInAnyCase name => "Unknown log level: Level " ++ name
  | .neither shown => "Level not an integer or a valid string: " ++ shown

namespace Level

def read (nodeText : NodeId → String) : Value → Except LevelFault Level
  | .int i => .ok (.number i)
  | .bool b => .ok (.flag b)
  | .str s => match ofName? s with
    | some level => .ok level
    | none => .error (.unknown s)
  | v => .error (.neither (v.text nodeText))

def readAnyCase (nodeText : NodeId → String) : Value → Except LevelFault Level
  | .str s =>
    let name := String.ofList (Text.upper s.toList)
    match ofName? name with
    | some level => .ok level
    | none => .error (.unknownInAnyCase name)
  | v => read nodeText v

end Level

end MarkdownTree.Log
