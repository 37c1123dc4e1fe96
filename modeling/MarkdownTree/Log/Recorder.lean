import MarkdownTree.Log.Hierarchy

/-!
Where messages go: to the console, to the console with a stop after an error, or into a list. What a
list has collected can be asked for from a level on.
-/

namespace MarkdownTree.Log

/-- A receiver of messages. -/
inductive Recorder where
  /-- Prints by way of the logger of a name. -/
  | console (name : String)
  /-- Prints by way of the logger of a name, and stops at an error. -/
  | strict (name : String)
  /-- Keeps the entries in order. -/
  | collected (entries : List Value)
  deriving Inhabited

/-- What a strict recorder stops with. -/
structure Halt where
  message : Message

def Halt.text (e : Halt) : String :=
  (if e.message.severity = .critical then "Critical error: " else "Error: ") ++ e.message.text

/-- Why entries cannot be listed: the message of one is not a text. -/
structure NonText where
  type : String

def NonText.text (e : NonText) : String :=
  "can only concatenate str (not \"" ++ e.type ++ "\") to str"

namespace Recorder

def openConsole (h : Hierarchy) (name : String) : Recorder × Hierarchy :=
  (.console name, h.openConsole name)

/-- A recorder that prints by way of a logger of its own, named after the given one, and stops at an
error. -/
def openStrict (h : Hierarchy) (name : String) : Recorder × Hierarchy :=
  let own := name ++ "_exception"
  (.strict own, h.openConsole own)

/-- The recorder that is used unless another one is given. -/
def standard : Recorder :=
  .console (Hierarchy.packageName ++ ".markdown.tabs")

/-- The text of a message on the console. Of a critical message that ends its last line itself, the
line is not ended again, for a listing of the calls follows it there. -/
def printed (recorder : Recorder) (m : Message) : String :=
  match recorder, m.severity with
  | .console _, .critical =>
    if m.line.toList.getLast? = some '\n' then m.line else m.line ++ "\n"
  | _, _ => m.line ++ "\n"

def output (h : Hierarchy) (recorder : Recorder) (m : Message) : String :=
  match recorder with
  | .console name | .strict name =>
    String.join (List.replicate (h.copies name m.severity) (recorder.printed m))
  | .collected _ => ""

def keep (recorder : Recorder) (m : Message) : Recorder :=
  match recorder with
  | .collected entries => .collected (entries ++ [.mapping [(m.severity.name, .str m.text)]])
  | r => r

def outputAll (h : Hierarchy) (recorder : Recorder) (ms : List Message) : String :=
  String.join (ms.map (recorder.output h))

def keepAll (recorder : Recorder) (ms : List Message) : Recorder :=
  ms.foldl keep recorder

def halts (recorder : Recorder) (m : Message) : Option Halt :=
  match recorder, m.severity with
  | .strict _, .error | .strict _, .critical => some ⟨m⟩
  | _, _ => none

def typeName : Recorder → String
  | .console _ => "ConsoleLogger"
  | .strict _ => "ExceptionConsoleLogger"
  | .collected _ => "LoglistLogger"

/-- Sets the level of the logger behind a recorder. A list takes messages of every level. -/
def setLevel (h : Hierarchy) (nodeText : NodeId → String) (recorder : Recorder) (level : Value) :
    Except LevelFault Hierarchy :=
  match recorder with
  | .console name | .strict name => (Level.read nodeText level).map (h.setLevel name)
  | .collected _ => .ok h

def level (h : Hierarchy) : Recorder → Level
  | .console name | .strict name => (h.get name).level
  | .collected _ => .number 0

/-- The severity and the message of an entry: the first severity under which it has one. -/
def read? (entry : Value) : Option (Severity × Value) :=
  match entry with
  | .mapping fields => Severity.all.findSome? fun s => (Entries.get? fields s.name).map (s, ·)
  | _ => none

def shows (level : Int) : Severity → Bool
  | .info => level < 1
  | .warning => level < 2
  | .error | .critical => true

/-- The line of an entry in a listing from a level on, if it is shown. -/
def listed (nodeText : NodeId → String) (level : Int) (entry : Value) :
    Except NonText (Option String) :=
  match read? entry with
  | some (severity, text) =>
    if shows level severity then
      match text with
      | .str s => .ok (some (Message.line ⟨severity, s⟩))
      | v => .error ⟨v.typeName⟩
    else
      .ok none
  | none => .ok (some (entry.display nodeText))

def listing (nodeText : NodeId → String) (level : Int) : List Value → Except NonText (List String)
  | [] => .ok []
  | entry :: rest => do
    let line ← listed nodeText level entry
    let lines ← listing nodeText level rest
    .ok (line.toList ++ lines)

end Recorder

def setPackageLevel (h : Hierarchy) (nodeText : NodeId → String) (level : Value) :
    Except LevelFault Hierarchy :=
  (Level.readAnyCase nodeText level).map (h.setLevel Hierarchy.packageName)

end MarkdownTree.Log
