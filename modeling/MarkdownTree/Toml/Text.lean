import MarkdownTree.Toml.Scan

/-!
Texts in TOML documents: literal ones, which stand as they are, and basic ones with escapes, each
within a line or over several lines. Main statement: what `escape` writes, `readBasic` reads.
-/

namespace MarkdownTree.Toml

def escapeLetter? : Char → Option Char
  | '\x08' => some 'b'
  | '\t' => some 't'
  | '\n' => some 'n'
  | '\x0c' => some 'f'
  | '\r' => some 'r'
  | '"' => some '"'
  | '\\' => some '\\'
  | _ => none

def escapeChar (c : Char) : List Char :=
  match escapeLetter? c with
  | some letter => ['\\', letter]
  | none => if isControl c then '\\' :: 'u' :: Text.hexDigits 4 c.toNat else [c]

def escape (s : List Char) : List Char :=
  s.flatMap escapeChar

def quote (s : String) : String :=
  String.ofList ('"' :: escape s.toList ++ ['"'])

def escaped? : Char → Option Char
  | 'b' => some '\x08'
  | 't' => some '\t'
  | 'n' => some '\n'
  | 'f' => some '\x0c'
  | 'r' => some '\r'
  | '"' => some '"'
  | '\\' => some '\\'
  | _ => none

def hexValue? (c : Char) : Option Nat :=
  if c.isDigit then some (c.toNat - 48)
  else if 'a' ≤ c && c ≤ 'f' then some (c.toNat - 87)
  else if 'A' ≤ c && c ≤ 'F' then some (c.toNat - 55)
  else none

def hexNumber? (digits : List Char) : Option Nat :=
  digits.foldl (fun n c => match n, hexValue? c with
    | some n, some d => some (16 * n + d)
    | _, _ => none) (some 0)

/-- The character with the code that hexadecimal digits denote; `after` comes after the digits. -/
def hexChar (digits after : List Char) : Except Fault Char :=
  match hexNumber? digits with
  | none => stop .noHexDigits (digits ++ after)
  | some code => if Nat.isValidChar code then .ok (Char.ofNat code) else stop .notACharacter after

/-- What the reader of a basic text of several lines is passing over. -/
inductive Passing where
  /-- Nothing. -/
  | nothing
  /-- The blanks between a backslash and the end of its line. -/
  | blanks
  /-- Blanks and line ends after a line that ends with a backslash. -/
  | lines
  deriving DecidableEq

def before (c : Char) : Reads (List Char) → Reads (List Char)
  | .ok (s, rest) => .ok (c :: s, rest)
  | .error e => .error e

/-- Reads a basic text up to its closing mark, one or three quotation marks. -/
def readBasic (lines : Bool) : Passing → List Char → Reads (List Char)
  | _, [] => stop .unterminated []
  | .blanks, c :: rest =>
    if isBlank c then readBasic lines .blanks rest
    else if c = '\n' then readBasic lines .lines rest
    else stop .loneBackslash (c :: rest)
  | .lines, ' ' :: rest => readBasic lines .lines rest
  | .lines, '\t' :: rest => readBasic lines .lines rest
  | .lines, '\n' :: rest => readBasic lines .lines rest
  | _, '"' :: rest =>
    if !lines then .ok ([], rest)
    else match rest with
      | '"' :: '"' :: after => .ok ([], after)
      | _ => before '"' (readBasic lines .nothing rest)
  | _, '\\' :: rest =>
    match rest with
    | 'u' :: a :: b :: c :: d :: after =>
      match hexChar [a, b, c, d] after with
      | .ok x => before x (readBasic lines .nothing after)
      | .error e => .error e
    | 'U' :: a :: b :: c :: d :: e :: f :: g :: h :: after =>
      match hexChar [a, b, c, d, e, f, g, h] after with
      | .ok x => before x (readBasic lines .nothing after)
      | .error e => .error e
    | 'u' :: after => stop .noHexDigits after
    | 'U' :: after => stop .noHexDigits after
    | c :: after =>
      if lines && c = '\n' then readBasic lines .lines after
      else if lines && isBlank c then readBasic lines .blanks after
      else match escaped? c with
        | some x => before x (readBasic lines .nothing after)
        | none => stop .loneBackslash after
    | [] => stop .loneBackslash []
  | _, c :: rest =>
    if (if lines then isIllegalInLines c else isIllegal c) then
      stop (.illegalCharacter c) (c :: rest)
    else before c (readBasic lines .nothing rest)

/-- Four digits are enough for a character of seven bits, and can be read back. -/
theorem hexDigits_spec : ∀ n < 128, (Text.hexDigits 4 n).length = 4 ∧
    hexNumber? (Text.hexDigits 4 n) = some n := by
  decide

theorem toNat_lt_of_isControl {c : Char} (h : isControl c = true) : c.toNat < 128 := by
  simp only [isControl, Bool.or_eq_true, decide_eq_true_eq] at h
  omega

theorem hexChar_hexDigits {c : Char} (h : isControl c = true) (after : List Char) :
    hexChar (Text.hexDigits 4 c.toNat) after = .ok c := by
  have hc := (hexDigits_spec c.toNat (toNat_lt_of_isControl h)).2
  have hv : c.toNat.isValidChar := c.valid
  unfold hexChar
  rw [hc]
  simp only [if_pos hv, Char.ofNat_toNat]

/-- The written form of a character is read as that character. -/
theorem readBasic_escapeChar (c : Char) (s : List Char) :
    readBasic false .nothing (escapeChar c ++ s) = before c (readBasic false .nothing s) := by
  unfold escapeChar
  cases hl : escapeLetter? c with
  | some letter =>
    unfold escapeLetter? at hl
    split at hl <;> cases hl <;> simp [readBasic, escaped?]
  | none =>
    by_cases hc : isControl c = true
    · obtain ⟨hlen, -⟩ := hexDigits_spec c.toNat (toNat_lt_of_isControl hc)
      have hx := hexChar_hexDigits hc s
      rcases hd : Text.hexDigits 4 c.toNat with _ | ⟨a, _ | ⟨b, _ | ⟨d, _ | ⟨e, _ | ⟨g, r⟩⟩⟩⟩⟩ <;>
        rw [hd] at hlen <;> simp at hlen
      rw [hd] at hx
      simp [hc, readBasic, hx]
    · have hq : c ≠ '"' := by rintro rfl; simp [escapeLetter?] at hl
      have hb : c ≠ '\\' := by rintro rfl; simp [escapeLetter?] at hl
      simp [hc, readBasic, isIllegal]

/-- Reading inverts escaping, whatever comes after the closing mark. -/
theorem readBasic_escape (s rest : List Char) :
    readBasic false .nothing (escape s ++ '"' :: rest) = .ok (s, rest) := by
  induction s with
  | nil =>
    rw [escape, List.flatMap_nil, List.nil_append]
    unfold readBasic
    rfl
  | cons c s ih =>
    have hs : escape (c :: s) ++ '"' :: rest = escapeChar c ++ (escape s ++ '"' :: rest) := by
      simp [escape]
    rw [hs, readBasic_escapeChar, ih, before]

def readLiteral (mark : List Char) (illegal : Char → Bool) (s : List Char) : Reads (List Char) :=
  match splitAtMark? mark s with
  | none => stop (.expected (String.ofList mark)) []
  | some (taken, rest) => (checkLegal illegal (mark ++ rest) taken).map fun _ => (taken, rest)

/-- A text of several lines may end with one or two more quotation marks before its closing
ones. -/
def takeExtra (mark : Char) (s : List Char) : List Char → List Char × List Char
  | c :: d :: rest =>
    if c != mark then (s, c :: d :: rest)
    else if d != mark then (s ++ [mark], d :: rest)
    else (s ++ [mark, mark], rest)
  | [c] => if c = mark then (s ++ [mark], []) else (s, [c])
  | [] => (s, [])

def skipLineEnd : List Char → List Char
  | '\n' :: rest => rest
  | s => s

/-- Reads a text in quotation marks or apostrophes, from its opening mark on. -/
def readText? : List Char → Option (Reads (List Char))
  | '"' :: '"' :: '"' :: rest =>
    some ((readBasic true .nothing (skipLineEnd rest)).map fun (s, rest) => takeExtra '"' s rest)
  | '"' :: rest => some (readBasic false .nothing rest)
  | '\'' :: '\'' :: '\'' :: rest =>
    some ((readLiteral ['\'', '\'', '\''] isIllegalInLines (skipLineEnd rest)).map
      fun (s, rest) => takeExtra '\'' s rest)
  | '\'' :: rest => some (readLiteral ['\''] isIllegal rest)
  | _ => none

end MarkdownTree.Toml
