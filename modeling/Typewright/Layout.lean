import Typewright.Error
import Typewright.Options
import Typewright.Text.Blank
import Typewright.Text.Lines

/-!
# Layout of declarations

`Layout.format` goes over a text line by line. Each line is indented by the delimiters that are open
where it starts, and members and type aliases end in a semicolon where the style asks for it. Lines
of block comments are indented and not looked into.
-/

namespace Typewright.Layout

/-- What an open delimiter holds. -/
inductive Bracket where
  | object
  | enum
  | paren
  | square
deriving DecidableEq, Repr

def Bracket.closer : Bracket → Char
  | .object | .enum => '}'
  | .paren => ')'
  | .square => ']'

/-- An open delimiter and the number of its line. -/
structure Frame where
  bracket : Bracket
  line : Nat
deriving DecidableEq, Repr

/-- The number of levels: one for each line that holds open delimiters, the innermost in front. -/
def depth : List Frame → Nat
  | [] => 0
  | [_] => 1
  | a :: b :: rest => (if a.line == b.line then 0 else 1) + depth (b :: rest)

/-! ## Delimiters of a line -/

/-- A word with blanks after it, taken off the front of a text. -/
def skipWord (word : String) (cs : List Char) : List Char :=
  let rest := cs.drop word.toList.length
  if word.toList.isPrefixOf cs && rest.head?.any Text.isBlank then rest.dropWhile Text.isBlank
  else cs

/-- Whether a line starts an enum declaration. -/
def isEnumHead (line : List Char) : Bool :=
  let cs := skipWord "const" (skipWord "declare" (skipWord "export" line))
  "enum".toList.isPrefixOf cs && (cs.drop 4).head?.any Text.isBlank

def isCloser (c : Char) : Bool := c == '}' || c == ')' || c == ']'

/-- Where the scan of a line stands: the open delimiters, the level at the first character that
closes nothing, and the quote of an open string with whether a backslash is in front. -/
structure Scan where
  stack : List Frame
  level : Option Nat := none
  quote : Option Char := none
  escaped : Bool := false
deriving DecidableEq, Repr

/-- Closes the innermost delimiter. -/
def close (number : Nat) (stack : List Frame) (closer : Char) : Except CompileError (List Frame) :=
  match stack with
  | [] => .error (.layout number (.unexpected closer))
  | frame :: rest =>
    if frame.bracket.closer == closer then .ok rest
    else .error (.layout number (.mismatch frame.bracket.closer frame.line closer))

/-- One character of a line; `enumHead` says that the line starts an enum. -/
def scanChar (number : Nat) (enumHead : Bool) (s : Scan) (c : Char) : Except CompileError Scan :=
  let s := if s.level.isNone && !isCloser c then { s with level := some (depth s.stack) } else s
  match s.quote with
  | some quote =>
    if s.escaped then .ok { s with escaped := false }
    else if c == '\\' then .ok { s with escaped := true }
    else if c == quote then .ok { s with quote := none }
    else .ok s
  | none =>
    let push (bracket : Bracket) : Scan := { s with stack := ⟨bracket, number⟩ :: s.stack }
    if c == '"' || c == '\x27' || c == '\x60' then .ok { s with quote := some c }
    else if c == '{' then .ok (push (if s.stack.isEmpty && enumHead then .enum else .object))
    else if c == '(' then .ok (push .paren)
    else if c == '[' then .ok (push .square)
    else if isCloser c then (close number s.stack c).map fun stack => { s with stack }
    else .ok s

/-- All characters of a line. A string must end on its line. -/
def scanLine (number : Nat) (stack : List Frame) (line : List Char) : Except CompileError Scan := do
  let s ← line.foldlM (scanChar number (isEnumHead line)) { stack }
  match s.quote with
  | some quote => throw (.layout number (.openString quote))
  | none => return s

/-! ## Lines -/

/-- Where the layout stands between lines; the lines written so far are kept last first. -/
structure State where
  stack : List Frame := []
  inComment : Bool := false
  /-- Whether the statement at the outermost level is a type alias. -/
  isAlias : Bool := false
  written : List (List Char) := []
deriving DecidableEq, Repr

/-- A line at a level. -/
def indented (style : Style) (level : Nat) (line : List Char) : List Char :=
  (if style.useTabs then List.replicate level '\t'
    else List.replicate (level * style.indentWidth) ' ') ++ line

def State.write (style : Style) (s : State) (level : Nat) (line : List Char) : State :=
  { s with written := indented style level line :: s.written }

/-- Whether a line is to end in a semicolon: it is a member of an object, or the end of an alias,
and does not end in an opening delimiter, a comma or a semicolon. -/
def needsSemicolon (stack : List Frame) (isAlias : Bool) (line : List Char) : Bool :=
  if line.getLast?.any fun c => "\x7b([,;".toList.contains c then false
  else
    match stack with
    | frame :: _ => frame.bracket == .object
    | [] => isAlias

def startsWith (start : String) (line : List Char) : Bool := start.toList.isPrefixOf line

/-- One line without the blanks around it. -/
def step (style : Style) (s : State) (number : Nat) (line : List Char) :
    Except CompileError State := do
  if line.isEmpty then
    -- one blank line at most, and none at the start
    match s.written with
    | previous :: _ => return if previous.isEmpty then s else { s with written := [] :: s.written }
    | [] => return s
  else if startsWith "//" line && !s.inComment then return s.write style (depth s.stack) line
  else if s.inComment || startsWith "/*" line then
    let text := if line.head? == some '*' then ' ' :: line else line
    return { s.write style (depth s.stack) text with
      inComment := !Text.contains "*/".toList line }
  else
    let isAlias :=
      if s.stack.isEmpty then startsWith "export type " line || startsWith "type " line
      else s.isAlias
    let scan ← scanLine number s.stack line
    let level := scan.level.getD (depth scan.stack)
    let text :=
      if style.semi && needsSemicolon scan.stack isAlias line then line ++ [';'] else line
    return { s with stack := scan.stack, isAlias }.write style level text

/-- Lines from the number `number` on. -/
def run (style : Style) (s : State) (number : Nat) : List (List Char) → Except CompileError State
  | [] => .ok s
  | line :: rest => do
    let s ← step style s number (Text.trim line)
    run style s (number + 1) rest

/-- A text in the given style; it fails where delimiters do not match. -/
def format (style : Style) (text : String) : Except CompileError String := do
  let lines := Text.lines text.toList
  let s ← run style {} 1 lines
  match s.stack with
  | frame :: _ =>
    throw (.layout lines.length (.unclosed frame.bracket.closer frame.line))
  | [] =>
    let written := (s.written.dropWhile List.isEmpty).reverse
    return String.ofList (Text.join ['\n'] written ++ ['\n'])

end Typewright.Layout
