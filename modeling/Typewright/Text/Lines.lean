/-!
# Lines and pieces of text

Lines end at a line feed, which may follow a carriage return; the text after the last line feed is a
line unless it is empty. The functions work on lists of characters.
-/

namespace Typewright.Text

/-- The pieces between the characters that satisfy `p`; always at least one. -/
def pieces (p : Char → Bool) : List Char → List (List Char)
  | [] => [[]]
  | c :: rest =>
    if p c then [] :: pieces p rest
    else
      match pieces p rest with
      | [] => [[c]]
      | piece :: more => (c :: piece) :: more

/-- Takes one carriage return off the end of a line. -/
def chomp (line : List Char) : List Char :=
  if line.getLast? == some '\r' then line.dropLast else line

/-- The lines of a text. -/
def lines (cs : List Char) : List (List Char) :=
  let all := pieces (· == '\n') cs
  let all := if all.getLast? == some [] then all.dropLast.map chomp
    else all.dropLast.map chomp ++ all.getLast?.toList
  all

/-- Joins pieces with a separator. -/
def join (separator : List Char) : List (List Char) → List Char
  | [] => []
  | [piece] => piece
  | piece :: more => piece ++ separator ++ join separator more

/-- Whether `part` occurs in a text. -/
def contains (part : List Char) : List Char → Bool
  | [] => part.isEmpty
  | c :: rest => part.isPrefixOf (c :: rest) || contains part rest

end Typewright.Text
