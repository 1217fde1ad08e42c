import Typewright.Text.Blank
import Typewright.Text.Lines

/-!
# Comments

A description as a block comment. An end mark inside it is broken up by a backslash.
-/

namespace Typewright.Declaration

/-- A text without end marks of comments. -/
def breakEndMarks : List Char → List Char
  | '*' :: '/' :: rest => '*' :: '\\' :: '/' :: breakEndMarks rest
  | c :: rest => c :: breakEndMarks rest
  | [] => []

/-- A line of a comment; a blank one keeps only its star. -/
def commentLine (line : List Char) : List Char :=
  if (Text.trim line).isEmpty then " *".toList else " * ".toList ++ line

/-- The lines of the comment for a description. -/
def commentLines (comment : List Char) : List (List Char) :=
  "/**".toList :: (Text.lines (breakEndMarks comment)).map commentLine ++ [" */".toList]

/-- A description as a block comment. -/
def commentBlock (comment : String) : String :=
  String.ofList (Text.join ['\n'] (commentLines comment.toList))

end Typewright.Declaration
