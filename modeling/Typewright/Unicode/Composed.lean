import Typewright.Unicode.Combining
import Typewright.Unicode.Decomposition

/-!
# Composed form

Texts that read alike get one spelling: all characters are taken apart, the marks after a letter are
put in order of their class, and then letters and marks are put together as far as there are
characters for that. This is normalization form C of Unicode.
-/

namespace Typewright.Unicode

/-- Puts a character behind those of `back`, which stand last first: a mark goes in front of the
marks of higher classes. -/
def place (c : Char) : List Char → List Char
  | [] => [c]
  | d :: rest =>
    if combiningClass c != 0 && combiningClass c < combiningClass d then d :: place c rest
    else c :: d :: rest

/-- A text whose marks are in order. -/
def arrange (cs : List Char) : List Char := (cs.foldl (fun back c => place c back) []).reverse

/-- Puts what follows a letter onto it. The marks that stay apart are kept last first; a character
reaches the letter only across marks of lower classes. -/
def composeOnto (letter : Char) (marks : List Char) : List Char → List Char
  | [] => letter :: marks.reverse
  | c :: rest =>
    let blocked := marks.head?.any fun m => combiningClass c ≤ combiningClass m
    match if blocked then none else pair? letter c with
    | some whole => composeOnto whole marks rest
    | none =>
      if combiningClass c = 0 then letter :: marks.reverse ++ composeOnto c [] rest
      else composeOnto letter (c :: marks) rest

/-- A text in which letters and marks are put together; marks in front stay as they are. -/
def compose : List Char → List Char
  | [] => []
  | c :: rest => if combiningClass c = 0 then composeOnto c [] rest else c :: compose rest

/-- The composed form of a text. -/
def composed (cs : List Char) : List Char := compose (arrange (decompose cs))

end Typewright.Unicode
