import Typewright.Text.Lines

/-!
# Tables of characters

Tables are rows of words between spaces, in which characters stand as hexadecimal numbers: `a-b` is
a closed range, and `a:i,j.k` gives the images of the characters from `a` on, each a list of
characters.
-/

namespace Typewright.Unicode

/-- The number that a text writes in hexadecimal, with small letters. -/
def number (cs : List Char) : Nat :=
  cs.foldl (fun n c =>
    n * 16 + (if c.isDigit then c.toNat - '0'.toNat else c.toNat - 'a'.toNat + 10)) 0

/-- The words of a table. -/
def words (rows : List String) : List (List Char) :=
  rows.flatMap fun row => Text.pieces (· == ' ') row.toList

/-- The two parts of a word that has a mark in it. -/
def cutAt (mark : Char) (word : List Char) : List Char × List Char :=
  (word.takeWhile (· != mark), (word.dropWhile (· != mark)).drop 1)

/-! ## Ranges -/

/-- The first and the last character of a range; a word without `-` is a range of one. -/
def range (word : List Char) : Nat × Nat :=
  match cutAt '-' word with
  | (first, []) => (number first, number first)
  | (first, last) => (number first, number last)

/-- The ranges of a table. -/
def ranges (rows : List String) : List (Nat × Nat) := (words rows).map range

def inRanges (rs : List (Nat × Nat)) (c : Char) : Bool :=
  rs.any fun (first, last) => first ≤ c.toNat && c.toNat ≤ last

/-! ## Images -/

/-- Characters that follow one another, each with its image. -/
structure Run where
  first : Nat
  images : List (List Char)
deriving DecidableEq, Repr

/-- The image that a text writes; the empty text is the empty image. -/
def readImage (word : List Char) : List Char :=
  if word.isEmpty then [] else (Text.pieces (· == '.') word).map fun cs => .ofNat (number cs)

/-- The runs of a table. -/
def runs (rows : List String) : List Run :=
  (words rows).map fun word =>
    let (first, images) := cutAt ':' word
    ⟨number first, (Text.pieces (· == ',') images).map readImage⟩

/-- The image of a character, if a table has one. -/
def imageIn (table : List Run) (c : Char) : Option (List Char) :=
  table.findSome? fun run =>
    if run.first ≤ c.toNat then run.images[c.toNat - run.first]? else none

end Typewright.Unicode
