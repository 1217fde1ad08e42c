import Typewright.Identifier.Letters

/-!
# Identifiers

`Identifier.sanitize` turns any text into an identifier in upper camel case, or into the empty text.
It runs over the characters in a few passes: letters lose their diacritics, what cannot stand in an
identifier becomes a space, and a letter after a space, an underscore, a digit or a dollar sign is
raised.
-/

namespace Typewright.Identifier

/-! ## Character classes -/

def isLower (c : Char) : Bool := 'a' ≤ c && c ≤ 'z'

def isUpper (c : Char) : Bool := 'A' ≤ c && c ≤ 'Z'

def isLetter (c : Char) : Bool := isLower c || isUpper c

def isDigit (c : Char) : Bool := '0' ≤ c && c ≤ '9'

/-- Characters that may start an identifier. -/
def isStart (c : Char) : Bool := isLetter c || c == '_' || c == '$'

/-- Characters that may stand in an identifier. -/
def isPart (c : Char) : Bool := isStart c || isDigit c

/-- An identifier: a start character and then parts. -/
def isBare : List Char → Bool
  | [] => false
  | c :: rest => isStart c && rest.all isPart

/-- The upper-case form of an ASCII letter. -/
def raise (c : Char) : Char := if isLower c then .ofNat (c.toNat - 32) else c

/-! ## Passes -/

/-- The characters in front of the first that may start an identifier become one space. -/
def trimStart (cs : List Char) : List Char :=
  match cs with
  | [] => []
  | c :: rest => if isStart c then c :: rest else ' ' :: rest.dropWhile (!isStart ·)

/-- What may not stand in an identifier becomes a space. -/
def blankInvalid (cs : List Char) : List Char := cs.map fun c => if isPart c then c else ' '

/-- A lower-case letter after a leading underscore is raised, and the underscore stays. -/
def raiseLeading : List Char → List Char
  | '_' :: c :: rest => '_' :: raise c :: rest
  | cs => cs

/-- A lower-case letter after an underscore is raised, and the underscore goes. -/
def joinSnake : List Char → List Char
  | [] => []
  | '_' :: c :: rest =>
    if isLower c then raise c :: joinSnake rest else '_' :: joinSnake (c :: rest)
  | c :: rest => c :: joinSnake rest

/-- A letter directly after a digit or a dollar sign is raised; `before` is the character in
front. -/
def raiseAfterDigit (before : Char) : List Char → List Char
  | [] => []
  | c :: rest =>
    (if isDigit before || before == '$' then raise c else c) :: raiseAfterDigit c rest

/-- Spaces go, and a letter that follows one is raised; `spaced` says that a space is in front. -/
def joinSpaced (spaced : Bool) : List Char → List Char
  | [] => []
  | c :: rest =>
    if c == ' ' then joinSpaced true rest
    else (if spaced then raise c else c) :: joinSpaced false rest

/-- The first character is raised. -/
def raiseFirst : List Char → List Char
  | [] => []
  | c :: rest => raise c :: rest

/-- All passes in order. -/
def sanitizeChars (cs : List Char) : List Char :=
  let cs := cs.flatMap foldLetter
  let cs := joinSnake (raiseLeading (blankInvalid (trimStart cs)))
  raiseFirst (joinSpaced false (raiseAfterDigit ' ' cs))

/-- A text as an identifier; empty where no character of it may start one. -/
def sanitize (raw : String) : String := String.ofList (sanitizeChars raw.toList)

/-! ## Unique names -/

/-- What stands for a text that has no identifier. -/
def fallback : String := "Unnamed"

/-- The first of `base1`, `base2`, … from `counter` on that is not in `used`. A name found in the
list is taken out of it, as no later candidate equals it. -/
def freshFrom (base : String) (used : List String) (counter : Nat) : String :=
  let name := base ++ toString counter
  if _h : name ∈ used then freshFrom base (used.erase name) (counter + 1) else name
termination_by used.length
decreasing_by
  rw [List.length_erase_of_mem ‹_›]
  exact Nat.sub_one_lt (Nat.ne_of_gt (List.length_pos_of_mem ‹_›))

/-- The identifier of `raw`, with the least counter appended that makes it new. -/
def fresh (raw : String) (used : List String) : String :=
  let base := sanitize raw
  let base := if base.isEmpty then fallback else base
  if base ∈ used then freshFrom base used 1 else base

/-- A fresh name together with the used names it joins. -/
def reserve (raw : String) (used : List String) : String × List String :=
  let name := fresh raw used
  (name, used ++ [name])

end Typewright.Identifier
