import Typewright.Domain.Mapping
import Typewright.Domain.Punycode
import Typewright.Unicode.Composed
import Typewright.Unicode.Direction
import Typewright.Unicode.Joining
import Typewright.Unicode.Mark

/-!
# Domains

The ASCII form of a domain in any script. Its characters are replaced by what they stand for and
composed, its labels are checked, and a label that is not ASCII is written in Punycode after `xn--`.
A label that is given in that form must be the one that would be written.
-/

namespace Typewright.Domain

open Unicode (Direction Joining direction joining isMark combiningClass silencing composed)

/-- ASCII characters that no domain holds. -/
def isForbidden (c : Char) : Bool :=
  c.toNat ≤ 0x20 || c.toNat == 0x7F || "%#/:<>?@[\\]^|".toList.contains c

/-! ## Joiners -/

/-- Whether the next letter joins, on one of the given sides; letters join across what is
transparent. -/
def joins (sides : List Joining) (cs : List Char) : Bool :=
  ((cs.dropWhile (joining · == .transparent)).head?.map joining).any sides.contains

/-- Whether a joiner, or a non-joiner, may stand between two texts, of which the first is given last
character first: behind a mark that silences a vowel, and a non-joiner also between letters that
would join. -/
def mayStand (joiner : Bool) (before after : List Char) : Bool :=
  before.head?.any (combiningClass · == silencing) ||
    (!joiner && joins [.left, .both] before && joins [.right, .both] after)

/-- Whether all joiners of a label may stand where they do. -/
def joinersOk (before : List Char) : List Char → Bool
  | [] => true
  | c :: rest =>
    (if c.toNat = 0x200C then mayStand false before rest
      else if c.toNat = 0x200D then mayStand true before rest
      else true) && joinersOk (c :: before) rest

/-! ## Directions -/

/-- Whether a character makes a domain one with text from the right. -/
def isFromRight (c : Char) : Bool := direction c == .right || direction c == .arabic

/-- Whether a label, which is not empty, keeps to the direction of its first character: it ends in a
letter or a digit, but for marks, and holds no letter of the other direction. In a label from the
right, digits are of one kind. -/
def keepsDirection (first : Char) (rest : List Char) : Bool :=
  let body := (rest.reverse.dropWhile (direction · == .mark)).map direction
  match direction first with
  | .left =>
    body.head?.all [.left, .european].contains &&
      body.all [.left, .european, .neutral, .mark].contains
  | .right =>
    body.head?.all [.right, .european, .arabic].contains && !body.contains .left &&
      !(body.contains .european && body.contains .arabic)
  | _ => false

def labelKeepsDirection : List Char → Bool
  | [] => true
  | first :: rest => keepsDirection first rest

/-! ## Labels -/

/-- How a label in Punycode starts. -/
def encodedStart : List Char := "xn--".toList

/-- The length up to which a label in Punycode is read, without its start. -/
def maxEncoded : Nat := 2000

/-- The length up to which a label is written in Punycode. -/
def maxLabel : Nat := 1000

/-- Whether a label that is not in Punycode is well formed: it does not start with a mark, its
joiners may stand where they do, and it is ASCII or not too long. -/
def isLabel (label : List Char) : Bool :=
  !label.head?.any isMark && joinersOk [] label &&
    (label.all Punycode.isAscii || label.length ≤ maxLabel)

/-- The label that a text in Punycode writes: it holds characters that stand for themselves, and it
is composed. -/
def decodeLabel? (encoded : List Char) : Option (List Char) := do
  if encoded.getLast?.all (· == '-') || !encoded.all Punycode.isAscii ||
      maxEncoded < encoded.length then none
  let label ← Punycode.decode? encoded
  if label.all (fun c => image? c == some [c]) && composed label == label then some label else none

/-- The characters of a label, read from Punycode if it is in that form; nothing where it is not
well formed. -/
def label? (label : List Char) : Option (List Char) := do
  let chars ←
    if encodedStart.isPrefixOf label then decodeLabel? (label.drop encodedStart.length)
    else some label
  if isLabel chars then some chars else none

/-- The ASCII form of a label. -/
def asciiLabel (label : List Char) : List Char :=
  if label.all Punycode.isAscii then label else encodedStart ++ Punycode.encode label

/-! ## Domains -/

/-- The ASCII form of a domain; nothing where it is none. -/
def toAscii? (cs : List Char) : Option (List Char) := do
  let cs := composed (← cs.mapM image?).flatten
  if cs.any isForbidden then none
  let labels := Text.pieces (· == '.') cs
  let chars ← labels.mapM label?
  if chars.any (·.any isFromRight) && !chars.all labelKeepsDirection then none
  return Text.join ['.'] (labels.map asciiLabel)

end Typewright.Domain
