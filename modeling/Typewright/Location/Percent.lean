import Typewright.Text.Utf8

/-!
# Percent-encoding

Characters outside a set are written as the octets of their UTF-8 form, each as `%` and two
hexadecimal digits. The sets of the URL standard are those that are not kept.
-/

namespace Typewright.Percent

def hexDigit (n : Nat) : Char := "0123456789ABCDEF".toList.getD n '0'

/-- The written form of an octet. -/
def octet (b : Nat) : List Char := ['%', hexDigit (b / 16), hexDigit (b % 16)]

/-- A text in which the characters that `keep` refuses are encoded. -/
def encode (keep : Char → Bool) (cs : List Char) : List Char :=
  cs.flatMap fun c => if keep c then [c] else (Text.octets c).flatMap octet

def hexValue? (c : Char) : Option Nat :=
  if '0' ≤ c ∧ c ≤ '9' then some (c.toNat - '0'.toNat)
  else if 'a' ≤ c ∧ c ≤ 'f' then some (c.toNat - 'a'.toNat + 10)
  else if 'A' ≤ c ∧ c ≤ 'F' then some (c.toNat - 'A'.toNat + 10)
  else none

/-- The octets of a text, each encoded one decoded. A `%` without two digits stands for itself. -/
def decode : List Char → List Nat
  | '%' :: a :: b :: rest =>
    match hexValue? a, hexValue? b with
    | some x, some y => (x * 16 + y) :: decode rest
    | _, _ => Text.octets '%' ++ decode (a :: b :: rest)
  | c :: rest => Text.octets c ++ decode rest
  | [] => []

/-- Printable ASCII characters other than those of a list. -/
def printableBut (excluded : String) (c : Char) : Bool :=
  0x20 ≤ c.toNat && c.toNat < 0x7F && !excluded.toList.contains c

/-- Characters that stand for themselves in a fragment. -/
def keepFragment : Char → Bool := printableBut " \"<>\x60"

/-- Characters that stand for themselves in a path. -/
def keepPath : Char → Bool := printableBut " \"<>\x60#?\x7b\x7d"

/-- Characters that stand for themselves in a path segment that is taken from a file name. -/
def keepSegment : Char → Bool := printableBut " \"<>\x60#?\x7b\x7d/%\\"

/-- Characters that stand for themselves in a query. -/
def keepQuery : Char → Bool := printableBut " \"<>#'"

end Typewright.Percent
