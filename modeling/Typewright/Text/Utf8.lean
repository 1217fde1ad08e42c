/-!
# UTF-8

Decoding of octets, which are natural numbers below 256. A part that no character starts with gives
`none`, once for each longest such part.
-/

namespace Typewright.Text

/-- The octets of a character. -/
def octets (c : Char) : List Nat := (String.utf8EncodeChar c).map UInt8.toNat

/-- A character of which some octets are still missing: its bits so far, and the range of the next
octet. -/
structure Pending where
  bits : Nat
  missing : Nat
  low : Nat
  high : Nat
deriving DecidableEq, Repr

/-- The first octet of a character. -/
def firstOctet (b : Nat) : List (Option Char) × Option Pending :=
  if b < 0x80 then ([some (.ofNat b)], none)
  else if 0xC2 ≤ b ∧ b ≤ 0xDF then ([], some ⟨b - 0xC0, 1, 0x80, 0xBF⟩)
  else if b = 0xE0 then ([], some ⟨0, 2, 0xA0, 0xBF⟩)
  else if b = 0xED then ([], some ⟨0xD, 2, 0x80, 0x9F⟩)
  else if 0xE1 ≤ b ∧ b ≤ 0xEF then ([], some ⟨b - 0xE0, 2, 0x80, 0xBF⟩)
  else if b = 0xF0 then ([], some ⟨0, 3, 0x90, 0xBF⟩)
  else if 0xF1 ≤ b ∧ b ≤ 0xF3 then ([], some ⟨b - 0xF0, 3, 0x80, 0xBF⟩)
  else if b = 0xF4 then ([], some ⟨4, 3, 0x80, 0x8F⟩)
  else ([none], none)

/-- One more octet: the characters it completes and what is then missing. An octet that does not
continue a character starts a new one. -/
def nextOctet (state : Option Pending) (b : Nat) : List (Option Char) × Option Pending :=
  match state with
  | none => firstOctet b
  | some p =>
    if p.low ≤ b ∧ b ≤ p.high then
      let bits := p.bits * 64 + (b - 0x80)
      if p.missing = 1 then ([some (.ofNat bits)], none)
      else ([], some ⟨bits, p.missing - 1, 0x80, 0xBF⟩)
    else
      let (out, state) := firstOctet b
      (none :: out, state)

/-- The characters of a sequence of octets, with `none` for what is no character. -/
def decodeFrom (state : Option Pending) : List Nat → List (Option Char)
  | [] => if state.isSome then [none] else []
  | b :: rest =>
    let (out, state) := nextOctet state b
    out ++ decodeFrom state rest

/-- The characters of a sequence of octets, if all of it is UTF-8. -/
def decode? (bytes : List Nat) : Option (List Char) := (decodeFrom none bytes).mapM id

/-- The characters of a sequence of octets, with U+FFFD for what is no character. -/
def decodeLossy (bytes : List Nat) : List Char :=
  (decodeFrom none bytes).map (·.getD (.ofNat 0xFFFD))

end Typewright.Text
