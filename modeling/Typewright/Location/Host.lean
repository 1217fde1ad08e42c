import Typewright.Text.Lines
import Typewright.Domain.Basic
import Typewright.Location.Percent

/-!
# Hosts

The host part of a URL: a domain, an IPv4 address in any of its spellings, or an IPv6 address in
brackets. A domain is written in ASCII.
-/

namespace Typewright.Host

/-- The value of digits in a base; nothing where a character is no digit of it. -/
def digits? (base : Nat) (cs : List Char) : Option Nat :=
  cs.foldlM (fun n c => do
    let d ← Percent.hexValue? c
    if d < base then some (n * base + d) else none) 0

/-- One part of an IPv4 address: hexadecimal after `0x`, octal after `0`, otherwise decimal. -/
def ipv4Part? (cs : List Char) : Option Nat :=
  match cs with
  | [] => none
  | '0' :: 'x' :: rest | '0' :: 'X' :: rest => digits? 16 rest
  | ['0'] => some 0
  | '0' :: rest => digits? 8 rest
  | _ => digits? 10 cs

/-- The parts of a domain, without an empty last one. -/
def labels (cs : List Char) : List (List Char) :=
  let parts := Text.pieces (· == '.') cs
  if 1 < parts.length && parts.getLast? == some [] then parts.dropLast else parts

/-- Whether a domain ends in a number and is therefore meant as an IPv4 address. -/
def endsInNumber (cs : List Char) : Bool :=
  match (labels cs).getLast? with
  | none => false
  | some last => (!last.isEmpty && last.all Char.isDigit) || (ipv4Part? last).isSome

/-- The number of an IPv4 address of up to four parts, the last of which fills what is left. -/
def ipv4? (cs : List Char) : Option Nat := do
  let parts ← (labels cs).mapM ipv4Part?
  let last ← parts.getLast?
  let front := parts.dropLast
  if 4 < parts.length || front.any (255 < ·) || Nat.pow 256 (4 - front.length) ≤ last then none
  else return front.foldl (fun n b => n * 256 + b) 0 * Nat.pow 256 (4 - front.length) + last

def ipv4Text (n : Nat) : String :=
  String.intercalate "." ([3, 2, 1, 0].map fun i => toString (n / Nat.pow 256 i % 256))

/-- The number of an IPv4 address as the end of an IPv6 address writes it: four decimal parts
without leading zeros. -/
def quads? (cs : List Char) : Option Nat := do
  let parts := Text.pieces (· == '.') cs
  let isPart (part : List Char) : Bool :=
    !part.isEmpty && part.all Char.isDigit && (part.length == 1 || part.head? != some '0')
  if parts.length != 4 || !parts.all isPart then none
  let numbers ← parts.mapM (digits? 10)
  if numbers.any (255 < ·) then none else return numbers.foldl (fun n b => n * 256 + b) 0

/-- A 16-bit group of up to four hexadecimal digits. -/
def group? (cs : List Char) : Option Nat :=
  if cs.isEmpty || 4 < cs.length then none else digits? 16 cs

/-- The groups of a part of an IPv6 address; an IPv4 address at the end gives two. -/
def groups? (cs : List Char) (atEnd : Bool) : Option (List Nat) := do
  if cs.isEmpty then return []
  let parts := Text.pieces (· == ':') cs
  match parts.mapM group? with
  | some groups => return groups
  | none =>
    if !atEnd then none
    let n ← quads? (← parts.getLast?)
    return (← parts.dropLast.mapM group?) ++ [n / 65536, n % 65536]

/-- A text cut at the first `::`. -/
def cutDouble : List Char → List Char × Option (List Char)
  | ':' :: ':' :: rest => ([], some rest)
  | c :: rest =>
    let (front, back) := cutDouble rest
    (c :: front, back)
  | [] => ([], none)

/-- The eight groups of an IPv6 address, in which one `::` stands for groups of zero. -/
def ipv6? (cs : List Char) : Option (List Nat) := do
  match cutDouble cs with
  | (whole, none) =>
    let groups ← groups? whole true
    if groups.length == 8 then return groups else none
  | (front, some back) =>
    let front ← groups? front false
    let back ← groups? back true
    let count := front.length + back.length
    if count < 8 then return front ++ List.replicate (8 - count) 0 ++ back else none

/-- The start and the length of the first longest run of zeros. -/
def longestZeros (groups : List Nat) : Nat × Nat :=
  (List.range groups.length).foldl
    (fun best i =>
      let count := ((groups.drop i).takeWhile (· == 0)).length
      if best.2 < count then (i, count) else best)
    (0, 0)

/-- Groups in hexadecimal, in which `::` stands for the longest run of at least two zeros. -/
def ipv6Text (groups : List Nat) : String :=
  let written (groups : List Nat) : String :=
    String.intercalate ":" (groups.map fun n => String.ofList (Nat.toDigits 16 n))
  let (start, count) := longestZeros groups
  if count < 2 then written groups
  else written (groups.take start) ++ "::" ++ written (groups.drop (start + count))

/-- The written form of the host given by a text; nothing where it is none. -/
def read? (cs : List Char) : Option String :=
  match cs with
  | '[' :: rest =>
    if rest.getLast? == some ']' then
      (ipv6? rest.dropLast).map fun groups => "[" ++ ipv6Text groups ++ "]"
    else none
  | _ => do
    let domain ← Domain.toAscii? (← Text.decode? (Percent.decode cs))
    if domain.isEmpty then none
    else if endsInNumber domain then return ipv4Text (← ipv4? domain)
    else return String.ofList domain

end Typewright.Host
