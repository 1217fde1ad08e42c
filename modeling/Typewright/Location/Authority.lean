import Typewright.Location.Host

/-!
# Authorities

What follows `//` in a URL that names no file: the name of a user in front of the last at sign, a
host, and a number behind a colon. Schemes of the web ask for a host.
-/

namespace Typewright.Authority

/-- A character that ends the authority; in schemes of the web, a backslash is a slash. -/
def isEnd (ofWeb : Bool) (c : Char) : Bool :=
  c == '/' || c == '?' || c == '#' || (ofWeb && c == '\\')

/-- The text in front of the last at sign of an authority, if it has one, and what follows. -/
def cutUser (ofWeb : Bool) (cs : List Char) : Option (List Char) × List Char :=
  let authority := cs.takeWhile (!isEnd ofWeb ·)
  let count := (authority.reverse.takeWhile (· != '@')).length
  if count < authority.length then
    let start := authority.length - count
    (some (authority.take (start - 1)), cs.drop start)
  else (none, cs)

/-- The host in front of a text, and what follows; a colon in brackets belongs to the host. -/
def cutHost (ofWeb inBrackets : Bool) : List Char → List Char × List Char
  | [] => ([], [])
  | c :: rest =>
    if isEnd ofWeb c || (c == ':' && !inBrackets) then ([], c :: rest)
    else
      let (host, after) := cutHost ofWeb (c == '[' || (inBrackets && c != ']')) rest
      (c :: host, after)

/-- Whether a colon behind a host has a number of 16 bits after it, or none; any kind of slash may
end it. -/
def numberOk : List Char → Bool
  | ':' :: rest =>
    (Host.digits? 10 (rest.takeWhile Char.isDigit)).any (· ≤ 65535) &&
      (rest.dropWhile Char.isDigit).head?.all (isEnd true)
  | _ => true

/-- Whether a host that is not empty is well formed. Outside the web it is an IPv6 address or a name
in which everything but delimiters may stand. -/
def hostOk (ofWeb : Bool) (host : List Char) : Bool :=
  if ofWeb || host.head? == some '[' then (Host.read? host).isSome
  else host.all fun c => !"\x00\t\n\r #/:<>?@[\\]^|".toList.contains c

/-- Whether a host may be missing between the text in front of an at sign and what follows. -/
def mayLackHost (user : Option (List Char)) (after : List Char) : Bool :=
  match user with
  | some [] => after.isEmpty
  | _ => user.all (· == [':']) && after.head? != some ':'

/-- Whether the authority in front of a text is well formed. -/
def isWellFormed (ofWeb : Bool) (cs : List Char) : Bool :=
  let (user, rest) := cutUser ofWeb cs
  let (host, after) := cutHost ofWeb false rest
  if host.isEmpty then !ofWeb && mayLackHost user after
  else hostOk ofWeb host && numberOk after

end Typewright.Authority
