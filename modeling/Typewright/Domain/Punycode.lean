/-!
# Punycode

A label of a domain in ASCII: its ASCII characters, a hyphen, and then for each other character, in
the order of their numbers, how far it is from the one before. A distance counts the places where
the characters in between could have stood. It is written with digits to base 36, least first, whose
threshold follows the size of the distances.
-/

namespace Typewright.Punycode

/-! ## Digits and thresholds -/

/-- Digits below 26 are letters. -/
def digit (d : Nat) : Char :=
  if d < 26 then .ofNat ('a'.toNat + d) else .ofNat ('0'.toNat + (d - 26))

def digitValue? (c : Char) : Option Nat :=
  if 'a' ≤ c ∧ c ≤ 'z' then some (c.toNat - 'a'.toNat)
  else if '0' ≤ c ∧ c ≤ '9' then some (c.toNat - '0'.toNat + 26)
  else none

/-- The last digit of a number is below the threshold of its place; `place` is 36 for the first
digit and grows by 36. -/
def threshold (bias place : Nat) : Nat := min 26 (max 1 (place - bias))

theorem threshold_bounds (bias place : Nat) :
    1 ≤ threshold bias place ∧ threshold bias place ≤ 26 := by
  unfold threshold
  omega

/-- How often a distance is divided by 35 until it is at most 455, times 36, and what is left. -/
def scaled (place delta : Nat) : Nat × Nat :=
  if 455 < delta then scaled (place + 36) (delta / 35) else (place, delta)
termination_by delta
decreasing_by exact Nat.div_lt_self (by omega) (by decide)

/-- The bias after a distance, with `count` characters in place. -/
def adapt (delta count : Nat) (isFirst : Bool) : Nat :=
  let delta := if isFirst then delta / 700 else delta / 2
  let (place, delta) := scaled 0 (delta + delta / count)
  place + 36 * delta / (delta + 38)

/-- The bias in front of the first distance. -/
def initialBias : Nat := 72

/-! ## Writing -/

/-- The digits of a number. -/
def writeNumber (bias place n : Nat) : List Char :=
  let t := threshold bias place
  if n < t then [digit n]
  else digit (t + (n - t) % (36 - t)) :: writeNumber bias (place + 36) ((n - t) / (36 - t))
termination_by n
decreasing_by
  have h := threshold_bounds bias place
  exact Nat.lt_of_le_of_lt (Nat.div_le_self _ _) (by omega)

/-- Where the writing of a label stands: the distance since the last character that was written, the
bias, and the number of characters in place. -/
structure Writer where
  delta : Nat
  bias : Nat
  count : Nat
deriving DecidableEq, Repr

/-- Passes one character of the label while those with number `n` are written. -/
def passChar (start n : Nat) (s : Writer × List Char) (c : Char) : Writer × List Char :=
  let (w, out) := s
  if c.toNat < n then ({ w with delta := w.delta + 1 }, out)
  else if c.toNat = n then
    (⟨0, adapt w.delta (w.count + 1) (w.count == start), w.count + 1⟩,
      out ++ writeNumber w.bias 36 w.delta)
  else (w, out)

/-- Writes the characters with the numbers of a list, which ascends; `previous` is one more than the
number before. -/
def writeChars (label : List Char) (start previous : Nat) (w : Writer) : List Nat → List Char
  | [] => []
  | n :: rest =>
    let w := { w with delta := w.delta + (n - previous) * (w.count + 1) }
    let (w, out) := label.foldl (passChar start n) (w, [])
    out ++ writeChars label start (n + 1) { w with delta := w.delta + 1 } rest

def isAscii (c : Char) : Bool := c.toNat < 0x80

/-- The written form of a label. -/
def encode (label : List Char) : List Char :=
  let plain := label.filter isAscii
  let others := ((label.filter (!isAscii ·)).map Char.toNat).mergeSort.eraseDups
  (if plain.isEmpty then [] else plain ++ ['-']) ++
    writeChars label plain.length 0x80 ⟨0, initialBias, plain.length⟩ others

/-! ## Reading -/

/-- Numbers of a written form are below this limit. -/
def limit : Nat := 0x100000000

/-- Reads a number in front of a text and adds it to `sum`; `weight` is that of its next digit. -/
def readNumber (bias place weight sum : Nat) : List Char → Option (Nat × List Char)
  | [] => none
  | c :: rest =>
    match digitValue? c with
    | none => none
    | some d =>
      let t := threshold bias place
      if limit ≤ sum + d * weight then none
      else if d < t then some (sum + d * weight, rest)
      else if limit ≤ weight * (36 - t) then none
      else readNumber bias (place + 36) (weight * (36 - t)) (sum + d * weight) rest

theorem length_lt_of_readNumber {bias place weight sum n : Nat} {cs rest : List Char}
    (h : readNumber bias place weight sum cs = some (n, rest)) : rest.length < cs.length := by
  induction cs generalizing place weight sum with
  | nil => simp [readNumber] at h
  | cons c cs ih =>
    rw [readNumber] at h
    split at h
    · cases h
    · dsimp only at h
      split at h
      · cases h
      · split at h
        · cases h; exact Nat.lt_succ_self _
        · split at h
          · cases h
          · exact Nat.lt_succ_of_lt (ih h)

/-- Puts the characters that a text writes into `label`: the next one has at least the number `n`,
and of the places for that number those below `index` are passed. -/
def readChars (label : List Char) (n index bias : Nat) (cs : List Char) : Option (List Char) :=
  match cs with
  | [] => some label
  | c :: rest =>
    match _h : readNumber bias 36 1 index (c :: rest) with
    | none => none
    | some (sum, after) =>
      let count := label.length + 1
      let n := n + sum / count
      if n < 0xD800 ∨ 0xDFFF < n ∧ n < 0x110000 then
        readChars (label.insertIdx (sum % count) (.ofNat n)) n (sum % count + 1)
          (adapt (sum - index) count (index == 0)) after
      else none
termination_by cs.length
decreasing_by exact length_lt_of_readNumber _h

/-- The label of a written form: the last hyphen ends its ASCII characters, of which there is at
least one if there is a hyphen. -/
def decode? (cs : List Char) : Option (List Char) :=
  let others := (cs.reverse.takeWhile (· != '-')).reverse
  let plain := cs.take (cs.length - others.length)
  match plain with
  | [] => readChars [] 0x80 0 initialBias cs
  | ['-'] => none
  | _ => readChars plain.dropLast 0x80 0 initialBias others

end Typewright.Punycode
