import Typewright.Json.Value
import Typewright.Json.Decimal

/-!
# Reading strict JSON text

`Json.read` accepts one value between blanks: no byte order mark, no raw control character and no
lone surrogate in a string, and no more nested arrays and objects than the given depth. A part of a
text that does not count has to be well formed only: there lone surrogates, numbers of any size and
any nesting are fine. Each step returns the rest of the input together with the proof that it is
shorter.
-/

namespace Typewright.Json

/-- Which parts of a text count: the whole, nothing, or of an object the members with the given
keys. An array gives them by position. -/
inductive Scope where
  | whole
  | nothing
  | fields (scopes : List (String × Scope))

namespace Scope

def counts : Scope → Bool
  | nothing => false
  | _ => true

/-- What counts of the member with a key. -/
def ofMember (key : String) : Scope → Scope
  | fields scopes => (scopes.lookup key).getD nothing
  | scope => scope

/-- What counts of the first item of an array. -/
def ofItem : Scope → Scope
  | fields scopes => (scopes.head?.map Prod.snd).getD nothing
  | scope => scope

/-- What counts of the items after the first. -/
def tail : Scope → Scope
  | fields scopes => fields (scopes.drop 1)
  | scope => scope

end Scope

/-- A value read from the front of `input` and what follows it. -/
structure Read (α : Type) (input : List Char) where
  value : α
  rest : List Char
  shorter : rest.length < input.length

def isBlank (c : Char) : Bool := c == ' ' || c == '\n' || c == '\t' || c == '\r'

def skipBlank (cs : List Char) : List Char := cs.dropWhile isBlank

theorem length_skipBlank (cs : List Char) : (skipBlank cs).length ≤ cs.length :=
  (List.dropWhile_sublist isBlank).length_le

/-- What follows the first character that is no blank is shorter. -/
theorem length_lt_of_skipBlank {cs rest : List Char} {c : Char} (h : skipBlank cs = c :: rest) :
    rest.length < cs.length :=
  Nat.lt_of_lt_of_le (h ▸ Nat.lt_succ_self rest.length) (length_skipBlank cs)

/-- What follows a word that starts with the first character that is no blank is shorter. -/
theorem length_lt_of_word {cs rest : List Char} {c : Char} (word : List Char)
    (h : skipBlank cs = c :: (word ++ rest)) : rest.length < cs.length :=
  Nat.lt_of_le_of_lt (by simp) (length_lt_of_skipBlank h)

/-! ## Strings -/

def hexValue? (c : Char) : Option Nat :=
  if '0' ≤ c ∧ c ≤ '9' then some (c.toNat - '0'.toNat)
  else if 'a' ≤ c ∧ c ≤ 'f' then some (c.toNat - 'a'.toNat + 10)
  else if 'A' ≤ c ∧ c ≤ 'F' then some (c.toNat - 'A'.toNat + 10)
  else none

/-- The UTF-16 unit of four hexadecimal digits. -/
def unit? (a b c d : Char) : Option Nat := do
  return (((← hexValue? a) * 16 + (← hexValue? b)) * 16 + (← hexValue? c)) * 16 + (← hexValue? d)

/-- The character of an escape, read after its backslash. Where it counts, a high surrogate takes
the escape of its low surrogate with it. -/
def readEscape (counts : Bool) (cs : List Char) : Option (Read Char cs) :=
  match cs with
  | '"' :: rest => some ⟨'"', rest, by simp⟩
  | '\\' :: rest => some ⟨'\\', rest, by simp⟩
  | '/' :: rest => some ⟨'/', rest, by simp⟩
  | 'b' :: rest => some ⟨'\x08', rest, by simp⟩
  | 'f' :: rest => some ⟨'\x0c', rest, by simp⟩
  | 'n' :: rest => some ⟨'\n', rest, by simp⟩
  | 'r' :: rest => some ⟨'\r', rest, by simp⟩
  | 't' :: rest => some ⟨'\t', rest, by simp⟩
  | 'u' :: a :: b :: c :: d :: rest =>
    match unit? a b c d with
    | none => none
    | some high =>
      if !counts then some ⟨.ofNat high, rest, by simp only [List.length_cons]; omega⟩
      else if 0xDC00 ≤ high ∧ high < 0xE000 then none
      else if 0xD800 ≤ high ∧ high < 0xDC00 then
        match rest with
        | '\\' :: 'u' :: e :: f :: g :: h :: rest =>
          match unit? e f g h with
          | none => none
          | some low =>
            if 0xDC00 ≤ low ∧ low < 0xE000 then
              some ⟨.ofNat (0x10000 + (high - 0xD800) * 0x400 + (low - 0xDC00)), rest,
                by simp only [List.length_cons]; omega⟩
            else none
        | _ => none
      else some ⟨.ofNat high, rest, by simp only [List.length_cons]; omega⟩
  | _ => none

/-- The characters of a string up to its closing quote; `before` holds those already read, last
first. -/
def readString (counts : Bool) (before : List Char) (cs : List Char) : Option (Read String cs) :=
  match cs with
  | [] => none
  | c :: rest =>
    if c == '"' then some ⟨String.ofList before.reverse, rest, by simp⟩
    else if c == '\\' then
      match readEscape counts rest with
      | none => none
      | some ⟨e, rest', h⟩ =>
        match readString counts (e :: before) rest' with
        | none => none
        | some ⟨s, rest'', h'⟩ => some ⟨s, rest'', by simp only [List.length_cons]; omega⟩
    else if c.toNat < 0x20 then none
    else
      match readString counts (c :: before) rest with
      | none => none
      | some ⟨s, rest', h⟩ => some ⟨s, rest', by simp only [List.length_cons]; omega⟩
termination_by cs.length
decreasing_by all_goals simp only [List.length_cons]; omega

/-! ## Numbers -/

/-- The exponent after its letter; `none` where no digit follows. -/
def readExponent (cs : List Char) : Option (Int × List Char) :=
  let (negative, cs) :=
    match cs with
    | '-' :: rest => (true, rest)
    | '+' :: rest => (false, rest)
    | _ => (false, cs)
  let digits := cs.takeWhile Char.isDigit
  if digits.isEmpty then none
  else
    let n : Int := digits.foldl (fun n c => n * 10 + (c.toNat - '0'.toNat : Nat)) 0
    some (if negative then -n else n, cs.dropWhile Char.isDigit)

/-- The unsigned part of a number; one that does not count stands for zero. -/
def readMagnitude (counts negative : Bool) (cs : List Char) : Option (Number × List Char) := do
  let whole := cs.takeWhile Char.isDigit
  let cs := cs.dropWhile Char.isDigit
  if whole.isEmpty || (whole.head? == some '0' && 1 < whole.length) then none
  let (fraction, cs) ←
    match cs with
    | '.' :: rest =>
      let digits := rest.takeWhile Char.isDigit
      if digits.isEmpty then none else some (some digits, rest.dropWhile Char.isDigit)
    | _ => some (none, cs)
  let (exponent, cs) ←
    match cs with
    | 'e' :: rest | 'E' :: rest => (readExponent rest).map fun (n, cs) => (some n, cs)
    | _ => some (none, cs)
  let n ← if counts then Number.ofDecimal negative whole fraction exponent else some (.integer 0)
  return (n, cs)

def readNumber (counts : Bool) (cs : List Char) : Option (Read Json cs) := do
  let (n, rest) ←
    match cs with
    | '-' :: rest => readMagnitude counts true rest
    | _ => readMagnitude counts false cs
  if h : rest.length < cs.length then return ⟨.number n, rest, h⟩ else none

/-! ## Values -/

mutual
/-- A value in front of `cs`, with at most `depth` arrays and objects inside one another where they
count. -/
def readValue (scope : Scope) (depth : Nat) (cs : List Char) : Option (Read Json cs) :=
  match h : skipBlank cs with
  | 'n' :: 'u' :: 'l' :: 'l' :: rest =>
    some ⟨.null, rest, length_lt_of_word ['u', 'l', 'l'] h⟩
  | 't' :: 'r' :: 'u' :: 'e' :: rest =>
    some ⟨.bool true, rest, length_lt_of_word ['r', 'u', 'e'] h⟩
  | 'f' :: 'a' :: 'l' :: 's' :: 'e' :: rest =>
    some ⟨.bool false, rest, length_lt_of_word ['a', 'l', 's', 'e'] h⟩
  | '"' :: rest =>
    match readString scope.counts [] rest with
    | none => none
    | some ⟨s, rest', h'⟩ => some ⟨.string s, rest', Nat.lt_trans h' (length_lt_of_skipBlank h)⟩
  | '[' :: rest =>
    have hs := length_lt_of_skipBlank h
    if scope.counts && depth == 0 then none
    else
      match h' : skipBlank rest with
      | ']' :: rest' => some ⟨.array [], rest', Nat.lt_trans (length_lt_of_skipBlank h') hs⟩
      | _ =>
        match readItems scope (depth - 1) [] rest with
        | none => none
        | some ⟨v, rest', h''⟩ => some ⟨v, rest', Nat.lt_trans h'' hs⟩
  | '{' :: rest =>
    have hs := length_lt_of_skipBlank h
    if scope.counts && depth == 0 then none
    else
      match h' : skipBlank rest with
      | '}' :: rest' => some ⟨.object [], rest', Nat.lt_trans (length_lt_of_skipBlank h') hs⟩
      | _ =>
        match readMembers scope (depth - 1) [] rest with
        | none => none
        | some ⟨v, rest', h''⟩ => some ⟨v, rest', Nat.lt_trans h'' hs⟩
  | other =>
    match readNumber scope.counts other with
    | none => none
    | some ⟨v, rest, h'⟩ => some ⟨v, rest, Nat.lt_of_lt_of_le h' (h ▸ length_skipBlank cs)⟩
termination_by (cs.length, 0)

/-- The items of an array up to its closing bracket, those already read last first. -/
def readItems (scope : Scope) (depth : Nat) (before : List Json) (cs : List Char) :
    Option (Read Json cs) :=
  match readValue scope.ofItem depth cs with
  | none => none
  | some ⟨v, rest, hv⟩ =>
    match h : skipBlank rest with
    | ',' :: rest' =>
      have hs : rest'.length < cs.length := Nat.lt_trans (length_lt_of_skipBlank h) hv
      match readItems scope.tail depth (v :: before) rest' with
      | none => none
      | some ⟨w, rest'', hw⟩ => some ⟨w, rest'', Nat.lt_trans hw hs⟩
    | ']' :: rest' =>
      some ⟨.array (v :: before).reverse, rest', Nat.lt_trans (length_lt_of_skipBlank h) hv⟩
    | _ => none
termination_by (cs.length, 1)

/-- The members of an object up to its closing brace, those already read last first. A repeated key
gives several members. -/
def readMembers (scope : Scope) (depth : Nat) (before : List (String × Json)) (cs : List Char) :
    Option (Read Json cs) :=
  match h : skipBlank cs with
  | '"' :: rest =>
    match readString scope.counts [] rest with
    | none => none
    | some ⟨key, rest', hk⟩ =>
      match hc : skipBlank rest' with
      | ':' :: rest'' =>
        have hs : rest''.length < cs.length :=
          Nat.lt_trans (Nat.lt_trans (length_lt_of_skipBlank hc) hk) (length_lt_of_skipBlank h)
        match readValue (scope.ofMember key) depth rest'' with
        | none => none
        | some ⟨v, after, hv⟩ =>
          match ha : skipBlank after with
          | ',' :: last =>
            have hl : last.length < cs.length :=
              Nat.lt_trans (Nat.lt_trans (length_lt_of_skipBlank ha) hv) hs
            match readMembers scope depth ((key, v) :: before) last with
            | none => none
            | some ⟨w, last', hw⟩ => some ⟨w, last', Nat.lt_trans hw hl⟩
          | '}' :: last =>
            some ⟨.object ((key, v) :: before).reverse, last,
              Nat.lt_trans (Nat.lt_trans (length_lt_of_skipBlank ha) hv) hs⟩
          | _ => none
      | _ => none
  | _ => none
termination_by (cs.length, 1)
end

mutual
/-- Each object with one member a key: a repeated key keeps its first position and takes its last
value. -/
def mergeRepeats : Json → Json
  | .array xs => .array (mergeItems xs)
  | .object ms => .object (Members.ofList (mergeMembers ms))
  | v => v

def mergeItems : List Json → List Json
  | [] => []
  | v :: rest => mergeRepeats v :: mergeItems rest

def mergeMembers : List (String × Json) → List (String × Json)
  | [] => []
  | (k, v) :: rest => (k, mergeRepeats v) :: mergeMembers rest
end

/-- The number of arrays and objects that may stand inside one another in a document. -/
def maxDepth : Nat := 127

/-- Reads a whole text as one value, in which a repeated key gives several members. -/
def readRepeats (scope : Scope) (depth : Nat) (s : String) : Option Json :=
  match readValue scope depth s.toList with
  | some ⟨v, rest, _⟩ => if (skipBlank rest).isEmpty then some v else none
  | none => none

/-- Reads a whole document. -/
def read (s : String) : Option Json := (readRepeats .whole maxDepth s).map mergeRepeats

end Typewright.Json
