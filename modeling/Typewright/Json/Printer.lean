import Typewright.Json.Decimal

/-!
# Compact JSON text

`Json.text` writes a value without blanks. In a string only the quote, the backslash and the control
characters below U+0020 are escaped.
-/

namespace Typewright.Json

def hexDigit (n : Nat) : Char := "0123456789abcdef".toList.getD n '0'

/-- The written form of one character of a string. -/
def escapeChar (c : Char) : List Char :=
  if c == '"' then ['\\', '"']
  else if c == '\\' then ['\\', '\\']
  else if c == '\n' then ['\\', 'n']
  else if c == '\r' then ['\\', 'r']
  else if c == '\t' then ['\\', 't']
  else if c.toNat == 0x08 then ['\\', 'b']
  else if c.toNat == 0x0C then ['\\', 'f']
  else if c.toNat < 0x20 then
    ['\\', 'u', '0', '0', hexDigit (c.toNat / 16), hexDigit (c.toNat % 16)]
  else [c]

/-- A string between quotes. -/
def quote (s : String) : String :=
  String.ofList ('"' :: s.toList.flatMap escapeChar ++ ['"'])

mutual
/-- The compact text of a value. -/
def text : Json → String
  | .null => "null"
  | .bool true => "true"
  | .bool false => "false"
  | .number n => n.text
  | .string s => quote s
  | .array xs => "[" ++ textItems xs ++ "]"
  | .object ms => "\x7b" ++ textMembers ms ++ "\x7d"

def textItems : List Json → String
  | [] => ""
  | [x] => text x
  | x :: rest => text x ++ "," ++ textItems rest

def textMembers : List (String × Json) → String
  | [] => ""
  | [(k, v)] => quote k ++ ":" ++ text v
  | (k, v) :: rest => quote k ++ ":" ++ text v ++ "," ++ textMembers rest
end

end Typewright.Json
