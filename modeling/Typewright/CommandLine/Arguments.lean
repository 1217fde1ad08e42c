import Typewright.Text.Lines

/-!
# Arguments

Options and positional arguments in the usual form: `--name value`, `--name=value`, `-nvalue`,
several short flags in one word, and `--` in front of positional arguments only. An option is
given once, and a value that looks like an option is none.
-/

namespace Typewright.Arguments

/-- What may follow an option. -/
inductive Arity where
  | flag
  | help
  | version
  | text
  /-- A text that is not empty. -/
  | path
  /-- A number that fits 64 bits. -/
  | count
deriving DecidableEq, Repr

/-- An option with its long name and its letter. -/
structure Spec where
  long : String
  short : Option Char
  arity : Arity

/-- Why arguments ask for no work. -/
inductive Stop where
  | usage
  | help
  | version
deriving DecidableEq, Repr

/-- The options that were given, a flag with an empty value, and the positional arguments. -/
structure Given where
  options : List (String × String) := []
  positional : List String := []

/-- A number without sign, or with a plus sign. -/
def count? (s : String) : Option Nat :=
  let digits :=
    match s.toList with
    | '+' :: rest => rest
    | cs => cs
  if digits.isEmpty || !digits.all Char.isDigit then none
  else
    let n := digits.foldl (fun n c => n * 10 + (c.toNat - '0'.toNat)) 0
    if n < Nat.pow 2 64 then some n else none

def accepts (arity : Arity) (value : String) : Bool :=
  match arity with
  | .path => value != ""
  | .count => (count? value).isSome
  | _ => true

/-- Records an option, which must not have been given before. -/
def Given.add (g : Given) (spec : Spec) (value : String) : Except Stop Given :=
  if (g.options.lookup spec.long).isSome || !accepts spec.arity value then .error .usage
  else .ok { g with options := g.options ++ [(spec.long, value)] }

/-- Records an option that takes no value. -/
def Given.addFlag (g : Given) (spec : Spec) : Except Stop Given :=
  match spec.arity with
  | .help => .error .help
  | .version => .error .version
  | _ => g.add spec ""

def takesValue (spec : Spec) : Bool :=
  match spec.arity with
  | .text | .path | .count => true
  | _ => false

/-- What a word is. -/
inductive Word where
  | escape
  | long (name : String) (value : Option String)
  | short (letters : List Char)
  | plain (text : String)

/-- A single dash is a plain word. -/
def Word.ofString (s : String) : Word :=
  match s.toList with
  | ['-', '-'] => .escape
  | '-' :: '-' :: rest =>
    let name := String.ofList (rest.takeWhile (· != '='))
    match rest.dropWhile (· != '=') with
    | [] => .long name none
    | _ :: value => .long name (some (String.ofList value))
  | '-' :: c :: rest => .short (c :: rest)
  | _ => .plain s

/-- Short options in one word. The first that takes a value takes the rest of the word, from which
an equals sign in front is dropped; `some` names an option whose value is the next word. -/
def readLetters (specs : List Spec) (g : Given) : List Char → Except Stop (Given × Option Spec)
  | [] => .ok (g, none)
  | c :: rest =>
    match specs.find? (·.short == some c) with
    | none => .error .usage
    | some spec =>
      if takesValue spec then
        match rest with
        | [] => .ok (g, some spec)
        | '=' :: value => (g.add spec (String.ofList value)).map (·, none)
        | value => (g.add spec (String.ofList value)).map (·, none)
      else do
        let g ← g.addFlag spec
        readLetters specs g rest

/-- A long option; `some` names an option whose value is the next word. -/
def readLong (specs : List Spec) (g : Given) (name : String) (value : Option String) :
    Except Stop (Given × Option Spec) :=
  match specs.find? (·.long == name) with
  | none => .error .usage
  | some spec =>
    if takesValue spec then
      match value with
      | some value => (g.add spec value).map (·, none)
      | none => .ok (g, some spec)
    else
      match value with
      | some _ => .error .usage
      | none => (g.addFlag spec).map (·, none)

/-- Records a positional argument, which is a path; there are at most `limit`. -/
def Given.addPositional (limit : Nat) (g : Given) (path : String) : Except Stop Given :=
  if limit ≤ g.positional.length || path == "" then .error .usage
  else .ok { g with positional := g.positional ++ [path] }

/-- Reads words up to the first plain one that `isCommand` accepts, which is given back with the
words after it. `waiting` is an option that waits for its value. -/
def read (specs : List Spec) (isCommand : String → Bool) (limit : Nat) (g : Given)
    (waiting : Option Spec) : List String → Except Stop (Given × List String)
  | [] => if waiting.isSome then .error .usage else .ok (g, [])
  | word :: rest =>
    match Word.ofString word, waiting with
    | .plain text, some spec => do
      let g ← g.add spec text
      read specs isCommand limit g none rest
    | _, some _ => .error .usage
    | .plain text, none => do
      if isCommand text then return (g, word :: rest)
      else
        let g ← g.addPositional limit text
        read specs isCommand limit g none rest
    | .escape, none => do
      let g ← rest.foldlM (Given.addPositional limit) g
      return (g, [])
    | .long name value, none => do
      let (g, waiting) ← readLong specs g name value
      read specs isCommand limit g waiting rest
    | .short letters, none => do
      let (g, waiting) ← readLetters specs g letters
      read specs isCommand limit g waiting rest

/-- Words without a command among them, with at most one positional argument. -/
def readCommand (specs : List Spec) (words : List String) : Except Stop Given :=
  (read specs (fun _ => false) 1 {} none words).map (·.1)

end Typewright.Arguments
