import Typewright.Text.Lines
import Typewright.Json.Value

/-!
# JSON pointers

A pointer in fragment form is `#` followed by `/segment` for each step. In a segment `~` is written
`~0` and `/` is written `~1`. `Pointer.build` and `Pointer.split` go between segments and pointers;
`Json.at?` looks up the value that a pointer addresses.
-/

namespace Typewright

namespace Pointer

/-! ## Segments -/

/-- A segment as it stands in a pointer. -/
def escapeChars : List Char → List Char
  | [] => []
  | '~' :: rest => '~' :: '0' :: escapeChars rest
  | '/' :: rest => '~' :: '1' :: escapeChars rest
  | c :: rest => c :: escapeChars rest

/-- The segment of which a part of a pointer is the written form. A `~` that starts no escape stands
for itself. -/
def unescapeChars : List Char → List Char
  | '~' :: '0' :: rest => '~' :: unescapeChars rest
  | '~' :: '1' :: rest => '/' :: unescapeChars rest
  | c :: rest => c :: unescapeChars rest
  | [] => []

def escape (segment : String) : String := String.ofList (escapeChars segment.toList)

def unescape (segment : String) : String := String.ofList (unescapeChars segment.toList)

/-! ## Pointers -/

/-- A pointer continued by further segments. -/
def build (parent : String) (segments : List String) : String :=
  segments.foldl (fun path segment => path ++ "/" ++ escape segment) parent

/-- A pointer without its leading `#`. -/
def body (path : String) : List Char :=
  match path.toList with
  | '#' :: rest => rest
  | cs => cs

/-- The segments of a text that is cut at every slash. -/
def segments (cs : List Char) : List String :=
  (Text.pieces (· == '/') cs).map fun s => String.ofList (unescapeChars s)

/-- The segments of a pointer, with or without its leading `#`. The empty pointer has none, and `#/`
has one, the empty segment. -/
def split (path : String) : List String :=
  match body path with
  | [] => []
  | '/' :: rest => segments rest
  | cs => segments cs

end Pointer

namespace Json

/-- An array index as a pointer writes it: no sign and no leading zero. -/
def index? (segment : String) : Option Nat :=
  match segment.toList with
  | ['0'] => some 0
  | '0' :: _ => none
  | cs =>
    if cs.isEmpty || !cs.all Char.isDigit then none
    else some (cs.foldl (fun n c => n * 10 + (c.toNat - '0'.toNat)) 0)

/-- One step into a value. -/
def child? (v : Json) (segment : String) : Option Json :=
  match v with
  | .object ms => ms.lookup segment
  | .array xs => (index? segment).bind (xs[·]?)
  | _ => none

/-- The value at the end of a list of steps. -/
def follow? : Json → List String → Option Json
  | v, [] => some v
  | v, segment :: rest => (v.child? segment).bind (·.follow? rest)

/-- The value that a pointer addresses, with or without its leading `#`. What is left of it is empty
or starts with a slash; any other text addresses nothing. -/
def at? (v : Json) (pointer : String) : Option Json :=
  match Pointer.body pointer with
  | [] => some v
  | '/' :: rest => v.follow? (Pointer.segments rest)
  | _ => none

end Json

end Typewright
