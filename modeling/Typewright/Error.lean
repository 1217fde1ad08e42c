import Typewright.Fragment
import Typewright.Schema.Fault

/-!
# Failures of a compile

Each failure is a cause with what it was found on; `CompileError.message` words it.
-/

namespace Typewright

/-- Why a reference leads nowhere. -/
inductive RefFailure where
  | chainTooLong (limit : Nat)
  | noBase
  | invalidUrl
  | unsupportedScheme (scheme : String)
  | nestingTooDeep (limit : Nat)
  | notLocal (url : String)
  | unreadable (path : String) (reason : String)
  | invalidJson (path : String)
  | notUtf8 (fragment : String)
  | notPointer (pointer : String)
  | notSchema (pointer : String)
  | missing (pointer : String)
deriving DecidableEq, Repr

/-- Why a fragment is no usable schema. -/
inductive SchemaFailure where
  | fragmentMissing (id : Fragment)
  | branchMissing (variant : Nat)
  | notSchema (text : String)
  | extendsShape
  | extendsUnnamed
  | extendsUnfinished
deriving DecidableEq, Repr

/-- Why a node has no text. -/
inductive NodeFailure where
  | foreign
  | unbuilt
  | unnamedCycle
  | unnamedSuper
deriving DecidableEq, Repr

/-- Why a text cannot be laid out. -/
inductive LayoutFailure where
  | openString (quote : Char)
  | mismatch (expected : Char) (openedAt : Nat) (found : Char)
  | unexpected (found : Char)
  | unclosed (expected : Char) (openedAt : Nat)
deriving DecidableEq, Repr

/-- A failed compile. -/
inductive CompileError where
  | unreadable (path : String) (reason : String)
  | invalid (name : String) (faults : List Schema.Fault)
  | reference (path : String) (written : String) (cause : RefFailure)
  | schema (path : String) (cause : SchemaFailure)
  | unsupportedNode (node : Nat) (path : String) (cause : NodeFailure)
  | layout (line : Nat) (cause : LayoutFailure)
deriving DecidableEq, Repr

def RefFailure.message : RefFailure → String
  | .chainTooLong limit => "$ref chain exceeds the maximum depth of " ++ toString limit
  | .noBase => "no base location to resolve a relative reference"
  | .invalidUrl => "invalid reference URL"
  | .unsupportedScheme s =>
    "unsupported scheme \"" ++ s ++ "\"; only local files are loaded"
  | .nestingTooDeep limit => "document nesting exceeds the maximum depth of " ++ toString limit
  | .notLocal url => url ++ " is not a local file path"
  | .unreadable path reason => "cannot read " ++ path ++ ": " ++ reason
  | .invalidJson path => "invalid JSON in " ++ path
  | .notUtf8 fragment => "\"#" ++ fragment ++ "\" is not valid UTF-8 once decoded"
  | .notPointer p => "\"" ++ p ++ "\" is not a JSON pointer"
  | .notSchema p => "\"" ++ p ++ "\" does not point at a schema"
  | .missing p => "\"" ++ p ++ "\" does not exist"

def SchemaFailure.message : SchemaFailure → String
  | .fragmentMissing id => "fragment " ++ id.text ++ " does not exist"
  | .branchMissing v => "type branch " ++ toString v ++ " does not exist"
  | .notSchema text => "expected a schema object or boolean, found " ++ text
  | .extendsShape => "tsExtends must be a schema or an array of schemas"
  | .extendsUnnamed => "tsExtends target must be a named object schema"
  | .extendsUnfinished => "tsExtends target is still being defined (cyclic inheritance)"

def NodeFailure.message : NodeFailure → String
  | .foreign => "node does not belong to this AST"
  | .unbuilt => "node was reserved but never built"
  | .unnamedCycle => "unnamed cycle reached during inline rendering"
  | .unnamedSuper => "super type has no name"

/-- A character in backticks. -/
def quotedChar (c : Char) : String := "\x60" ++ String.singleton c ++ "\x60"

def LayoutFailure.message : LayoutFailure → String
  | .openString q => "unterminated string literal opened with " ++ quotedChar q
  | .mismatch expected line found =>
    "expected " ++ quotedChar expected ++ " to close line " ++ toString line ++ " but found "
      ++ quotedChar found
  | .unexpected found => "unexpected " ++ quotedChar found
  | .unclosed expected line =>
    quotedChar expected ++ " expected to close line " ++ toString line ++ " before end of input"

def CompileError.message : CompileError → String
  | .unreadable path reason => "Unable to read schema from " ++ path ++ ": " ++ reason
  | .invalid name faults =>
    "Schema failed validation:\n" ++
      String.intercalate "\n" (faults.map (Schema.Fault.message name))
  | .reference path written cause =>
    "Unresolvable $ref \"" ++ written ++ "\" at " ++ path ++ ": " ++ cause.message
  | .schema path cause => "Schema error at " ++ path ++ ": " ++ cause.message
  | .unsupportedNode node path cause =>
    "Cannot generate node #" ++ toString node ++ " at " ++ path ++ ": " ++ cause.message
  | .layout line cause => "Formatting failed at line " ++ toString line ++ ": " ++ cause.message

end Typewright
