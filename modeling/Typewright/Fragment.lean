/-!
# Fragments

The identity of a schema inside a set of documents.
-/

namespace Typewright

/-- A schema in a document, addressed by a pointer in fragment form, or one entry of its `type`
list. The entries share the pointer of their schema. -/
structure Fragment where
  document : Nat
  pointer : String
  variant : Option Nat := none
deriving DecidableEq, Repr, Inhabited

namespace Fragment

/-- The root of a compile. -/
def root : Fragment := ⟨0, "#", none⟩

def text (id : Fragment) : String :=
  "[" ++ toString id.document ++ "]" ++ id.pointer ++
    (match id.variant with
      | none => ""
      | some v => "<" ++ toString v ++ ">")

end Fragment

end Typewright
