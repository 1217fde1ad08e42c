import Typewright.Error
import Typewright.Location.FileUrl

/-!
# Schema graphs

The documents of a compile and, for each `$ref` in them, what it points at. Nothing is inlined:
cycles stay cycles, and a fragment reached through several references is the same fragment.
-/

namespace Typewright

/-- A loaded document; a root that is given in memory has no location. -/
structure Document where
  location : Option FileUrl
  root : Json
deriving DecidableEq, Repr

def Document.stem? (d : Document) : Option String := d.location.bind FileUrl.stem?

/-- What a `$ref` points at: a fragment, or something that is not loaded and only has a name. -/
inductive Target where
  | fragment (id : Fragment)
  | external (name : String)
deriving DecidableEq, Repr

/-- Documents and the targets of their references. -/
structure SchemaGraph where
  documents : List Document
  refs : List (Fragment × Target)
  maxDepth : Nat

namespace SchemaGraph

variable (g : SchemaGraph)

/-- The value of a fragment, the whole schema for an entry of a `type` list. -/
def get? (id : Fragment) : Option Json :=
  (g.documents[id.document]?).bind fun d => d.root.at? id.pointer

/-- Follows references from `current`, at most `hops - 1` of them. -/
def follow (start : Fragment) : Nat → Fragment → Except CompileError Target
  | 0, current =>
    .error (.reference start.pointer current.pointer (.chainTooLong g.maxDepth))
  | hops + 1, current =>
    match g.refs.lookup current with
    | none => .ok (.fragment current)
    | some (.external name) => .ok (.external name)
    | some (.fragment next) => follow start hops next

/-- The fragment that is no reference, or the name, at the end of the references from `id`. -/
def resolve (id : Fragment) : Except CompileError Target := g.follow id (g.maxDepth + 1) id

/-- The fragments that some reference points at. -/
def targets : List Fragment :=
  g.refs.filterMap fun (_, target) =>
    match target with
    | .fragment id => some id
    | .external _ => none

theorem mem_targets_of_lookup {refs : List (Fragment × Target)} {a b : Fragment}
    (h : refs.lookup a = some (.fragment b)) : ∃ p ∈ refs, p.2 = .fragment b :=
  ⟨_, mem_of_lookup h, rfl⟩

theorem follow_eq_or_mem {start current id : Fragment} {hops : Nat}
    (h : g.follow start hops current = .ok (.fragment id)) : id = current ∨ id ∈ g.targets := by
  induction hops generalizing current with
  | zero => simp [follow] at h
  | succ hops ih =>
    rw [follow] at h
    split at h
    · simp only [Except.ok.injEq, Target.fragment.injEq] at h
      exact .inl h.symm
    · simp at h
    · rename_i next hl
      rcases ih h with rfl | hm
      · obtain ⟨p, hp, ht⟩ := mem_targets_of_lookup hl
        refine .inr (List.mem_filterMap.2 ⟨p, hp, ?_⟩)
        simp [ht]
      · exact .inr hm

/-- A reference leads to itself or to a recorded target. -/
theorem resolve_eq_or_mem {site id : Fragment} (h : g.resolve site = .ok (.fragment id)) :
    id = site ∨ id ∈ g.targets :=
  g.follow_eq_or_mem h

end SchemaGraph

end Typewright
