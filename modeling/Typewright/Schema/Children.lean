import Typewright.Pointer

/-!
# Schemas inside a schema

The keywords under which a schema object holds further schemas, in the order in which they are
visited. `Schema.children` lists the schemas one level down, `Schema.positions` those at any depth,
and `Schema.traverseChildren` replaces the object-valued ones.
-/

namespace Typewright.Schema

/-- How a keyword holds schemas: by name, a single one, a list, or either of the last two. -/
inductive Shape where
  | byName
  | one
  | list
  | oneOrList
deriving DecidableEq, Repr

/-- The keywords that hold schemas, in visiting order. -/
def keywords : List (String × Shape) :=
  [ ("properties", .byName), ("patternProperties", .byName), ("definitions", .byName),
    ("$defs", .byName), ("dependencies", .byName),
    ("additionalProperties", .one), ("additionalItems", .one), ("propertyNames", .one),
    ("contains", .one), ("not", .one), ("if", .one), ("then", .one), ("else", .one),
    ("anyOf", .list), ("oneOf", .list), ("allOf", .list),
    ("items", .oneOrList), ("tsExtends", .oneOrList) ]

namespace Shape

/-- Items with their index as a pointer segment. -/
def indexed (start : Nat) : List Json → List (List String × Json)
  | [] => []
  | v :: rest => ([toString start], v) :: indexed (start + 1) rest

/-- The values in the places of a keyword's value that may hold schemas, each with its segments
below the keyword. -/
def parts : Shape → Json → List (List String × Json)
  | .byName, .object ms => ms.map fun (k, v) => ([k], v)
  | .one, v => [([], v)]
  | .list, .array xs => indexed 0 xs
  | .oneOrList, .array xs => indexed 0 xs
  | .oneOrList, v => [([], v)]
  | _, _ => []

theorem sizeOf_indexed {start : Nat} {xs : List Json} {p : List String × Json}
    (h : p ∈ indexed start xs) : sizeOf p.2 < sizeOf xs := by
  induction xs generalizing start with
  | nil => simp [indexed] at h
  | cons v rest ih =>
    rcases List.mem_cons.1 h with rfl | h
    · simp only [List.cons.sizeOf_spec]; omega
    · have := ih h; simp only [List.cons.sizeOf_spec]; omega

theorem sizeOf_parts {shape : Shape} {v : Json} {p : List String × Json} (h : p ∈ shape.parts v) :
    sizeOf p.2 ≤ sizeOf v := by
  unfold parts at h
  split at h
  · rename_i ms
    obtain ⟨⟨k, w⟩, hm, rfl⟩ := List.mem_map.1 h
    have h1 := List.sizeOf_lt_of_mem hm
    simp only [Prod.mk.sizeOf_spec, Json.object.sizeOf_spec] at h1 ⊢
    omega
  · obtain rfl := List.mem_singleton.1 h
    exact Nat.le_refl _
  · have := sizeOf_indexed h; simp only [Json.array.sizeOf_spec]; omega
  · have := sizeOf_indexed h; simp only [Json.array.sizeOf_spec]; omega
  · obtain rfl := List.mem_singleton.1 h
    exact Nat.le_refl _
  · simp at h

end Shape

/-! ## Reading -/

/-- The schemas one level below a schema object, each with its pointer. -/
def children (obj : Members) (path : String) : List (String × Json) :=
  keywords.flatMap fun (keyword, shape) =>
    match obj.lookup keyword with
    | none => []
    | some v =>
      (shape.parts v).filterMap fun (segments, part) =>
        if part.isSchema then some (Pointer.build path (keyword :: segments), part) else none

theorem sizeOf_lookup {ms : Members} {key : String} {v : Json} (h : ms.lookup key = some v) :
    sizeOf v < sizeOf ms := by
  have := List.sizeOf_lt_of_mem (mem_of_lookup h)
  simp only [Prod.mk.sizeOf_spec] at this
  omega

theorem sizeOf_children {obj : Members} {path : String} {c : String × Json}
    (h : c ∈ children obj path) : sizeOf c.2 < sizeOf obj := by
  obtain ⟨⟨keyword, shape⟩, -, h⟩ := List.mem_flatMap.1 h
  simp only at h
  split at h
  · simp at h
  · rename_i v hv
    obtain ⟨p, hp, h⟩ := List.mem_filterMap.1 h
    split at h
    · obtain rfl := Option.some.inj h
      have := Shape.sizeOf_parts hp
      have := sizeOf_lookup hv
      simp only
      omega
    · simp at h

/-- The schema itself and all schemas inside it, each with its pointer, a schema before its
children. Values of keywords that hold data, such as `enum` and `default`, are not visited. -/
def positions (path : String) (schema : Json) : List (String × Json) :=
  match schema with
  | .object ms =>
    (path, schema) :: (children ms path).attach.flatMap fun ⟨c, _⟩ => positions c.1 c.2
  | _ => [(path, schema)]
termination_by sizeOf schema
decreasing_by
  have := sizeOf_children ‹_›
  simp only [Json.object.sizeOf_spec]
  omega

/-! ## Replacing the schemas inside -/

section Traverse

variable {m : Type → Type} [Monad m]

/-- A value under `visit` if it is an object. -/
def visitObject (visit : List String → Json → m Json) (segments : List String) (v : Json) :
    m Json :=
  if v.isObject then visit segments v else pure v

def traverseItems (visit : List String → Json → m Json) (start : Nat) : List Json → m (List Json)
  | [] => pure []
  | v :: rest => do
    let v ← visitObject visit [toString start] v
    let rest ← traverseItems visit (start + 1) rest
    return v :: rest

def traverseMembers (visit : List String → Json → m Json) : Members → m Members
  | [] => pure []
  | (k, v) :: rest => do
    let v ← visitObject visit [k] v
    let rest ← traverseMembers visit rest
    return (k, v) :: rest

/-- Replaces the objects among the parts of a keyword's value. -/
def Shape.traverse (visit : List String → Json → m Json) : Shape → Json → m Json
  | .byName, .object ms => .object <$> traverseMembers visit ms
  | .one, v => visitObject visit [] v
  | .list, .array xs => .array <$> traverseItems visit 0 xs
  | .oneOrList, .array xs => .array <$> traverseItems visit 0 xs
  | .oneOrList, v => visitObject visit [] v
  | _, v => pure v

end Traverse

variable {σ ε : Type}

/-- Takes each present keyword of the list out of the object, replaces the objects in its value and
puts it back at the end. The first failure stops the work, and its keyword stays out. -/
def traverseKeywords (visit : String → Json → ExceptT ε (StateM σ) Json) (path : String) :
    List (String × Shape) → Members → StateM σ (Option ε × Members)
  | [], ms => pure (none, ms)
  | (keyword, shape) :: more, ms =>
    match ms.lookup keyword with
    | none => traverseKeywords visit path more ms
    | some v => do
      let visitPart (segments : List String) := visit (Pointer.build path (keyword :: segments))
      match ← (shape.traverse visitPart v).run with
      | .ok v => traverseKeywords visit path more ((ms.remove keyword).put keyword v)
      | .error e => pure (some e, ms.remove keyword)

/-- Replaces the object-valued schemas one level below a schema object by what `visit` makes of
them. -/
def traverseChildren (visit : String → Json → ExceptT ε (StateM σ) Json) (path : String)
    (obj : Members) : StateM σ (Option ε × Members) :=
  traverseKeywords visit path keywords obj

/-- Each keyword that holds schemas moved to the end, in visiting order: the member order that
`traverseChildren` leaves. -/
def settle (obj : Members) : Members :=
  keywords.foldl
    (fun ms (keyword, _) =>
      match ms.lookup keyword with
      | none => ms
      | some v => (ms.remove keyword).put keyword v)
    obj

end Typewright.Schema
