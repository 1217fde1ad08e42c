import Typewright.Json.Double

/-!
# JSON values

An object keeps its members in order, one member a key. `Members` has the three operations that
order depends on: `put` replaces in place or appends, `remove` moves the last member into the gap.
-/

namespace Typewright

/-- A JSON number: an integer that fits 64 bits, or a double. -/
inductive Number where
  | integer (value : Int)
  | double (value : Double)
deriving DecidableEq, Repr, Inhabited

/-- A JSON value with ordered object members. -/
inductive Json where
  | null
  | bool (value : Bool)
  | number (value : Number)
  | string (value : String)
  | array (items : List Json)
  | object (members : List (String × Json))
deriving Repr, Inhabited

/-- The members of an object, in order. -/
abbrev Members := List (String × Json)

theorem mem_of_lookup {α β : Type} [BEq α] [LawfulBEq α] {l : List (α × β)} {a : α} {b : β}
    (h : l.lookup a = some b) : (a, b) ∈ l := by
  obtain ⟨before, after, rfl, -⟩ := List.lookup_eq_some_iff.1 h
  simp

/-! ## Equality -/

namespace Json

mutual
/-- Equality of values, member order included. -/
def eqb : Json → Json → Bool
  | .null, .null => true
  | .bool a, .bool b => a == b
  | .number a, .number b => a == b
  | .string a, .string b => a == b
  | .array as, .array bs => eqbItems as bs
  | .object as, .object bs => eqbMembers as bs
  | _, _ => false

def eqbItems : List Json → List Json → Bool
  | [], [] => true
  | a :: as, b :: bs => eqb a b && eqbItems as bs
  | _, _ => false

def eqbMembers : List (String × Json) → List (String × Json) → Bool
  | [], [] => true
  | (k, a) :: as, (l, b) :: bs => k == l && eqb a b && eqbMembers as bs
  | _, _ => false
end

mutual
theorem eq_of_eqb : (a b : Json) → eqb a b = true → a = b
  | .null, b, h => by cases b <;> simp_all [eqb]
  | .bool _, b, h => by cases b <;> simp_all [eqb]
  | .number _, b, h => by cases b <;> simp_all [eqb]
  | .string _, b, h => by cases b <;> simp_all [eqb]
  | .array as, b, h => by
      cases b with
      | array bs => simp only [eqb] at h; rw [eq_of_eqbItems as bs h]
      | _ => simp [eqb] at h
  | .object as, b, h => by
      cases b with
      | object bs => simp only [eqb] at h; rw [eq_of_eqbMembers as bs h]
      | _ => simp [eqb] at h

theorem eq_of_eqbItems : (as bs : List Json) → eqbItems as bs = true → as = bs
  | [], bs, h => by cases bs <;> simp_all [eqbItems]
  | a :: as, bs, h => by
      cases bs with
      | nil => simp [eqbItems] at h
      | cons b bs =>
          simp only [eqbItems, Bool.and_eq_true] at h
          rw [eq_of_eqb a b h.1, eq_of_eqbItems as bs h.2]

theorem eq_of_eqbMembers :
    (as bs : List (String × Json)) → eqbMembers as bs = true → as = bs
  | [], bs, h => by cases bs <;> simp_all [eqbMembers]
  | (k, a) :: as, bs, h => by
      cases bs with
      | nil => simp [eqbMembers] at h
      | cons b bs =>
          obtain ⟨l, b⟩ := b
          simp only [eqbMembers, Bool.and_eq_true, beq_iff_eq] at h
          rw [h.1.1, eq_of_eqb a b h.1.2, eq_of_eqbMembers as bs h.2]
end

mutual
theorem eqb_refl : (a : Json) → eqb a a = true
  | .null => rfl
  | .bool _ => by simp [eqb]
  | .number _ => by simp [eqb]
  | .string _ => by simp [eqb]
  | .array as => by simpa [eqb] using eqbItems_refl as
  | .object as => by simpa [eqb] using eqbMembers_refl as

theorem eqbItems_refl : (as : List Json) → eqbItems as as = true
  | [] => rfl
  | a :: as => by simp [eqbItems, eqb_refl a, eqbItems_refl as]

theorem eqbMembers_refl : (as : List (String × Json)) → eqbMembers as as = true
  | [] => rfl
  | (k, a) :: as => by simp [eqbMembers, eqb_refl a, eqbMembers_refl as]
end

instance : DecidableEq Json := fun a b =>
  if h : eqb a b = true then .isTrue (eq_of_eqb a b h)
  else .isFalse fun e => h (e ▸ eqb_refl a)

/-! ## Views -/

def members? : Json → Option Members
  | .object ms => some ms
  | _ => none

def items? : Json → Option (List Json)
  | .array xs => some xs
  | _ => none

def string? : Json → Option String
  | .string s => some s
  | _ => none

def isObject (v : Json) : Bool := v.members?.isSome

def isString (v : Json) : Bool := v.string?.isSome

def isNumber : Json → Bool
  | .number _ => true
  | _ => false

/-- A schema is an object or a boolean. -/
def isSchema : Json → Bool
  | .object _ | .bool _ => true
  | _ => false

/-- The value of a member; `none` for a value that is no object. -/
def member? (v : Json) (key : String) : Option Json :=
  v.members?.bind (·.lookup key)

end Json

/-! ## Members -/

namespace Members

def has (ms : Members) (key : String) : Bool := (ms.lookup key).isSome

/-- Replaces the value of `key` in place, or appends a new member. -/
def put (ms : Members) (key : String) (value : Json) : Members :=
  match ms with
  | [] => [(key, value)]
  | (k, v) :: rest => if k == key then (k, value) :: rest else (k, v) :: put rest key value

/-- Puts `last` where the member `key` stands. -/
def overwrite (ms : Members) (key : String) (last : String × Json) : Members :=
  match ms with
  | [] => []
  | m :: rest => if m.1 == key then last :: rest else m :: overwrite rest key last

/-- Takes the member `key` out; the last member moves into its place. -/
def remove (ms : Members) (key : String) : Members :=
  if has ms key then
    match ms.getLast? with
    | none => ms
    | some last =>
      if last.1 == key then ms.dropLast else overwrite ms.dropLast key last
  else ms

/-- Builds the members from a list of pairs in which a later value of a key replaces an earlier
one. -/
def ofList (pairs : List (String × Json)) : Members :=
  pairs.foldl (fun ms (k, v) => put ms k v) []

end Members

end Typewright
