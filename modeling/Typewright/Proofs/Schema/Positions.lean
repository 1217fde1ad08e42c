import Typewright.Proofs.Json.Keys
import Typewright.Proofs.Pointer

/-!
# Schemas inside a schema

A schema inside another one is a part of a keyword's value. What holds of a schema and passes on to
its parts holds of all schemas inside (`positions_induction`); in a document with one member a key
each is the value at its pointer (`at?_of_mem_positions`).
-/

namespace Typewright

namespace Json

variable {v w : Json}

theorem Distinct.child? {segment : String} (h : v.Distinct)
    (hw : v.child? segment = some w) : w.Distinct := by
  unfold Json.child? at hw
  split at hw
  · exact h.lookup hw
  · obtain ⟨i, -, hi⟩ := Option.bind_eq_some_iff.1 hw
    exact distinct_array.1 h w (List.mem_of_getElem? hi)
  · cases hw

theorem Distinct.follow? {steps : List String} (h : v.Distinct)
    (hw : v.follow? steps = some w) : w.Distinct := by
  induction steps generalizing v with
  | nil =>
      obtain rfl := Option.some.inj hw
      exact h
  | cons segment rest ih =>
      rw [Json.follow?] at hw
      obtain ⟨x, hx, hw⟩ := Option.bind_eq_some_iff.1 hw
      exact ih (h.child? hx) hw

theorem Distinct.at? {pointer : String} (h : v.Distinct)
    (hw : v.at? pointer = some w) : w.Distinct := by
  unfold Json.at? at hw
  split at hw
  · obtain rfl := Option.some.inj hw
    exact h
  · exact h.follow? hw
  · cases hw

end Json

namespace Schema

variable {ms : Members} {path : String} {steps : List String} {v w : Json}

/-! ## Parts -/

/-- A value in one of the places of an object schema that may hold a schema, with the steps that
lead to it. -/
def Part (ms : Members) (steps : List String) (v : Json) : Prop :=
  ∃ keyword shape value segments, (keyword, shape) ∈ keywords ∧
    ms.lookup keyword = some value ∧ (segments, v) ∈ shape.parts value ∧
    steps = keyword :: segments

theorem Part.sizeOf_lt (h : Part ms steps v) : sizeOf v < sizeOf ms := by
  obtain ⟨keyword, shape, value, segments, -, hl, hp, -⟩ := h
  exact Nat.lt_of_le_of_lt (Shape.sizeOf_parts hp) (sizeOf_lookup hl)

theorem mem_children_iff {c : String × Json} :
    c ∈ children ms path ↔
      ∃ steps, Part ms steps c.2 ∧ c.2.isSchema = true ∧ c.1 = Pointer.build path steps := by
  rw [children, List.mem_flatMap]
  constructor
  · rintro ⟨⟨keyword, shape⟩, hk, hc⟩
    dsimp only at hc
    split at hc
    · cases hc
    · rename_i value hl
      obtain ⟨⟨segments, part⟩, hp, hc⟩ := List.mem_filterMap.1 hc
      split at hc
      · rename_i hs
        obtain rfl := Option.some.inj hc
        exact ⟨keyword :: segments, ⟨keyword, shape, value, segments, hk, hl, hp, rfl⟩, hs, rfl⟩
      · cases hc
  · rintro ⟨_, ⟨keyword, shape, value, segments, hk, hl, hp, rfl⟩, hs, hc⟩
    refine ⟨(keyword, shape), hk, ?_⟩
    dsimp only
    rw [hl]
    refine List.mem_filterMap.2 ⟨(segments, c.2), hp, ?_⟩
    rw [if_pos hs, ← hc]

theorem positions_object (ms : Members) (path : String) :
    positions path (.object ms) =
      (path, .object ms) :: (children ms path).flatMap fun c => positions c.1 c.2 := by
  rw [positions]
  conv_rhs => rw [← List.attach_map_subtype_val (children ms path), List.flatMap_map]

theorem positions_of_not_object (h : v.isObject = false) : positions path v = [(path, v)] := by
  cases v with
  | object ms => cases h
  | _ => rw [positions]; intro ms hms; cases hms

/-- There is nothing inside a schema that only refers to another one. -/
theorem positions_reference (path reference : String) :
    positions path (.object [("$ref", .string reference)]) =
      [(path, .object [("$ref", .string reference)])] := by
  rw [positions_object]
  rfl

theorem mem_positions_self (path : String) (v : Json) : (path, v) ∈ positions path v := by
  cases v with
  | object ms => rw [positions_object]; exact List.mem_cons_self
  | _ => rw [positions_of_not_object rfl]; exact List.mem_singleton_self _

/-- What holds of a schema and passes on to the schemas one level down holds of all schemas inside.
-/
theorem positions_induction {P : String → Json → Prop} (h : P path v)
    (hpart : ∀ p ms steps w, P p (.object ms) → Part ms steps w → w.isSchema = true →
      P (Pointer.build p steps) w) : ∀ c ∈ positions path v, P c.1 c.2 := by
  induction hn : sizeOf v using Nat.strongRecOn generalizing path v with
  | _ n ih =>
      cases v with
      | object ms =>
          rw [positions_object]
          rw [Json.object.sizeOf_spec] at hn
          intro c hc
          rcases List.mem_cons.1 hc with rfl | hc
          · exact h
          · obtain ⟨d, hd, hc⟩ := List.mem_flatMap.1 hc
            obtain ⟨steps, hp, hs, hpath⟩ := mem_children_iff.1 hd
            have hsize := sizeOf_children hd
            exact ih (sizeOf d.2) (by omega) (hpath ▸ hpart path ms steps d.2 h hp hs) rfl c hc
      | _ =>
          rw [positions_of_not_object rfl]
          intro c hc
          rw [List.mem_singleton.1 hc]
          exact h

/-- The schemas one level below a schema that is inside another one are inside it, too. -/
theorem mem_positions_of_part {p : String} (h : (p, .object ms) ∈ positions path v)
    (hp : Part ms steps w) (hs : w.isSchema = true) :
    (Pointer.build p steps, w) ∈ positions path v := by
  induction hn : sizeOf v using Nat.strongRecOn generalizing path v with
  | _ n ih =>
      cases v with
      | object ms' =>
          rw [positions_object] at h ⊢
          rw [Json.object.sizeOf_spec] at hn
          refine List.mem_cons_of_mem _ (List.mem_flatMap.2 ?_)
          rcases List.mem_cons.1 h with heq | h
          · obtain ⟨rfl, hobject⟩ := Prod.mk.inj heq
            obtain rfl := Json.object.inj hobject
            exact ⟨(Pointer.build p steps, w), mem_children_iff.2 ⟨steps, hp, hs, rfl⟩,
              mem_positions_self _ _⟩
          · obtain ⟨d, hd, h⟩ := List.mem_flatMap.1 h
            have hsize := sizeOf_children hd
            exact ⟨d, hd, ih (sizeOf d.2) (by omega) h rfl⟩
      | _ =>
          rw [positions_of_not_object rfl] at h
          cases (Prod.mk.inj (List.mem_singleton.1 h)).2

theorem Shape.mem_indexed {xs : List Json} {i : Nat} (h : xs[i]? = some v) (start : Nat) :
    ([toString (start + i)], v) ∈ Shape.indexed start xs := by
  induction xs generalizing start i with
  | nil => cases h
  | cons x rest ih =>
      cases i with
      | zero =>
          obtain rfl := Option.some.inj h
          exact List.mem_cons_self
      | succ i =>
          have hmem := ih h (start + 1)
          rw [Nat.add_assoc, Nat.add_comm 1 i] at hmem
          exact List.mem_cons_of_mem _ hmem

theorem Shape.of_mem_indexed {xs : List Json} {start : Nat} {segments : List String}
    (h : (segments, v) ∈ Shape.indexed start xs) :
    ∃ i, segments = [toString (start + i)] ∧ xs[i]? = some v := by
  induction xs generalizing start with
  | nil => cases h
  | cons x rest ih =>
      rcases List.mem_cons.1 h with h | h
      · obtain ⟨rfl, rfl⟩ := Prod.mk.inj h
        exact ⟨0, rfl, rfl⟩
      · obtain ⟨i, hi, hv⟩ := ih h
        exact ⟨i + 1, by rw [hi, Nat.add_assoc, Nat.add_comm 1 i], hv⟩

/-- The steps to a part of an object with one member a key lead to that part. -/
theorem Part.follow? (h : Part ms steps v) (hd : (Json.object ms).Distinct) :
    (Json.object ms).follow? steps = some v := by
  obtain ⟨keyword, shape, value, segments, -, hl, hp, rfl⟩ := h
  have hitems : ∀ {xs}, (segments, v) ∈ Shape.indexed 0 xs →
      (Json.array xs).follow? segments = some v := by
    intro xs h
    obtain ⟨i, rfl, hi⟩ := Shape.of_mem_indexed h
    rw [Json.follow?, Nat.zero_add, Json.child?_toString, hi]
    rfl
  have hself : (segments, v) ∈ [([], value)] → value.follow? segments = some v := by
    intro h
    obtain ⟨rfl, rfl⟩ := Prod.mk.inj (List.mem_singleton.1 h)
    rfl
  rw [Json.follow?, Json.child?, hl, Option.bind_some]
  unfold Shape.parts at hp
  split at hp
  · rename_i named
    obtain ⟨⟨key, x⟩, hm, heq⟩ := List.mem_map.1 hp
    obtain ⟨rfl, rfl⟩ := Prod.mk.inj heq
    have hkeys := (Json.distinct_object.1 (hd.lookup hl)).1
    rw [Json.follow?, Json.child?, Members.lookup_of_mem hkeys hm]
    rfl
  · exact hself hp
  · exact hitems hp
  · exact hitems hp
  · exact hself hp
  · cases hp

theorem Part.distinct (h : Part ms steps v) (hd : (Json.object ms).Distinct) : v.Distinct := by
  obtain ⟨keyword, shape, value, segments, -, hl, hp, rfl⟩ := h
  have hvalue := hd.lookup hl
  have hitems : ∀ {xs}, (segments, v) ∈ Shape.indexed 0 xs → v ∈ xs := by
    intro xs h
    obtain ⟨i, -, hi⟩ := Shape.of_mem_indexed h
    exact List.mem_of_getElem? hi
  unfold Shape.parts at hp
  split at hp
  · obtain ⟨m, hm, heq⟩ := List.mem_map.1 hp
    obtain ⟨-, rfl⟩ := Prod.mk.inj heq
    exact (Json.distinct_object.1 hvalue).2 m hm
  · exact (Prod.mk.inj (List.mem_singleton.1 hp)).2 ▸ hvalue
  · exact Json.distinct_array.1 hvalue v (hitems hp)
  · exact Json.distinct_array.1 hvalue v (hitems hp)
  · exact (Prod.mk.inj (List.mem_singleton.1 hp)).2 ▸ hvalue
  · cases hp

/-- A schema of a document with one member a key is the value at its pointer. -/
theorem at?_of_mem_positions {root : Json} (hr : root.at? path = some v) (hd : v.Distinct) :
    ∀ c ∈ positions path v, root.at? c.1 = some c.2 ∧ c.2.Distinct := by
  refine positions_induction (P := fun p w => root.at? p = some w ∧ w.Distinct) ⟨hr, hd⟩
    fun p ms steps w h hp _ => ⟨?_, hp.distinct h.2⟩
  rw [Json.at?_build h.1, hp.follow? h.2]

end Schema

end Typewright
