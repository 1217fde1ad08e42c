import Typewright.Proofs.Pointer
import Typewright.Proofs.Text.Content

/-!
# Places in a document

A place is the way from the top of a document to a value inside it. A pointer is a way to write a
place, and many texts may stand for one place, but each place has one pointer that is in the form of
`Pointer.build`: the segments of a text that stands for a place are those of its pointer
(`Json.Addresses.split_eq`), and two places of a document with the same segments are the same place
(`Json.eq_of_segments`).
-/

namespace Typewright

namespace Json

/-- One step from a value to one inside it: to a member of an object or to an item of an array. -/
inductive Step where
  | member (key : String)
  | item (index : Nat)
deriving DecidableEq, Repr

/-- The steps that lead from the top of a document to a value. -/
abbrev Place := List Step

/-- The segment that stands for a step: the key of a member, the number of an item in decimal. -/
def Step.segment : Step → String
  | .member key => key
  | .item index => toString index

/-- The value one step further inside. -/
def enter? : Json → Step → Option Json
  | .object ms, .member key => ms.lookup key
  | .array xs, .item index => xs[index]?
  | _, _ => none

/-- The value at a place. -/
def place? : Json → Place → Option Json
  | v, [] => some v
  | v, step :: rest => (v.enter? step).bind (·.place? rest)

/-- The pointer of a place. -/
def Place.pointer (place : Place) : String := Pointer.build "#" (place.map Step.segment)

/-- A text stands for a place of a document if it consists of one part behind a slash for each step,
and the part, read with its escapes, is the segment of the step. -/
def Addresses (root : Json) (text : List Char) (place : Place) : Prop :=
  ∃ parts : List (List Char), text = parts.flatMap ('/' :: ·) ∧ (∀ part ∈ parts, '/' ∉ part) ∧
    parts.map Pointer.unescapeChars = place.map (·.segment.toList) ∧ (root.place? place).isSome

variable {v w root : Json} {segment : String} {segments : List String} {step step' : Step}
  {place place' : Place} {text : List Char}

/-! ## Numbers of items -/

theorem toList_toString (n : Nat) : (toString n).toList = Nat.toDigits 10 n := by
  simp [Nat.toString_eq_repr]

theorem digitChar_value {c : Char} (hc : c.isDigit = true) :
    c.toNat - '0'.toNat < 10 ∧ (c.toNat - '0'.toNat).digitChar = c := by
  have hle : 48 ≤ c.toNat ∧ c.toNat ≤ 57 := by
    simpa [Char.isDigit, UInt32.le_iff_toNat_le] using hc
  change c.toNat - 48 < 10 ∧ (c.toNat - 48).digitChar = c
  refine ⟨by omega, Char.toNat_inj.1 ?_⟩
  rw [Nat.toNat_digitChar_of_lt_ten (by omega)]
  omega

/-- Further digits of a number that is not zero stand behind those it has. -/
theorem toDigits_append {cs : List Char} (hcs : cs.all Char.isDigit = true) {n : Nat} (hn : 0 < n) :
    Nat.toDigits 10 (cs.foldl (fun n c => n * 10 + (c.toNat - '0'.toNat)) n) =
      Nat.toDigits 10 n ++ cs := by
  induction cs generalizing n with
  | nil => exact (List.append_nil _).symm
  | cons c rest ih =>
      rw [List.all_cons, Bool.and_eq_true] at hcs
      obtain ⟨hlt, hchar⟩ := digitChar_value hcs.1
      have hdigits := Nat.toDigits_append_toDigits (b := 10) (by decide) hn hlt
      rw [Nat.toDigits_of_lt_base hlt, hchar, Nat.mul_comm] at hdigits
      rw [List.foldl_cons, ih hcs.2 (by omega), ← hdigits, List.append_assoc]
      rfl

/-- A segment leads to an item only if it is its number in decimal. -/
theorem eq_of_index? {i : Nat} (h : index? segment = some i) : segment = toString i := by
  refine String.toList_inj.1 ?_
  rw [toList_toString]
  unfold index? at h
  split at h
  · rename_i hzero
    obtain rfl := Option.some.inj h
    exact hzero
  · cases h
  · rename_i hzero hlead
    split at h
    · cases h
    · rename_i hdigits
      obtain rfl := Option.some.inj h
      cases hcs : segment.toList with
      | nil => simp [hcs] at hdigits
      | cons c cs =>
          have hne : c ≠ '0' := fun heq => hlead cs (heq ▸ hcs)
          have hall : c.isDigit = true ∧ cs.all Char.isDigit = true := by
            rw [hcs] at hdigits
            simpa using hdigits
          obtain ⟨hlt, hchar⟩ := digitChar_value hall.1
          have hpos : 0 < c.toNat - '0'.toNat := by
            refine Nat.pos_of_ne_zero fun hzero => hne ?_
            rw [← hchar, hzero]
            rfl
          rw [List.foldl_cons, Nat.zero_mul, Nat.zero_add, toDigits_append hall.2 hpos,
            Nat.toDigits_of_lt_base hlt, hchar]
          rfl

/-! ## Steps and segments -/

theorem child?_of_enter? (h : v.enter? step = some w) : v.child? step.segment = some w := by
  unfold enter? at h
  split at h
  · exact h
  · exact child?_toString.trans h
  · cases h

theorem exists_step (h : v.child? segment = some w) :
    ∃ step : Step, step.segment = segment ∧ v.enter? step = some w := by
  unfold child? at h
  split at h
  · exact ⟨.member segment, rfl, h⟩
  · obtain ⟨i, hi, hw⟩ := Option.bind_eq_some_iff.1 h
    exact ⟨.item i, (eq_of_index? hi).symm, hw⟩
  · cases h

/-- No two steps from a value have the same segment. -/
theorem step_inj (h : (v.enter? step).isSome) (h' : (v.enter? step').isSome)
    (heq : step.segment = step'.segment) : step = step' := by
  cases v with
  | object ms =>
      cases step with
      | member key =>
          cases step' with
          | member key' => exact congrArg Step.member heq
          | item => cases h'
      | item => cases h
  | array xs =>
      cases step with
      | member => cases h
      | item i =>
          cases step' with
          | member => cases h'
          | item j => 
              have hindex := congrArg index? heq
              rw [Step.segment, Step.segment, index?_toString, index?_toString] at hindex
              exact congrArg Step.item (Option.some.inj hindex)
  | _ => cases step <;> cases h

theorem follow?_of_place? (h : v.place? place = some w) :
    v.follow? (place.map Step.segment) = some w := by
  induction place generalizing v with
  | nil => exact h
  | cons step rest ih =>
      obtain ⟨x, hx, hw⟩ := Option.bind_eq_some_iff.1 h
      rw [List.map_cons, follow?, child?_of_enter? hx]
      exact ih hw

/-- The segments that lead to a value are those of a place. -/
theorem exists_place (h : v.follow? segments = some w) :
    ∃ place : Place, place.map Step.segment = segments ∧ v.place? place = some w := by
  induction segments generalizing v with
  | nil => exact ⟨[], rfl, h⟩
  | cons segment rest ih =>
      rw [follow?] at h
      obtain ⟨x, hx, hw⟩ := Option.bind_eq_some_iff.1 h
      obtain ⟨step, rfl, hstep⟩ := exists_step hx
      obtain ⟨place, rfl, hplace⟩ := ih hw
      refine ⟨step :: place, rfl, ?_⟩
      rw [place?, hstep]
      exact hplace

/-- Two places of a document with the same segments are the same. -/
theorem eq_of_segments (h : (v.place? place).isSome) (h' : (v.place? place').isSome)
    (heq : place.map Step.segment = place'.map Step.segment) : place = place' := by
  induction place generalizing v place' with
  | nil => exact (List.map_eq_nil_iff.1 heq.symm).symm
  | cons step rest ih =>
      cases place' with
      | nil => cases heq
      | cons step' rest' =>
          rw [List.map_cons, List.map_cons] at heq
          obtain ⟨hsegment, hrest⟩ := List.cons.inj heq
          obtain ⟨w, hw⟩ := Option.isSome_iff_exists.1 h
          obtain ⟨w', hw'⟩ := Option.isSome_iff_exists.1 h'
          obtain ⟨x, hx, hxw⟩ := Option.bind_eq_some_iff.1 hw
          obtain ⟨x', hx', hxw'⟩ := Option.bind_eq_some_iff.1 hw'
          obtain rfl := step_inj (by rw [hx]; rfl) (by rw [hx']; rfl) hsegment
          obtain rfl := Option.some.inj (hx.symm.trans hx')
          rw [ih (by rw [hxw]; rfl) (by rw [hxw']; rfl) hrest]

/-! ## Pointers and places -/

theorem at?_pointer (h : root.place? place = some v) : root.at? place.pointer = some v :=
  (at?_build rfl _).trans (follow?_of_place? h)

theorem split_slash (cs : List Char) :
    Pointer.split (String.ofList ('/' :: cs)) = Pointer.segments cs := by
  rw [Pointer.split, Pointer.body, String.toList_ofList]
  rfl

theorem pieces_parts {part : List Char} {parts : List (List Char)}
    (h : ∀ p ∈ part :: parts, '/' ∉ p) :
    Text.pieces (· == '/') (part ++ parts.flatMap ('/' :: ·)) = part :: parts := by
  have hpart : ∀ {p}, p ∈ part :: parts → Text.pieces (· == '/') p = [p] := fun hp =>
    Pointer.pieces_of_forall_not fun c hc => beq_false_of_ne fun heq => h _ hp (heq ▸ hc)
  induction parts generalizing part with
  | nil => simpa using hpart List.mem_cons_self
  | cons next rest ih =>
      rw [List.flatMap_cons, List.cons_append, Pointer.pieces_append_cons rfl,
        hpart List.mem_cons_self, ih (fun p hp => h p (List.mem_cons_of_mem _ hp))
          fun hp => hpart (List.mem_cons_of_mem _ hp)]
      rfl

/-- The segments of a text that stands for a place are those of the place. -/
theorem Addresses.split_eq (h : Addresses root text place) :
    Pointer.split (String.ofList text) = place.map Step.segment := by
  obtain ⟨parts, rfl, hslash, hsegments, -⟩ := h
  have hparts : parts.map (String.ofList ∘ Pointer.unescapeChars) = place.map Step.segment := by
    rw [← List.map_map, hsegments, List.map_map]
    exact List.map_congr_left fun step _ => String.ofList_toList
  rw [← hparts]
  cases parts with
  | nil => rfl
  | cons part rest =>
      rw [List.flatMap_cons, List.cons_append, split_slash, Pointer.segments, pieces_parts hslash]
      rfl

/-- A text stands for one place at most. -/
theorem Addresses.unique (h : Addresses root text place) (h' : Addresses root text place') :
    place = place' := by
  refine eq_of_segments (v := root) ?_ ?_ (h.split_eq.symm.trans h'.split_eq)
  · obtain ⟨_, -, -, -, hsome⟩ := h
    exact hsome
  · obtain ⟨_, -, -, -, hsome⟩ := h'
    exact hsome

theorem parts_pieces (cs : List Char) :
    (Text.pieces (· == '/') cs).flatMap ('/' :: ·) = '/' :: cs := by
  induction cs with
  | nil => rfl
  | cons c rest ih =>
      rw [Text.pieces]
      split
      · rename_i hslash
        rw [List.flatMap_cons, ih, eq_of_beq hslash]
        rfl
      · split
        · rename_i hnil
          exact absurd hnil (Pointer.pieces_ne_nil _ rest)
        · rename_i piece more hpieces
          rw [hpieces, List.flatMap_cons] at ih
          rw [List.flatMap_cons]
          exact congrArg (fun cs => '/' :: c :: cs) (List.cons.inj ih).2

/-- A text whose segments lead to a value stands for the place of that value. -/
theorem exists_addresses (htext : text = [] ∨ ∃ rest, text = '/' :: rest)
    (h : root.follow? (Pointer.split (String.ofList text)) = some v) :
    ∃ place : Place, Addresses root text place ∧
      place.map Step.segment = Pointer.split (String.ofList text) ∧ root.place? place = some v := by
  obtain ⟨place, hsegments, hplace⟩ := exists_place h
  refine ⟨place, ?_, hsegments, hplace⟩
  have hsome : (root.place? place).isSome := by rw [hplace]; rfl
  rcases htext with rfl | ⟨rest, rfl⟩
  · rw [List.map_eq_nil_iff.1 hsegments] at hsome ⊢
    exact ⟨[], rfl, fun part hp => absurd hp List.not_mem_nil, rfl, hsome⟩
  · refine ⟨Text.pieces (· == '/') rest, (parts_pieces rest).symm, fun part hp hmem => ?_, ?_,
      hsome⟩
    · simpa using Text.not_of_mem_pieces hp _ hmem
    · rw [split_slash, Pointer.segments] at hsegments
      have hparts := congrArg (List.map String.toList) hsegments
      rw [List.map_map, List.map_map] at hparts
      exact (hparts.trans (List.map_congr_left fun part _ => String.toList_ofList)).symm

end Json

end Typewright
