import Typewright.Proofs.Schema.Positions
import Typewright.Schema.Fault
import Typewright.Schema.Normal

/-!
# Normal form and the schemas inside

Normal form changes each schema by itself: the schemas of a document in normal form are those of the
document, each in normal form, at the same pointers, and `true` where an object schema was silent
about further properties. It leaves all members alone but those that hold schemas and those that a
rule is about, so a root without faults has none in normal form.
-/

namespace Typewright.Schema

open Members (keys)

variable {ms : Members} {path : String} {steps : List String} {v w : Json}

/-! ## Normal form of one schema -/

/-- The value of a member in normal form. -/
def normalizeValue (key : String) (v : Json) : Json :=
  match shape? key with
  | none => v
  | some shape => normalizeUnder shape v

theorem normalizeEach_eq (ms : Members) :
    normalizeEach ms = ms.map fun m => (m.1, normalizeValue m.1 m.2) := by
  induction ms with
  | nil => rw [normalizeEach, List.map_nil]
  | cons m rest ih =>
      rw [normalizeEach, ih, List.map_cons]
      rfl

theorem normalizeNamed_eq (ms : Members) :
    normalizeNamed ms = ms.map fun m => (m.1, normalizeFragment m.2) := by
  induction ms with
  | nil => rw [normalizeNamed, List.map_nil]
  | cons m rest ih => rw [normalizeNamed, ih, List.map_cons]

theorem normalizeItems_eq (xs : List Json) : normalizeItems xs = xs.map normalizeFragment := by
  induction xs with
  | nil => rw [normalizeItems, List.map_nil]
  | cons x rest ih => rw [normalizeItems, ih, List.map_cons]

/-- The members of an object schema in normal form. -/
def normalMembers (ms : Members) : Members := settle (normalizeMembers (normalizeEach ms))

theorem normalizeFragment_object (ms : Members) :
    normalizeFragment (.object ms) = .object (normalMembers ms) := by
  rw [normalizeFragment, normalMembers]

theorem normalizeFragment_of_not_object (h : v.isObject = false) : normalizeFragment v = v := by
  cases v with
  | object ms => cases h
  | _ => rw [normalizeFragment]; intro ms hms; cases hms

theorem isSchema_normalizeFragment (v : Json) : (normalizeFragment v).isSchema = v.isSchema := by
  cases v with
  | object ms => simp only [normalizeFragment_object, Json.isSchema]
  | _ => rw [normalizeFragment_of_not_object rfl]

theorem lookup_normalizeEach (ms : Members) (key : String) :
    (normalizeEach ms).lookup key = (ms.lookup key).map (normalizeValue key) := by
  rw [normalizeEach_eq]
  induction ms with
  | nil => rfl
  | cons m rest ih =>
      rw [List.map_cons, List.lookup_cons, List.lookup_cons]
      split
      · rename_i heq
        rw [eq_of_beq heq]
        rfl
      · exact ih

theorem keys_normalizeEach (ms : Members) : keys (normalizeEach ms) = keys ms := by
  rw [normalizeEach_eq, keys, List.map_map]
  rfl

/-- A keyword moved to the end. -/
def moveLast (ms : Members) (keyword : String) : Members :=
  (ms.lookup keyword).elim ms fun v => Members.put (Members.remove ms keyword) keyword v

theorem settle_eq (ms : Members) : settle ms = keywords.foldl (fun ms e => moveLast ms e.1) ms := by
  unfold settle
  congr 1
  funext ms e
  obtain ⟨keyword, shape⟩ := e
  dsimp only [moveLast]
  cases ms.lookup keyword <;> rfl

theorem perm_moveLast (hk : (keys ms).Nodup) (keyword : String) : (moveLast ms keyword).Perm ms := by
  rw [moveLast]
  cases hl : ms.lookup keyword with
  | none => exact .refl ms
  | some value => exact Members.perm_put_remove hk hl

theorem perm_settle (hk : (keys ms).Nodup) : (settle ms).Perm ms := by
  rw [settle_eq]
  refine List.foldlRecOn (motive := fun ns => List.Perm ns ms) keywords _ (.refl ms)
    fun ns hns e _ => ?_
  exact (perm_moveLast ((hns.map _).nodup_iff.2 hk) e.1).trans hns

theorem nodup_keys_normalizeMembers (hk : (keys ms).Nodup) :
    (keys (normalizeMembers ms)).Nodup := by
  have hunwrap : (keys (unwrapType ms)).Nodup := by
    unfold unwrapType
    split
    · exact Members.nodup_keys_put hk _ _
    · exact hk
  have hlist : (keys (listRequired (unwrapType ms))).Nodup := by
    unfold listRequired
    split
    · exact Members.nodup_keys_put hunwrap _ _
    · exact hunwrap
  unfold normalizeMembers
  split
  · exact hk
  · unfold openObject
    dsimp only
    split
    · exact Members.nodup_keys_put hlist _ _
    · exact hlist

theorem distinct_put {key : String} (h : ∀ m ∈ ms, m.2.Distinct) (hv : v.Distinct) :
    ∀ m ∈ Members.put ms key v, m.2.Distinct := by
  intro m hm
  rcases Members.mem_put hm with rfl | hm
  · exact hv
  · exact h m hm

theorem distinct_normalizeMembers (h : ∀ m ∈ ms, m.2.Distinct) :
    ∀ m ∈ normalizeMembers ms, m.2.Distinct := by
  have hunwrap : ∀ m ∈ unwrapType ms, m.2.Distinct := by
    unfold unwrapType
    split
    · rename_i single hl
      exact distinct_put h (Json.distinct_array.1 (h _ (mem_of_lookup hl)) _ (List.mem_singleton_self _))
    · exact h
  have hlist : ∀ m ∈ listRequired (unwrapType ms), m.2.Distinct := by
    unfold listRequired
    split
    · exact distinct_put hunwrap trivial
    · exact hunwrap
  unfold normalizeMembers
  split
  · exact h
  · unfold openObject
    dsimp only
    split
    · exact distinct_put hlist trivial
    · exact hlist

/-- The rules for one schema keep one member a key. -/
theorem distinct_settle (hk : (keys ms).Nodup) (h : ∀ m ∈ normalizeEach ms, m.2.Distinct) :
    (Json.object (settle (normalizeMembers (normalizeEach ms)))).Distinct := by
  have hkeys : (keys (normalizeMembers (normalizeEach ms))).Nodup :=
    nodup_keys_normalizeMembers ((keys_normalizeEach ms).symm ▸ hk)
  have hperm := perm_settle hkeys
  exact Json.distinct_object.2 ⟨((hperm.map _).nodup_iff).2 hkeys, fun m hm =>
    distinct_normalizeMembers h m (hperm.mem_iff.1 hm)⟩

mutual
/-- Normal form keeps one member a key. -/
theorem distinct_normalizeFragment : (v : Json) → v.Distinct → (normalizeFragment v).Distinct
  | .object ms, h => by
      obtain ⟨hk, hms⟩ := Json.distinct_object.1 h
      rw [normalizeFragment_object, normalMembers]
      exact distinct_settle hk (distinct_normalizeEach ms hms)
  | .array xs, h => by rwa [normalizeFragment_of_not_object rfl]
  | .null, h | .bool _, h | .number _, h | .string _, h => by
      rwa [normalizeFragment_of_not_object rfl]

theorem distinct_normalizeEach : (ms : List (String × Json)) → (∀ m ∈ ms, m.2.Distinct) →
    ∀ m ∈ normalizeEach ms, m.2.Distinct
  | [], _ => by simp [normalizeEach]
  | (k, v) :: rest, h => by
      have hv := h _ List.mem_cons_self
      rw [normalizeEach]
      intro m hm
      rcases List.mem_cons.1 hm with rfl | hm
      · dsimp only
        split
        · exact hv
        · exact distinct_normalizeUnder _ v hv
      · exact distinct_normalizeEach rest (fun n hn => h n (List.mem_cons_of_mem _ hn)) m hm

theorem distinct_normalizeUnder (shape : Shape) : (v : Json) → v.Distinct →
    (normalizeUnder shape v).Distinct
  | .object ms, h => by
      obtain ⟨hk, hms⟩ := Json.distinct_object.1 h
      cases shape with
      | byName =>
          rw [normalizeUnder, Json.distinct_object]
          refine ⟨?_, distinct_normalizeNamed ms hms⟩
          rwa [normalizeNamed_eq, keys, List.map_map]
      | list => rwa [normalizeUnder]
      | one | oneOrList =>
          rw [normalizeUnder]
          exact distinct_settle hk (distinct_normalizeEach ms hms)
  | .array xs, h => by
      have hxs := Json.distinct_array.1 h
      cases shape with
      | list | oneOrList =>
          rw [normalizeUnder, Json.distinct_array]
          exact distinct_normalizeItems xs hxs
      | byName | one => rwa [normalizeUnder]
  | .null, h | .bool _, h | .number _, h | .string _, h => by simpa only [normalizeUnder] using h

theorem distinct_normalizeNamed : (ms : List (String × Json)) → (∀ m ∈ ms, m.2.Distinct) →
    ∀ m ∈ normalizeNamed ms, m.2.Distinct
  | [], _ => by simp [normalizeNamed]
  | (k, v) :: rest, h => by
      have hv := h _ List.mem_cons_self
      rw [normalizeNamed]
      intro m hm
      rcases List.mem_cons.1 hm with rfl | hm
      · exact distinct_normalizeFragment v hv
      · exact distinct_normalizeNamed rest (fun n hn => h n (List.mem_cons_of_mem _ hn)) m hm

theorem distinct_normalizeItems : (xs : List Json) → (∀ v ∈ xs, v.Distinct) →
    ∀ v ∈ normalizeItems xs, v.Distinct
  | [], _ => by simp [normalizeItems]
  | x :: rest, h => by
      have hx := h _ List.mem_cons_self
      rw [normalizeItems]
      intro v hv
      rcases List.mem_cons.1 hv with rfl | hv
      · exact distinct_normalizeFragment x hx
      · exact distinct_normalizeItems rest (fun n hn => h n (List.mem_cons_of_mem _ hn)) v hv
end

/-- The members that the rules for one schema change. -/
def ruled : List String := ["type", "required", "additionalProperties"]

theorem lookup_normalizeMembers {key : String} (h : key ∉ ruled) :
    (normalizeMembers ms).lookup key = ms.lookup key := by
  have htype : key ≠ "type" := fun heq => h (heq ▸ by decide)
  have hrequired : key ≠ "required" := fun heq => h (heq ▸ by decide)
  have hfurther : key ≠ "additionalProperties" := fun heq => h (heq ▸ by decide)
  have hunwrap : (unwrapType ms).lookup key = ms.lookup key := by
    unfold unwrapType
    split
    · exact Members.lookup_put_of_ne htype
    · rfl
  have hlist : (listRequired (unwrapType ms)).lookup key = ms.lookup key := by
    unfold listRequired
    split
    · exact (Members.lookup_put_of_ne hrequired).trans hunwrap
    · exact hunwrap
  unfold normalizeMembers
  split
  · rfl
  · unfold openObject
    dsimp only
    split
    · exact (Members.lookup_put_of_ne hfurther).trans hlist
    · exact hlist

/-- Only an object schema that is silent about further properties gets a say on them. -/
theorem lookup_further_normalizeMembers (ms : Members) :
    (normalizeMembers ms).lookup "additionalProperties" = ms.lookup "additionalProperties" ∨
      (ms.lookup "additionalProperties" = none ∧
        (normalizeMembers ms).lookup "additionalProperties" = some (.bool true)) := by
  have hlist : (listRequired (unwrapType ms)).lookup "additionalProperties" =
      ms.lookup "additionalProperties" := by
    unfold listRequired
    split
    · refine (Members.lookup_put_of_ne (by decide)).trans ?_
      unfold unwrapType
      split
      · exact Members.lookup_put_of_ne (by decide)
      · rfl
    · unfold unwrapType
      split
      · exact Members.lookup_put_of_ne (by decide)
      · rfl
  unfold normalizeMembers
  split
  · exact .inl rfl
  · unfold openObject
    dsimp only
    split
    · rename_i hopen
      refine .inr ⟨?_, Members.lookup_put_self _ _ _⟩
      have hhas : Members.has (listRequired (unwrapType ms)) "additionalProperties" = false := by
        simp only [Bool.and_eq_true, Bool.not_eq_true'] at hopen
        exact hopen.1.2
      rwa [Members.has, hlist, Option.isSome_eq_false_iff, Option.isNone_iff_eq_none] at hhas
    · exact .inl hlist

theorem lookup_settle (hd : (Json.object ms).Distinct) (key : String) :
    (normalMembers ms).lookup key = (normalizeMembers (normalizeEach ms)).lookup key := by
  have hk : (keys (normalizeMembers (normalizeEach ms))).Nodup :=
    nodup_keys_normalizeMembers ((keys_normalizeEach ms).symm ▸ (Json.distinct_object.1 hd).1)
  exact Members.lookup_perm (perm_settle hk) (((perm_settle hk).map _).nodup_iff.2 hk) key

/-! ## Normal form of the parts -/

theorem shape?_of_mem {keyword : String} {shape : Shape} (h : (keyword, shape) ∈ keywords) :
    shape? keyword = some shape := by
  have hall : ∀ e ∈ keywords, shape? e.1 = some e.2 := by decide
  exact hall _ h

theorem not_mem_ruled {keyword : String} {shape : Shape} (h : (keyword, shape) ∈ keywords) :
    keyword ∉ ruled ∨ (keyword = "additionalProperties" ∧ shape = .one) := by
  have hall : ∀ e ∈ keywords, e.1 ∉ ruled ∨ (e.1 = "additionalProperties" ∧ e.2 = .one) := by
    decide
  exact hall _ h

theorem parts_normalizeUnder (shape : Shape) (v : Json) :
    shape.parts (normalizeUnder shape v) =
      (shape.parts v).map fun p => (p.1, normalizeFragment p.2) := by
  have hindexed : ∀ (xs : List Json) (start : Nat),
      Shape.indexed start (xs.map normalizeFragment) =
        (Shape.indexed start xs).map fun p => (p.1, normalizeFragment p.2) := by
    intro xs
    induction xs with
    | nil => exact fun _ => rfl
    | cons x rest ih =>
        intro start
        rw [List.map_cons, Shape.indexed, ih, Shape.indexed, List.map_cons]
  cases v with
  | object named =>
      cases shape <;> simp [normalizeUnder, Shape.parts, normalizeNamed_eq, normalizeFragment,
        Function.comp_def]
  | array xs =>
      have hself : normalizeFragment (.array xs) = .array xs := normalizeFragment_of_not_object rfl
      cases shape <;> simp [normalizeUnder, Shape.parts, normalizeItems_eq, hindexed, hself]
  | _ => cases shape <;> simp [normalizeUnder, Shape.parts, normalizeFragment]

theorem normalizeValue_of_mem {keyword : String} {shape : Shape} (h : (keyword, shape) ∈ keywords)
    (v : Json) : normalizeValue keyword v = normalizeUnder shape v := by
  rw [normalizeValue, shape?_of_mem h]

/-- A keyword that no rule is about holds the same, in normal form. -/
theorem lookup_normalMembers (hd : (Json.object ms).Distinct) {key : String} (h : key ∉ ruled) :
    (normalMembers ms).lookup key = (ms.lookup key).map (normalizeValue key) := by
  rw [lookup_settle hd, lookup_normalizeMembers h, lookup_normalizeEach]

/-- Each part is there in normal form. -/
theorem Part.normal (h : Part ms steps v) (hd : (Json.object ms).Distinct) :
    Part (normalMembers ms) steps (normalizeFragment v) := by
  obtain ⟨keyword, shape, value, segments, hk, hl, hp, rfl⟩ := h
  have hl' : (normalMembers ms).lookup keyword = some (normalizeUnder shape value) := by
    have hvalue : (ms.lookup keyword).map (normalizeValue keyword) =
        some (normalizeUnder shape value) := by
      rw [hl, Option.map_some, normalizeValue_of_mem hk]
    rcases not_mem_ruled hk with hrule | ⟨rfl, -⟩
    · rw [lookup_normalMembers hd hrule, hvalue]
    · rw [lookup_settle hd]
      rcases lookup_further_normalizeMembers (normalizeEach ms) with heq | ⟨hnone, -⟩
      · rw [heq, lookup_normalizeEach, hvalue]
      · rw [lookup_normalizeEach, hvalue] at hnone
        cases hnone
  refine ⟨keyword, shape, _, segments, hk, hl', ?_, rfl⟩
  rw [parts_normalizeUnder]
  exact List.mem_map_of_mem hp

/-- A part of an object schema in normal form is a part of the schema in normal form, or says that
further properties are allowed. -/
theorem Part.of_normal (h : Part (normalMembers ms) steps w) (hd : (Json.object ms).Distinct) :
    (∃ v, Part ms steps v ∧ w = normalizeFragment v) ∨ w = .bool true := by
  obtain ⟨keyword, shape, value, segments, hk, hl, hp, rfl⟩ := h
  have hold : ∀ {old}, ms.lookup keyword = some old → value = normalizeValue keyword old →
      ∃ v, Part ms (keyword :: segments) v ∧ w = normalizeFragment v := by
    intro old hold hvalue
    rw [hvalue, normalizeValue_of_mem hk, parts_normalizeUnder] at hp
    obtain ⟨p, hpart, heq⟩ := List.mem_map.1 hp
    obtain ⟨rfl, rfl⟩ := Prod.mk.inj heq
    exact ⟨p.2, ⟨keyword, shape, old, p.1, hk, hold, hpart, rfl⟩, rfl⟩
  have hmapped : (ms.lookup keyword).map (normalizeValue keyword) = some value →
      ∃ v, Part ms (keyword :: segments) v ∧ w = normalizeFragment v := by
    intro h
    obtain ⟨old, hl, heq⟩ := Option.map_eq_some_iff.1 h
    exact hold hl heq.symm
  rcases not_mem_ruled hk with hrule | ⟨rfl, rfl⟩
  · rw [lookup_normalMembers hd hrule] at hl
    exact .inl (hmapped hl)
  · rw [lookup_settle hd] at hl
    rcases lookup_further_normalizeMembers (normalizeEach ms) with heq | ⟨-, hopen⟩
    · rw [heq, lookup_normalizeEach] at hl
      exact .inl (hmapped hl)
    · obtain rfl := Option.some.inj (hopen.symm.trans hl)
      exact .inr (Prod.mk.inj (List.mem_singleton.1 hp)).2

/-! ## Normal form of a document -/

/-- Where a document has schemas, its normal form has them in normal form. -/
theorem mem_positions_normalizeFragment (hd : v.Distinct) :
    ∀ c ∈ positions path v,
      (c.1, normalizeFragment c.2) ∈ positions path (normalizeFragment v) ∧ c.2.Distinct := by
  refine positions_induction (P := fun p w => (p, normalizeFragment w) ∈
    positions path (normalizeFragment v) ∧ w.Distinct) ⟨mem_positions_self _ _, hd⟩
    fun p ms steps w h hp hs => ?_
  obtain ⟨hmem, hms⟩ := h
  rw [normalizeFragment_object] at hmem
  exact ⟨mem_positions_of_part hmem (hp.normal hms) ((isSchema_normalizeFragment w).trans hs),
    hp.distinct hms⟩

/-- The schemas of a document in normal form are those of the document, and some that say that
further properties are allowed. -/
theorem of_mem_positions_normalizeFragment (hd : v.Distinct) :
    ∀ c ∈ positions path (normalizeFragment v),
      (∃ w, (c.1, w) ∈ positions path v ∧ w.Distinct ∧ c.2 = normalizeFragment w) ∨
        c.2 = .bool true := by
  refine positions_induction (P := fun p w' => (∃ w, (p, w) ∈ positions path v ∧ w.Distinct ∧
    w' = normalizeFragment w) ∨ w' = .bool true) (.inl ⟨v, mem_positions_self _ _, hd, rfl⟩)
    fun p ms steps w h hp hs => ?_
  rcases h with ⟨old, hold, hdold, heq⟩ | heq
  · cases old with
    | object ms' =>
        rw [normalizeFragment_object] at heq
        rw [Json.object.inj heq] at hp
        refine (hp.of_normal hdold).imp (fun ⟨x, hx, hw⟩ => ⟨x, ?_, hx.distinct hdold, hw⟩) id
        exact mem_positions_of_part hold hx (by rw [← isSchema_normalizeFragment, ← hw, hs])
    | _ =>
        rw [normalizeFragment_of_not_object rfl] at heq
        cases heq
  · cases heq

/-! ## What normal form leaves alone -/

/-- Two values with the same members, those apart that hold schemas or that a rule may change. -/
def Alike (v w : Json) : Prop :=
  ∀ key, key ∉ "title" :: ruled → shape? key = none → v.member? key = w.member? key

theorem alike_object {ns : Members} : Alike (.object ms) (.object ns) ↔
    ∀ key, key ∉ "title" :: ruled → shape? key = none → ms.lookup key = ns.lookup key :=
  .rfl

theorem alike_normalizeFragment (hd : v.Distinct) : Alike (normalizeFragment v) v := by
  cases v with
  | object ms =>
      rw [normalizeFragment_object]
      refine alike_object.2 fun key hkey hshape => ?_
      rw [lookup_normalMembers hd fun h => hkey (List.mem_cons_of_mem _ h)]
      rw [show normalizeValue key = id from funext fun v => by rw [normalizeValue, hshape]; rfl]
      exact Option.map_id_apply
  | _ =>
      rw [normalizeFragment_of_not_object rfl]
      exact fun _ _ _ => rfl

theorem lookup_completeRoot (name : String) (ms : Members) {key : String}
    (hrequired : key ≠ "required") (htitle : key ≠ "title") :
    (completeRoot name ms).lookup key = ms.lookup key := by
  have hput : ∀ (b : Bool) (ms : Members) (other value), key ≠ other →
      (if b then ms else Members.put ms other value).lookup key = ms.lookup key := by
    intro b ms other value hne
    cases b
    · exact Members.lookup_put_of_ne hne
    · rfl
  unfold completeRoot
  split
  · rfl
  · dsimp only
    rw [hput _ _ _ _ htitle, hput _ _ _ _ hrequired]

theorem children_completeRoot (name : String) (ms : Members) (path : String) :
    children (completeRoot name ms) path = children ms path := by
  have hkeys : ∀ e ∈ keywords, e.1 ≠ "required" ∧ e.1 ≠ "title" := by decide
  refine List.flatMap_congr fun e he => ?_
  dsimp only
  rw [lookup_completeRoot name ms (hkeys e he).1 (hkeys e he).2]

theorem normalize_object (name : String) (ms : Members) :
    normalize name (.object ms) = .object (completeRoot name (normalMembers ms)) := by
  rw [normalize, normalizeFragment_object]

theorem normalize_of_not_object (name : String) (h : v.isObject = false) : normalize name v = v := by
  cases v with
  | object ms => cases h
  | _ => rw [normalize, normalizeFragment_of_not_object rfl]

theorem alike_normalize (name : String) (hd : v.Distinct) : Alike (normalize name v) v := by
  have halike := alike_normalizeFragment hd
  cases v with
  | object ms =>
      rw [normalizeFragment_object] at halike
      rw [normalize_object]
      refine alike_object.2 fun key hkey hshape => ?_
      have hrequired : key ≠ "required" := fun heq => hkey (by rw [heq]; decide)
      have htitle : key ≠ "title" := fun heq => hkey (by rw [heq]; exact List.mem_cons_self)
      rw [lookup_completeRoot name _ hrequired htitle]
      exact alike_object.1 halike key hkey hshape
  | _ =>
      rw [normalize_of_not_object name rfl]
      exact fun _ _ _ => rfl

theorem distinct_normalize (name : String) (h : v.Distinct) : (normalize name v).Distinct := by
  cases v with
  | object ms =>
      have hnormal := distinct_normalizeFragment _ h
      rw [normalizeFragment_object] at hnormal
      have hput : ∀ (b : Bool) {ns : Members} (key value), (Json.object ns).Distinct →
          value.Distinct → (Json.object (if b then ns else Members.put ns key value)).Distinct := by
        intro b ns key value hns hv
        obtain ⟨hk, hms⟩ := Json.distinct_object.1 hns
        cases b
        · exact Json.distinct_object.2 ⟨Members.nodup_keys_put hk _ _, distinct_put hms hv⟩
        · exact hns
      rw [normalize_object]
      unfold completeRoot
      split
      · exact hnormal
      · exact hput _ _ _ (hput _ _ _ hnormal trivial) trivial
  | _ => rwa [normalize_of_not_object name rfl]

/-- Where a root has schemas, its normal form has schemas, too. -/
theorem mem_positions_normalize (name : String) (hd : v.Distinct) {c : String × Json}
    (h : c ∈ positions path v) : ∃ w, (c.1, w) ∈ positions path (normalize name v) := by
  have hmem := (mem_positions_normalizeFragment hd c h).1
  cases v with
  | object ms =>
      rw [normalizeFragment_object, positions_object] at hmem
      rw [normalize_object, positions_object, children_completeRoot]
      rcases List.mem_cons.1 hmem with heq | hmem
      · rw [(Prod.mk.inj heq).1]
        exact ⟨_, List.mem_cons_self⟩
      · exact ⟨_, List.mem_cons_of_mem _ hmem⟩
  | _ =>
      rw [normalizeFragment_of_not_object rfl] at hmem
      rw [normalize_of_not_object name rfl]
      exact ⟨_, hmem⟩

/-- The schemas of a root in normal form are alike those of the root, or say that further properties
are allowed. -/
theorem of_mem_positions_normalize {name : String} {c : String × Json} (hd : v.Distinct)
    (h : c ∈ positions path (normalize name v)) :
    (∃ w, (c.1, w) ∈ positions path v ∧ Alike c.2 w) ∨ c.2 = .bool true := by
  have hold : c ∈ positions path (normalizeFragment v) →
      (∃ w, (c.1, w) ∈ positions path v ∧ Alike c.2 w) ∨ c.2 = .bool true := fun h =>
    (of_mem_positions_normalizeFragment hd c h).imp
      (fun ⟨w, hw, hdw, heq⟩ => ⟨w, hw, heq ▸ alike_normalizeFragment hdw⟩) id
  cases v with
  | object ms =>
      rw [normalize_object, positions_object, children_completeRoot] at h
      rcases List.mem_cons.1 h with rfl | h
      · have halike := alike_normalize name hd
        rw [normalize_object] at halike
        exact .inl ⟨.object ms, mem_positions_self _ _, halike⟩
      · refine hold ?_
        rw [normalizeFragment_object, positions_object]
        exact List.mem_cons_of_mem _ h
  | _ =>
      rw [normalize_of_not_object name rfl] at h
      exact hold (by rwa [normalizeFragment_of_not_object rfl])

theorem rulesBroken_congr (henum : v.member? "enum" = w.member? "enum")
    (hnames : v.member? "tsEnumNames" = w.member? "tsEnumNames") :
    rulesBroken v = rulesBroken w := by
  have hrules : ∀ x : Json, rulesBroken x =
      rulesBroken (.object ((x.members?).getD [])) := by
    intro x
    cases x <;> rfl
  have hmember : ∀ (x : Json) key, x.member? key = ((x.members?).getD []).lookup key := by
    intro x key
    cases x <;> rfl
  rw [hmember, hmember w] at henum hnames
  rw [hrules v, hrules w]
  simp only [rulesBroken, enumFaults, enumNamesFaults, henum, hnames]

theorem faults_eq_nil_iff {schema : Json} :
    faults schema = [] ↔ ∀ c ∈ positions "#" schema, rulesBroken c.2 = [] := by
  rw [faults, List.flatMap_eq_nil_iff]
  exact forall₂_congr fun c _ => List.map_eq_nil_iff

/-- A root without faults has none in normal form. -/
theorem faults_normalize {name : String} {schema : Json} (hd : schema.Distinct)
    (h : faults schema = []) : faults (normalize name schema) = [] := by
  rw [faults_eq_nil_iff] at h ⊢
  intro c hc
  rcases of_mem_positions_normalize hd hc with ⟨w, hw, halike⟩ | htrue
  · rw [rulesBroken_congr (halike "enum" (by decide) (by decide))
      (halike "tsEnumNames" (by decide) (by decide))]
    exact h _ hw
  · rw [htrue]
    rfl

end Typewright.Schema
