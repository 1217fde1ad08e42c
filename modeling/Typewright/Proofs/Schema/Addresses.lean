import Typewright.Proofs.Schema.Traversal

/-!
# Addresses in normal form

Normal form is what a traversal leaves that puts each schema inside in normal form. It moves keywords
to the end of their object and may add `additionalProperties`, but no address changes what stands
there: the value at the pointer of a schema is that schema in normal form (`addressed`).
-/

namespace Typewright.Schema

open Members (keys mapValues)

variable {ms : Members} {path : String} {v w : Json}

/-! ## Normal form as a traversal -/

theorem replace_normalizeFragment (shape : Shape) (v : Json) :
    shape.replace (fun _ => normalizeFragment) v = normalizeUnder shape v := by
  have hself : ∀ {segments} v, atObject (fun _ => normalizeFragment) segments v =
      normalizeFragment v := by
    intro segments v
    unfold atObject
    split
    · rfl
    · rename_i ho
      exact (normalizeFragment_of_not_object (by simpa using ho)).symm
  have hitems : ∀ xs : List Json, (xs.mapIdx fun i =>
      atObject (fun _ => normalizeFragment) [toString i]) = normalizeItems xs := fun xs =>
    List.ext_getElem? fun i => by
      rw [List.getElem?_mapIdx, normalizeItems_eq, List.getElem?_map]
      exact congrArg (Option.map · _) (funext hself)
  cases v with
  | object named =>
      cases shape with
      | byName =>
          rw [Shape.replace, normalizeUnder, normalizeNamed_eq]
          simp only [mapValues, hself]
      | list => rw [Shape.replace, normalizeUnder] <;> simp
      | one | oneOrList => rw [Shape.replace, hself, normalizeFragment, normalizeUnder] <;> simp
  | array xs =>
      cases shape with
      | byName => rw [Shape.replace, normalizeUnder] <;> simp
      | one => rw [Shape.replace, hself, normalizeFragment_of_not_object rfl, normalizeUnder]
      | list | oneOrList => rw [Shape.replace, hitems, normalizeUnder]
  | _ => cases shape <;> simp [Shape.replace, normalizeUnder, hself, normalizeFragment]

theorem normalizeEach_eq_mapValues (ms : Members) :
    normalizeEach ms = mapValues (replaceUnder keywords fun _ => normalizeFragment) ms := by
  rw [normalizeEach_eq, mapValues]
  refine List.map_congr_left fun m _ => congrArg (Prod.mk m.1) ?_
  rw [normalizeValue, replaceUnder, shape?]
  cases keywords.lookup m.1 with
  | none => rfl
  | some shape => exact (replace_normalizeFragment shape m.2).symm

/-- The rules for one schema change no member that holds schemas, so it does not matter whether they
come first. -/
theorem normalizeMembers_normalizeEach (ms : Members) :
    normalizeMembers (normalizeEach ms) = normalizeEach (normalizeMembers ms) := by
  have hput : ∀ (ms : Members) key v, normalizeValue key v = v →
      Members.put (normalizeEach ms) key v = normalizeEach (Members.put ms key v) := by
    intro ms key v hv
    have heq : ∀ ms, normalizeEach ms = mapValues normalizeValue ms := normalizeEach_eq
    rw [heq, heq, ← Members.put_mapValues, hv]
  have hhas : ∀ (ms : Members) key, Members.has (normalizeEach ms) key = Members.has ms key := by
    intro ms key
    rw [Members.has, Members.has, lookup_normalizeEach, Option.isSome_map]
  have hplain : ∀ (ms : Members) {key}, shape? key = none →
      (normalizeEach ms).lookup key = ms.lookup key := by
    intro ms key hshape
    rw [lookup_normalizeEach, show normalizeValue key = id from
      funext fun v => by rw [normalizeValue, hshape]; rfl, Option.map_id, id]
  have hunwrap : unwrapType (normalizeEach ms) = normalizeEach (unwrapType ms) := by
    unfold unwrapType
    rw [hplain ms rfl]
    split
    · exact hput ms "type" _ rfl
    · rfl
  have hlist : ∀ ms, listRequired (normalizeEach ms) = normalizeEach (listRequired ms) := by
    intro ms
    unfold listRequired
    rw [hplain ms rfl]
    split
    · exact hput ms "required" _ rfl
    · rfl
  have hopen : ∀ ms, openObject (normalizeEach ms) = normalizeEach (openObject ms) := by
    intro ms
    unfold openObject
    rw [hplain ms rfl, hhas, hhas, hhas]
    dsimp only
    split
    · exact hput ms "additionalProperties" _ rfl
    · rfl
  rw [normalizeMembers, normalizeMembers, hhas]
  split
  · rfl
  · rw [hunwrap, hlist, hopen]

/-- Normal form of an object: the rules for one schema, and then a traversal that puts the schemas
inside in normal form. -/
theorem traverseChildren_normalizeFragment {σ ε : Type} (hk : (keys ms).Nodup) (s : σ) :
    (traverseChildren (fun _ v => (pure (normalizeFragment v) : ExceptT ε (StateM σ) Json)) path
      (normalizeMembers ms)).run s = ((none, normalMembers ms), s) := by
  have hsucceeds : ∀ cs, Succeeds (fun _ v => (pure (normalizeFragment v) : ExceptT ε (StateM σ) Json))
      (fun _ => normalizeFragment) cs s s := by
    intro cs
    induction cs with
    | nil => exact .nil
    | cons c cs ih => exact .cons rfl ih
  have hkeywords : (keywords.map (·.1)).Nodup := by decide
  have hresult : resultAt (fun _ => normalizeFragment) path = fun _ => normalizeFragment := rfl
  have hrun := (traverseKeywords_makes hkeywords (nodup_keys_normalizeMembers hk) s).1 s
    (hsucceeds (callsOf keywords (normalizeMembers ms) path))
  rw [hresult, ← normalizeEach_eq_mapValues, ← normalizeMembers_normalizeEach, ← settle_eq] at hrun
  exact hrun

/-! ## Members in normal form -/

/-- An object schema that says nothing about further properties; a list with one type is that type. -/
structure IsSilent (ms : Members) : Prop where
  plain : "$ref" ∉ keys ms
  objectLike : ms.lookup "type" = some (.string "object") ∨
    ms.lookup "type" = some (.array [.string "object"]) ∨ "properties" ∈ keys ms
  further : "additionalProperties" ∉ keys ms
  pattern : "patternProperties" ∉ keys ms

theorem lookup_listRequired_of_ne {key : String} (h : key ≠ "required") :
    (listRequired ms).lookup key = ms.lookup key := by
  unfold listRequired
  split
  · exact Members.lookup_put_of_ne h
  · rfl

theorem lookup_unwrapType_of_ne {key : String} (h : key ≠ "type") :
    (unwrapType ms).lookup key = ms.lookup key := by
  unfold unwrapType
  split
  · exact Members.lookup_put_of_ne h
  · rfl

/-- The rules look for the type of an object behind a list with one entry. -/
theorem lookup_type_unwrapType : (unwrapType ms).lookup "type" = some (.string "object") ↔
    ms.lookup "type" = some (.string "object") ∨
      ms.lookup "type" = some (.array [.string "object"]) := by
  unfold unwrapType
  split
  · rename_i single hl
    rw [Members.lookup_put_self, hl]
    simp
  · rename_i hl
    exact ⟨.inl, fun h => h.resolve_right fun harray => hl _ harray⟩

/-- Exactly the silent object schemas get a say on further properties. -/
theorem lookup_further_of_silent (ms : Members) :
    (IsSilent ms → (normalizeMembers ms).lookup "additionalProperties" = some (.bool true)) ∧
      (¬ IsSilent ms → (normalizeMembers ms).lookup "additionalProperties" =
        ms.lookup "additionalProperties") := by
  have hrules : ∀ {key}, key ≠ "type" → key ≠ "required" →
      (listRequired (unwrapType ms)).lookup key = ms.lookup key := fun htype hrequired => by
    rw [lookup_listRequired_of_ne hrequired, lookup_unwrapType_of_ne htype]
  have hhas : ∀ {key}, key ≠ "type" → key ≠ "required" →
      (Members.has (listRequired (unwrapType ms)) key = true ↔ key ∈ keys ms) :=
    fun htype hrequired => by
      rw [Members.has, hrules htype hrequired, ← Members.has, Members.has_eq_true_iff]
  have hproperties := hhas (by decide : "properties" ≠ "type") (by decide)
  have hfurther := hhas (by decide : "additionalProperties" ≠ "type") (by decide)
  have hpattern := hhas (by decide : "patternProperties" ≠ "type") (by decide)
  have htype : (listRequired (unwrapType ms)).lookup "type" = (unwrapType ms).lookup "type" :=
    lookup_listRequired_of_ne (by decide)
  by_cases href : Members.has ms "$ref" = true
  · rw [normalizeMembers, if_pos href]
    exact ⟨fun h => absurd (Members.has_eq_true_iff.1 href) h.plain, fun _ => rfl⟩
  · rw [normalizeMembers, if_neg href, openObject]
    split
    · rename_i hopen
      simp only [Bool.and_eq_true, Bool.or_eq_true, beq_iff_eq, Bool.not_eq_true',
        Bool.eq_false_iff, ne_eq, htype, lookup_type_unwrapType, hproperties, hfurther, hpattern,
        or_assoc] at hopen
      obtain ⟨⟨hobject, hnone⟩, hnone'⟩ := hopen
      refine ⟨fun _ => Members.lookup_put_self _ _ _, fun h => absurd ?_ h⟩
      exact ⟨fun h => href (Members.has_eq_true_iff.2 h), hobject, hnone, hnone'⟩
    · rename_i hopen
      refine ⟨fun h => absurd ?_ hopen, fun _ => hrules (by decide) (by decide)⟩
      simp only [Bool.and_eq_true, Bool.or_eq_true, beq_iff_eq, Bool.not_eq_true',
        Bool.eq_false_iff, ne_eq, htype, lookup_type_unwrapType, hproperties, hfurther, hpattern,
        or_assoc]
      exact ⟨⟨h.objectLike, h.further⟩, h.pattern⟩

theorem mem_keys_iff_isSome {key : String} : key ∈ keys ms ↔ (ms.lookup key).isSome = true :=
  Members.has_eq_true_iff.symm

theorem keys_put_of_lookup {key : String} (h : ms.lookup key = some v) (w : Json) :
    keys (Members.put ms key w) = keys ms := by
  rw [Members.keys_put, if_pos (mem_keys_iff_isSome.2 (by rw [h]; rfl))]

theorem keys_unwrapType (ms : Members) : keys (unwrapType ms) = keys ms := by
  unfold unwrapType
  split
  · exact keys_put_of_lookup (by assumption) _
  · rfl

theorem keys_listRequired (ms : Members) : keys (listRequired ms) = keys ms := by
  unfold listRequired
  split
  · exact keys_put_of_lookup (by assumption) _
  · rfl

theorem mem_keys_normalizeMembers_of_ne {key : String} (h : key ≠ "additionalProperties") :
    key ∈ keys (normalizeMembers ms) ↔ key ∈ keys ms := by
  unfold normalizeMembers
  split
  · rfl
  · rw [← keys_unwrapType ms, ← keys_listRequired (unwrapType ms), mem_keys_iff_isSome,
      mem_keys_iff_isSome]
    unfold openObject
    dsimp only
    split
    · rw [Members.lookup_put_of_ne h]
    · rfl

/-- An object in normal form has the keys of the object, and `additionalProperties` if it was
silent. -/
theorem mem_keys_normalMembers (hd : (Json.object ms).Distinct) (key : String) :
    key ∈ keys (normalMembers ms) ↔
      key ∈ keys ms ∨ (key = "additionalProperties" ∧ IsSilent ms) := by
  rw [mem_keys_iff_isSome, lookup_settle hd, normalizeMembers_normalizeEach, lookup_normalizeEach,
    Option.isSome_map, ← mem_keys_iff_isSome]
  by_cases hkey : key = "additionalProperties"
  · subst hkey
    obtain ⟨hsilent, hsame⟩ := lookup_further_of_silent ms
    by_cases hs : IsSilent ms
    · rw [mem_keys_iff_isSome, hsilent hs]
      exact ⟨fun _ => .inr ⟨rfl, hs⟩, fun _ => rfl⟩
    · rw [mem_keys_iff_isSome, hsame hs, ← mem_keys_iff_isSome]
      exact ⟨.inl, fun h => h.resolve_right fun h => hs h.2⟩
  · rw [mem_keys_normalizeMembers_of_ne hkey]
    exact ⟨.inl, fun h => h.resolve_right fun h => hkey h.1⟩

/-! ## Schemas inside a document in normal form -/

/-- The pointer where the normal form of a document has `true` for further properties, below one of
its silent object schemas. -/
def Opens (d : Json) (pointer : String) : Prop :=
  ∃ path ms, (path, .object ms) ∈ positions "#" d ∧ IsSilent ms ∧
    pointer = Pointer.build path ["additionalProperties"]

/-- The part of an object in normal form for further properties, if the object was silent. -/
theorem part_further (hd : (Json.object ms).Distinct) (h : IsSilent ms) :
    Part (normalMembers ms) ["additionalProperties"] (.bool true) := by
  refine ⟨"additionalProperties", .one, .bool true, [], by decide, ?_, List.mem_cons_self, rfl⟩
  rw [lookup_settle hd, normalizeMembers_normalizeEach, lookup_normalizeEach,
    (lookup_further_of_silent ms).1 h]
  rfl

/-- A part of an object in normal form is a part of the object in normal form, or is there because
the object was silent. -/
theorem Part.of_normal_iff {steps : List String} (hd : (Json.object ms).Distinct) :
    Part (normalMembers ms) steps w ↔
      (∃ v, Part ms steps v ∧ w = normalizeFragment v) ∨
        (IsSilent ms ∧ steps = ["additionalProperties"] ∧ w = .bool true) := by
  constructor
  · rintro ⟨keyword, shape, value, segments, hk, hl, hp, rfl⟩
    rw [lookup_settle hd, normalizeMembers_normalizeEach, lookup_normalizeEach] at hl
    obtain ⟨old, hold, rfl⟩ := Option.map_eq_some_iff.1 hl
    rw [normalizeValue_of_mem hk, parts_normalizeUnder] at hp
    obtain ⟨⟨segments, part⟩, hpart, heq⟩ := List.mem_map.1 hp
    obtain ⟨rfl, rfl⟩ := Prod.mk.inj heq
    have hsame : ms.lookup keyword = some old →
        ∃ v, Part ms (keyword :: segments) v ∧ normalizeFragment part = normalizeFragment v :=
      fun hl => ⟨part, ⟨keyword, shape, old, segments, hk, hl, hpart, rfl⟩, rfl⟩
    rcases not_mem_ruled hk with hrule | ⟨rfl, rfl⟩
    · exact .inl (hsame (lookup_normalizeMembers hrule ▸ hold))
    · by_cases hs : IsSilent ms
      · obtain rfl := Option.some.inj (((lookup_further_of_silent ms).1 hs).symm.trans hold)
        obtain ⟨rfl, rfl⟩ := Prod.mk.inj (List.mem_singleton.1 hpart)
        exact .inr ⟨hs, rfl, normalizeFragment_of_not_object rfl⟩
      · exact .inl (hsame ((lookup_further_of_silent ms).2 hs ▸ hold))
  · rintro (⟨v, hv, rfl⟩ | ⟨hs, rfl, rfl⟩)
    · exact hv.normal hd
    · exact part_further hd hs

/-- The schemas of a document in normal form are those of the document in normal form, and `true`
where a silent object schema gets a say. -/
theorem mem_positions_normalizeFragment_iff {d : Json} (hd : d.Distinct) {c : String × Json} :
    c ∈ positions "#" (normalizeFragment d) ↔
      (∃ v, (c.1, v) ∈ positions "#" d ∧ c.2 = normalizeFragment v) ∨
        (Opens d c.1 ∧ c.2 = .bool true) := by
  constructor
  · intro hc
    have hself : (∃ v, ("#", v) ∈ positions "#" d ∧ v.Distinct ∧
        normalizeFragment d = normalizeFragment v) ∨
        (Opens d "#" ∧ normalizeFragment d = .bool true) :=
      .inl ⟨d, mem_positions_self _ _, hd, rfl⟩
    have hall := positions_induction
      (P := fun p w => (∃ v, (p, v) ∈ positions "#" d ∧ v.Distinct ∧ w = normalizeFragment v) ∨
        (Opens d p ∧ w = .bool true)) hself ?_ c hc
    · exact hall.imp_left fun ⟨v, hv, _, heq⟩ => ⟨v, hv, heq⟩
    · rintro p ns steps w (⟨v, hv, hdv, heq⟩ | ⟨-, heq⟩) hp hs
      · cases v with
        | object ms =>
            rw [normalizeFragment_object] at heq
            rw [Json.object.inj heq] at hp
            rcases (Part.of_normal_iff hdv).1 hp with ⟨x, hx, rfl⟩ | ⟨hsilent, rfl, rfl⟩
            · rw [isSchema_normalizeFragment] at hs
              exact .inl ⟨x, mem_positions_of_part hv hx hs, hx.distinct hdv, rfl⟩
            · exact .inr ⟨⟨p, ms, hv, hsilent, rfl⟩, rfl⟩
        | _ =>
            rw [normalizeFragment_of_not_object rfl] at heq
            cases heq
      · cases heq
  · obtain ⟨p, w⟩ := c
    rintro (⟨v, hv, rfl⟩ | ⟨⟨path, ms, hms, hs, rfl⟩, rfl⟩)
    · exact (mem_positions_normalizeFragment hd _ hv).1
    · obtain ⟨hmem, hdms⟩ := mem_positions_normalizeFragment hd _ hms
      rw [normalizeFragment_object] at hmem
      exact mem_positions_of_part hmem (part_further hdms hs) rfl

/-! ## Addresses -/

/-- The pointers of the schemas inside continue that of the document. -/
theorem exists_steps_of_mem_positions :
    ∀ c ∈ positions path v, ∃ steps, c.1 = Pointer.build path steps :=
  positions_induction (P := fun p _ => ∃ steps, p = Pointer.build path steps) ⟨[], rfl⟩
    fun p ms steps w ⟨first, hp⟩ _ _ => ⟨first ++ steps, by rw [hp, Pointer.build_append]⟩

/-- A schema inside an object is the object, or its pointer starts with a keyword. -/
theorem exists_keyword_of_mem_positions {c : String × Json} (h : c ∈ positions path (.object ms)) :
    c = (path, .object ms) ∨ ∃ keyword shape steps, (keyword, shape) ∈ keywords ∧
      c.1 = Pointer.build path (keyword :: steps) := by
  rw [positions_object] at h
  rcases List.mem_cons.1 h with h | h
  · exact .inl h
  · obtain ⟨d, hd, hc⟩ := List.mem_flatMap.1 h
    obtain ⟨first, ⟨keyword, shape, value, segments, hk, -, -, rfl⟩, -, hpointer⟩ :=
      mem_children_iff.1 hd
    obtain ⟨steps, hsteps⟩ := exists_steps_of_mem_positions c hc
    refine .inr ⟨keyword, shape, segments ++ steps, hk, ?_⟩
    rw [hsteps, hpointer, ← Pointer.build_append,
      List.cons_append]

/-- In the normal form of a root, the value at the pointer of a schema is that schema in normal form,
the rules for the root applied to the root alone. -/
theorem at?_normalize (name : String) {d : Json} (hd : d.Distinct) {c : String × Json}
    (hc : c ∈ positions "#" d) : (normalize name d).at? c.1 =
      some (if c.1 = "#" then normalize name c.2 else normalizeFragment c.2) := by
  have hself : ∀ v : Json, v.at? "#" = some v := fun _ => rfl
  have hvalue := (at?_of_mem_positions (hself _) (distinct_normalizeFragment d hd) _
    (mem_positions_normalizeFragment hd c hc).1).1
  cases d with
  | object ms =>
      rcases exists_keyword_of_mem_positions hc with rfl | ⟨keyword, shape, steps, hk, hpointer⟩
      · exact hself _
      · have hne : c.1 ≠ "#" := fun heq => by
          have := Pointer.build_injective (hpointer.symm.trans heq : _ = Pointer.build "#" [])
          cases this
        have hkeys : ∀ e ∈ keywords, e.1 ≠ "required" ∧ e.1 ≠ "title" := by decide
        obtain ⟨hrequired, htitle⟩ := hkeys _ hk
        rw [if_neg hne, ← hvalue, hpointer, Json.at?_build (hself _), Json.at?_build (hself _),
          normalize_object, normalizeFragment_object, Json.follow?, Json.follow?, Json.child?,
          Json.child?, lookup_completeRoot name _ hrequired htitle]
  | _ =>
      rw [positions_of_not_object rfl] at hc
      obtain rfl := List.mem_singleton.1 hc
      exact hself _

theorem isSchema_normalize (name : String) (v : Json) : (normalize name v).isSchema = v.isSchema := by
  cases v with
  | object ms => simp only [normalize_object, Json.isSchema]
  | _ => rw [normalize_of_not_object name rfl]

/-- What an address leads to in a document and in its normal form. -/
structure Addressed (d normal : Json) : Prop where
  /-- At the pointer of a schema stands its normal form. -/
  values : ∀ c ∈ positions "#" d,
    d.at? c.1 = some c.2 ∧ normal.at? c.1 = some (normalizeFragment c.2)
  /-- No schema is there that was not, but `true` below silent object schemas. -/
  positions : ∀ c, c ∈ positions "#" normal ↔
    (∃ v, (c.1, v) ∈ positions "#" d ∧ c.2 = normalizeFragment v) ∨
      (Opens d c.1 ∧ c.2 = .bool true)
  /-- No key is lost. -/
  keys : ∀ path ms, (path, .object ms) ∈ Schema.positions "#" d → ∃ ns,
    normal.at? path = some (.object ns) ∧ ∀ key, key ∈ keys ns ↔
      key ∈ Members.keys ms ∨ (key = "additionalProperties" ∧ IsSilent ms)
  /-- The entries of a map of schemas stay in order. -/
  entries : ∀ path ms keyword named, (path, .object ms) ∈ Schema.positions "#" d →
    (keyword, .byName) ∈ keywords → ms.lookup keyword = some (.object named) →
    normal.at? (Pointer.build path [keyword]) =
      some (.object (named.map fun m => (m.1, normalizeFragment m.2)))

theorem addressed {d : Json} (hd : d.Distinct) : Addressed d (normalizeFragment d) := by
  have hself : ∀ v : Json, v.at? "#" = some v := fun _ => rfl
  have hvalues : ∀ c ∈ positions "#" d, (normalizeFragment d).at? c.1 =
      some (normalizeFragment c.2) := fun c hc =>
    (at?_of_mem_positions (hself _) (distinct_normalizeFragment d hd) _
      (mem_positions_normalizeFragment hd c hc).1).1
  have hdistinct : ∀ c ∈ positions "#" d, c.2.Distinct := fun c hc =>
    (mem_positions_normalizeFragment hd c hc).2
  refine ⟨fun c hc => ⟨(at?_of_mem_positions (hself d) hd c hc).1, hvalues c hc⟩,
    fun c => mem_positions_normalizeFragment_iff hd, fun path ms hms => ?_,
    fun path ms keyword named hms hk hl => ?_⟩
  · refine ⟨normalMembers ms, ?_, mem_keys_normalMembers (hdistinct _ hms)⟩
    rw [hvalues _ hms, normalizeFragment_object]
  · have hat := hvalues _ hms
    rw [normalizeFragment_object] at hat
    have hrule : keyword ∉ ruled := (not_mem_ruled hk).resolve_right fun h => by cases h.2
    rw [Json.at?_build hat, Json.follow?, Json.child?, lookup_normalMembers (hdistinct _ hms) hrule,
      hl, Option.map_some, normalizeValue_of_mem hk, normalizeUnder, normalizeNamed_eq]
    rfl

end Typewright.Schema
