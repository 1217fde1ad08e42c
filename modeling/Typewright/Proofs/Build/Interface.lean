import Typewright.Proofs.Build.Branches
import Typewright.Proofs.TypeGraph.Member

/-!
# The body of an interface

Properties, patterns, definitions and an index signature become members of an interface, and some of
them are never written. What is written in the body is the properties of the schema, in order, and
then at most one index signature (`DescribesInterface.exists_written`).
-/

namespace Typewright

/-- Whether the interface of an object schema has an index signature, for the other properties that
the schema allows or for its only pattern. -/
def Schema.hasIndex (ms : Members) : Bool :=
  ms.lookup "additionalProperties" != some (.bool false) ||
    Build.singlePattern ms (Build.namedMembers ms "patternProperties")

namespace Build

variable {ctx : BuildContext} {s : Builder} {id : Fragment} {ms : Members} {schema : Json}
  {members : List InterfaceMember} {supers : List NodeId}

/-! ## Members -/

/-- The index signature of an interface, with the node of its type. -/
def indexMember (node : NodeId) : InterfaceMember := { key := indexSignature, node, required := true }

/-- The member for a property of an object schema. -/
def propertyMember (ms : Members) (property : String × NodeId) : InterfaceMember :=
  { key := property.1, node := property.2, required := property.1 ∈ requiredKeys ms }

theorem FindsEach.keys_eq {keyword : String} {found : List (String × NodeId)}
    (h : FindsEach ctx s id ms keyword found) :
    found.map (·.1) = Members.keys (namedMembers ms keyword) := by
  unfold FindsEach at h
  unfold namedMembers
  split at h
  · rename_i named hl
    rw [hl]
    show found.map (·.1) = named.map (·.1)
    clear hl
    induction h with
    | nil => rfl
    | cons hfirst _ ih => rw [List.map_cons, List.map_cons, hfirst.1, ih]
  · rename_i hnone
    rw [h]
    cases hl : ms.lookup keyword with
    | none => rfl
    | some v =>
        cases v with
        | object named => exact absurd hl (hnone named)
        | _ => rfl

/-- A pattern that is the index signature of an interface is its only one. -/
theorem FindsIndex.eq_nil {index : List InterfaceMember} (h : FindsIndex ctx s id ms index)
    (hsingle : singlePattern ms (namedMembers ms "patternProperties") = true) : index = [] := by
  unfold FindsIndex at h
  split at h
  · exact h
  · rename_i hl
    simp [singlePattern, hl] at hsingle
  · rwa [if_pos hsingle] at h

/-- Without such a pattern there is an index signature unless further properties are refused. -/
theorem FindsIndex.exists_eq {index : List InterfaceMember} (h : FindsIndex ctx s id ms index)
    (hsingle : singlePattern ms (namedMembers ms "patternProperties") = false) :
    ∃ node, index =
      if Schema.hasIndex ms then [indexMember node] else [] := by
  unfold FindsIndex at h
  unfold Schema.hasIndex
  rw [hsingle, Bool.or_false]
  split at h
  · rename_i hl
    exact ⟨0, by rw [h, hl]; rfl⟩
  · rename_i hl
    obtain ⟨node, -, heq⟩ := h
    exact ⟨node, by rw [heq, hl]; rfl⟩
  · rename_i hrefused hfurther
    rw [if_neg (by simp [hsingle])] at h
    obtain ⟨node, -, heq⟩ := h
    exact ⟨node, by rw [heq, if_pos (bne_iff_ne.2 hrefused)]; rfl⟩

/-- Properties are written, a pattern only if it is the index signature, and definitions are not. -/
theorem filter_interfaceMembers (ms : Members) (properties patterns definitions : List (String × NodeId))
    (index : List InterfaceMember) :
    (interfaceMembers ms properties patterns definitions index).filter (·.isWritten) =
      properties.map (propertyMember ms) ++
      (if singlePattern ms (namedMembers ms "patternProperties") then
        patterns.map fun p => indexMember p.2 else []) ++ index.filter (·.isWritten) := by
  unfold interfaceMembers
  cases hsingle : singlePattern ms (namedMembers ms "patternProperties") <;>
    simp [List.filter_map, Function.comp_def, InterfaceMember.isWritten, indexMember, propertyMember]

/-- The written members of an interface are the properties of its schema and then the index signature,
which is required. -/
theorem DescribesInterface.exists_written
    (h : DescribesInterface ctx s id ms (.interface members supers)) :
    ∃ properties node, properties.map (·.key) = Members.keys (namedMembers ms "properties") ∧
      members.filter (·.isWritten) =
        properties ++ if Schema.hasIndex ms then [indexMember node] else [] := by
  obtain ⟨properties, patterns, definitions, defs, index, supers', hkind, hproperties, hpatterns, -,
    -, hindex, -⟩ := h
  obtain ⟨rfl, rfl⟩ := Kind.interface.inj hkind
  have hkeys : (properties.map (propertyMember ms)).map (·.key) =
      Members.keys (namedMembers ms "properties") := by
    rw [← hproperties.keys_eq, List.map_map]
    rfl
  rw [filter_interfaceMembers]
  cases hsingle : singlePattern ms (namedMembers ms "patternProperties") with
  | true =>
      -- there is one pattern and no further index signature
      obtain rfl := hindex.eq_nil hsingle
      have hhas : Schema.hasIndex ms = true := by simp [Schema.hasIndex, hsingle]
      have hlength : patterns.length = 1 := by
        have hlength := congrArg List.length hpatterns.keys_eq
        rw [List.length_map, Members.keys, List.length_map] at hlength
        exact hlength.trans (eq_of_beq (Bool.and_eq_true_iff.1 hsingle).1)
      obtain ⟨p, rfl⟩ := List.length_eq_one_iff.1 hlength
      exact ⟨_, p.2, hkeys, by simp [hhas]⟩
  | false =>
      obtain ⟨node, hnode⟩ := hindex.exists_eq hsingle
      refine ⟨_, node, hkeys, ?_⟩
      rw [hnode]
      cases Schema.hasIndex ms <;> simp [InterfaceMember.isWritten, indexMember]

/-- An interface stands for an object schema. -/
theorem Describes.interface (h : Describes ctx s id schema (.interface members supers)) :
    ∃ ms, schema = .object ms ∧
      Schema.form ctx.options.unreachableDefinitions id.variant schema = .interface ms ∧
      DescribesInterface ctx s id ms (.interface members supers) := by
  rcases h.cases with ⟨ms, hform, hinterface⟩ | ⟨_, -, henum⟩ | ⟨hkind, -, -⟩
  · rcases Schema.exists_members_of_form _ hform with ⟨_, rfl, rfl⟩ | hf | hf | hf
    · exact ⟨ms, rfl, hform, hinterface⟩
    all_goals cases hf
  · rcases henum.enum_or_union with ⟨_, hkind⟩ | ⟨_, hkind⟩ <;> cases hkind
  · exact absurd rfl (hkind members supers)

/-! ## Runs -/

section Runs

variable {path : List Fragment} {site : Fragment} {key : Option String} {isRoot : Bool} {kind : Kind}
  {done : NodeId → Builder → Prop} {failed : CompileError → Builder → Prop}

/-- The visit of a schema without parts and without hint adds a node of its kind. -/
theorem ends_visit_leaf (hr : ctx.schemas.resolve site = .ok (.fragment site))
    (hl : s.processed.lookup site = none) (hp : site ∉ path)
    (hh : nameHint ctx site schema key isRoot = none) (hv : site.variant ∈ Schema.variants schema)
    (hparts : partsOf ctx (site :: path) site schema none key
      (Schema.form ctx.options.unreachableDefinitions site.variant schema) = pure kind)
    (hneeds : s.graph.size ∉ s.needsName) :
    Ends (visit ctx path site schema key isRoot) s done failed ↔ done s.graph.size { s with
      graph := s.graph.reserve.2.fill s.graph.size { kind, key, comment := description site schema }
      processed := (site, s.graph.size) :: s.processed
      inProgress := (s.graph.size :: s.inProgress).filter (· != s.graph.size) } := by
  rw [ends_visit_new hr hl hp, ends_build_unnamed hh hv, parts_eq, hparts, ends_pure]
  refine ends_finishName_of_not_mem ?_
  exact hneeds

/-- The interface of an object schema without patterns, definitions and super types. -/
theorem interface_eq {parent : String}
    (hnone : ∀ keyword ∈ ["patternProperties", "definitions", "$defs", "tsExtends"],
      ms.lookup keyword = none) :
    interface ctx path id ms parent = (do
      let properties ← visitEach ctx path id ms "properties" fun _ => none
      let index ← visitIndex ctx path id ms
      return .interface (interfaceMembers ms properties [] [] index) []) := by
  have heach : ∀ keyword note, keyword ∈ ["patternProperties", "definitions", "$defs"] →
      visitEach ctx path id ms keyword note = pure [] := by
    intro keyword note hmem
    have hl := hnone keyword (List.mem_append_left ["tsExtends"] hmem)
    rw [visitEach]
    split
    · rename_i named hsome
      rw [hl] at hsome
      cases hsome
    · rfl
  have hdefinitions : ∀ keyword, keyword ∈ ["patternProperties", "definitions", "$defs"] →
      visitDefinitions ctx path id ms keyword parent = pure [] := by
    intro keyword hmem
    rw [visitDefinitions]
    split
    · exact heach keyword _ hmem
    · rfl
  have hextends : visitExtends ctx path id ms = pure [] := by
    have hl := hnone "tsExtends" (by decide)
    rw [visitExtends]
    split
    · rfl
    all_goals
      rename_i hsome
      rw [hl] at hsome
      cases hsome
  rw [interface]
  simp only [heach "patternProperties" _ (by decide), hdefinitions "definitions" (by decide),
    hdefinitions "$defs" (by decide), hextends, pure_bind, List.append_nil]

/-! ## Single schemas -/

/-- The build of an object schema that is the only document, in normal form. -/
def objectContext (name : String) (ms : Members) : BuildContext where
  schemas := mixedGraph (.object ms)
  rootName := name
  options := { bannerComment := "" }

/-- The state in which the parts of the only document are visited. -/
def rootBuilder (name : String) : Builder where
  graph := ⟨#[none], 0⟩
  processed := [(.root, 0)]
  usedNames := [name]
  inProgress := [0]

/-- The build of the only document comes down to its parts. -/
theorem ends_objectContext {name : String}
    (hhint : nameHint (objectContext name ms) .root (.object ms) none true = some name)
    (hfresh : Identifier.fresh name [] = name)
    (hdescription : description .root (.object ms) = none) :
    Ends (fragment (objectContext name ms) .root none true) {} done failed ↔
      Ends (partsOf (objectContext name ms) [.root] .root (.object ms) (some name) none
          (Schema.form false none (.object ms))) (rootBuilder name)
        (fun kind t => done 0 { t with
          graph := t.graph.fill 0 { kind, name := some name }
          inProgress := t.inProgress.filter (· != 0) }) failed := by
  have hroot : (objectContext name ms).schemas.resolve .root = .ok (.fragment .root) := by rfl
  have hget : (objectContext name ms).schemas.get? .root = some (.object ms) := by rfl
  rw [ends_fragment hget, ends_visit_new hroot rfl List.not_mem_nil, ends_build_named hhint rfl,
    parts_eq, hdescription]
  simp only [hfresh]
  rfl

/-- The schemas that a build of the only document comes to stand at its positions. -/
theorem mem_positions_objectContext {name : String} (hd : (Json.object ms).Distinct)
    (h : Occurs (objectContext name ms) (· = .root) id schema) (hs : schema.isSchema = true) :
    ∃ path, (path, schema) ∈ Schema.positions "#" (.object ms) := by
  have hdistinct : (objectContext name ms).schemas.Distinct := by
    intro d hmem
    rw [List.mem_singleton.1 hmem]
    exact hd
  obtain ⟨d, hdoc, hmem⟩ := h.mem_positions hdistinct (fun r hr => by
    rw [hr]
    exact ⟨⟨none, .object ms⟩, ("#", .object ms), rfl, Schema.mem_positions_self _ _, rfl⟩)
    (fun _ ht => nomatch ht) hs
  have hdoc' := List.mem_of_getElem? hdoc
  rw [List.mem_singleton.1 hdoc'] at hmem
  exact ⟨_, hmem⟩

end Runs

end Build

namespace TypeGraph

open Build

variable {ctx : BuildContext} {g : TypeGraph}

/-- An interface of a built graph is that of an object schema that the build comes to. -/
theorem exists_describes_interface (h : ofSchemas ctx = .ok g) {i : NodeId} {node : Node}
    {members : List InterfaceMember} {supers : List NodeId} (hn : g.get? i = some node)
    (hk : node.kind = .interface members supers) :
    ∃ s id ms, Occurs ctx (· = .root) id (.object ms) ∧
      Schema.form ctx.options.unreachableDefinitions id.variant (.object ms) = .interface ms ∧
      DescribesInterface ctx s id ms (.interface members supers) := by
  rcases describes_or_loose h hn with ⟨s, id, schema, ho, hd⟩ | hloose
  · obtain ⟨ms, rfl, hform, hdescribes⟩ := (hk ▸ hd).interface
    exact ⟨s, id, ms, ho, hform, hdescribes⟩
  · rw [hk] at hloose
    cases hloose

end TypeGraph

end Typewright
