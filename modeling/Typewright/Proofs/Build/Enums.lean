import Typewright.Proofs.Build.References

/-!
# Enum members

An enum is built by pairing names with values, so it loses members where there are fewer names than
values. The check of a root refuses such a schema at its positions, and there enums are complete
(`complete_of_enum`); a schema elsewhere is not checked (`exists_enum_incomplete`).
-/

namespace Typewright

namespace Build

variable {ctx : BuildContext} {s : Builder} {id : Fragment} {schema : Json} {ms : Members}
  {values : List Json} {members : List EnumMember}

/-- An enum has one member for each value of its schema, in order, under the name that the schema
gives for it, if it gives names. -/
structure EnumComplete (s : Builder) (ms : Members) (values : List Json)
    (members : List EnumMember) : Prop where
  size : members.length = values.length
  literals : List.Forall₂ (fun value m => Leaf s (.literal value) m.node) values members
  names : ∀ names, ms.lookup "tsEnumNames" = some (.array names) →
    names = members.map fun m => .string m.key

/-! ## Pairs of keys and nodes -/

theorem length_valueKeys (values : List Json) : (valueKeys values).length = values.length := by
  unfold valueKeys
  have hfold : ∀ (step : List String × List String → Json → List String × List String)
      (start : List String × List String), (∀ p v, (step p v).1.length = p.1.length + 1) →
      (values.foldl step start).1.length = start.1.length + values.length := by
    intro step start hstep
    induction values generalizing start with
    | nil => rfl
    | cons v rest ih =>
        rw [List.foldl_cons, ih, hstep, List.length_cons, Nat.add_assoc, Nat.add_comm 1]
  rw [hfold _ _ fun p v => List.length_append, List.length_nil, Nat.zero_add]

theorem literals_zip {κ : Type} {keys : List κ} {nodes : List NodeId} (text : κ → String)
    (h : List.Forall₂ (fun value node => Leaf s (.literal value) node) values nodes)
    (hl : keys.length = values.length) :
    List.Forall₂ (fun value (m : EnumMember) => Leaf s (.literal value) m.node) values
      ((keys.zip nodes).map fun p => ⟨text p.1, p.2⟩) := by
  induction h generalizing keys with
  | nil =>
      rw [List.length_eq_zero_iff.1 hl]
      exact .nil
  | cons hleaf _ ih =>
      cases keys with
      | nil => cases hl
      | cons key rest => exact .cons hleaf (ih (Nat.succ.inj hl))

/-- A schema that keeps the rules has as many names as values, all of them strings. -/
theorem names_of_rulesBroken {names : List Json}
    (h : Schema.rulesBroken (.object ms) = []) (hv : ms.lookup "enum" = some (.array values))
    (hn : ms.lookup "tsEnumNames" = some (.array names)) :
    (∀ name ∈ names, name.isString = true) ∧ names.length = values.length := by
  have hfaults := (List.append_eq_nil_iff.1 h).2
  unfold Schema.enumNamesFaults at hfaults
  rw [hn] at hfaults
  dsimp only at hfaults
  split at hfaults
  · rename_i hall
    rw [hv] at hfaults
    dsimp only [Option.bind_some, Json.items?] at hfaults
    split at hfaults
    · rename_i hlen
      exact ⟨List.all_eq_true.1 hall, (eq_of_beq hlen).symm⟩
    · cases hfaults
  · cases hfaults

theorem string_getD_string? {v : Json} (h : v.isString = true) :
    Json.string (v.string?.getD "") = v := by
  cases v with
  | string text => rfl
  | _ => cases h

/-- Enums are complete if there are as many names as values, or none. -/
theorem DescribesEnum.complete (h : DescribesEnum s ms values (.enum members))
    (hnames : ∀ names, ms.lookup "tsEnumNames" = some (.array names) →
      (∀ name ∈ names, name.isString = true) ∧ names.length = values.length) :
    EnumComplete s ms values members := by
  unfold DescribesEnum at h
  split at h
  · rename_i names hitems
    have hn : ms.lookup "tsEnumNames" = some (.array names) := by
      obtain ⟨v, hl, hv⟩ := Option.bind_eq_some_iff.1 hitems
      cases v with
      | array xs => exact (Option.some.inj hv) ▸ hl
      | _ => cases hv
    obtain ⟨hstring, hlen⟩ := hnames names hn
    obtain ⟨nodes, hleaves, hkind⟩ := h
    obtain rfl := Kind.enum.inj hkind
    have hsnd : (names.zip values).map (·.2) = values := List.map_snd_zip (Nat.le_of_eq hlen.symm)
    have hpairs : (names.zip values).length = values.length := by
      rw [List.length_zip, hlen, Nat.min_self]
    rw [hsnd] at hleaves
    have hliterals := literals_zip (fun p => p.1.string?.getD "") hleaves hpairs
    refine ⟨hliterals.length_eq.symm, hliterals, fun names' hn' => ?_⟩
    obtain rfl := Json.array.inj (Option.some.inj (hn.symm.trans hn'))
    rw [List.map_map]
    have hkeys : ((names.zip values).zip nodes).map (fun p => p.1.1) = names :=
      calc ((names.zip values).zip nodes).map (fun p => p.1.1)
          = (((names.zip values).zip nodes).map (·.1)).map (·.1) := (List.map_map).symm
        _ = (names.zip values).map (·.1) := by
          rw [List.map_fst_zip (Nat.le_of_eq (hpairs.trans hleaves.length_eq))]
        _ = names := List.map_fst_zip (Nat.le_of_eq hlen)
    conv_lhs => rw [← hkeys]
    refine List.map_congr_left fun p hp => ?_
    exact (string_getD_string? (hstring _ (List.of_mem_zip (List.of_mem_zip hp).1).1)).symm
  · rename_i hnone
    obtain ⟨nodes, hleaves, hkind | hkind⟩ := h
    · cases hkind
    · obtain rfl := Kind.enum.inj hkind
      have hliterals := literals_zip id hleaves (length_valueKeys values)
      refine ⟨hliterals.length_eq.symm, hliterals, fun names hn => ?_⟩
      rw [hn] at hnone
      cases hnone

/-- An enum stands for an object schema with a list of values. -/
theorem Describes.enum (h : Describes ctx s id schema (.enum members)) :
    ∃ ms values, schema = .object ms ∧ ms.lookup "enum" = some (.array values) ∧
      DescribesEnum s ms values (.enum members) := by
  rcases h.cases with ⟨_, -, hinterface⟩ | ⟨values, hform, henum⟩ | ⟨-, hkind, -⟩
  · obtain ⟨_, _, hkind⟩ := hinterface.exists_interface
    cases hkind
  · rcases Schema.exists_members_of_form _ hform with ⟨ms, rfl, hv⟩ | hf | hf | hf
    · exact ⟨ms, values, rfl, hv, henum⟩
    all_goals cases hf
  · exact absurd rfl (hkind members)

/-! ## Checked positions -/

theorem faults_of_check {name : String} (h : check name schema = .ok ()) :
    Schema.faults schema = [] := by
  unfold check at h
  split at h
  · assumption
  · cases h

/-- The value at a position of the checked root keeps the rules in normal form, too. -/
theorem rulesBroken_of_position {env : Environment} {options : Options}
    {location : Option FileUrl} {g : SchemaGraph} {name : String}
    (hcheck : check name schema = .ok ()) (hd : schema.Distinct)
    (hload : SchemaGraph.load env options location schema = .ok g)
    {v w : Json} (hdoc : id.document = 0) (hv : (id.pointer, v) ∈ Schema.positions "#" schema)
    (hw : (g.normalize name).get? id = some w) : Schema.rulesBroken w = [] := by
  obtain ⟨⟨rest, hdocs, -⟩, -⟩ := SchemaGraph.recorded_of_load hload
  obtain ⟨x, hx⟩ := Schema.mem_positions_normalize name hd hv
  have hat := (Schema.at?_of_mem_positions rfl (Schema.distinct_normalize name hd) _ hx).1
  have hget : (g.normalize name).get? ⟨0, id.pointer, id.variant⟩ =
      (Schema.normalize name schema).at? id.pointer :=
    SchemaGraph.get?_normalize_root (by rw [hdocs]; rfl) id.pointer id.variant
  rw [← hdoc] at hget
  obtain rfl := Option.some.inj (hat.symm.trans (hget.symm.trans hw))
  exact Schema.faults_eq_nil_iff.1 (Schema.faults_normalize hd (faults_of_check hcheck)) _ hx

/-- No enum member is lost at the positions of the root that was checked, nor where a schema gives
no names or keeps the rules by itself: whatever requests a builder serves, such an enum has all
values as members, each under its name. -/
theorem complete_of_enum {env : Environment} {options : Options} {location : Option FileUrl}
    {g : SchemaGraph} {name : String} {requests : List Request} {i : NodeId} {node : Node}
    (hcheck : check name schema = .ok ()) (hd : schema.Distinct)
    (hload : SchemaGraph.load env options location schema = .ok g)
    (hl : (serve ⟨g.normalize name, name, options⟩ {} requests).processed.lookup id = some i)
    (hn : (serve ⟨g.normalize name, name, options⟩ {} requests).graph.get? i = some node)
    (hk : node.kind = .enum members) :
    ∃ ms values, (g.normalize name).get? id = some (.object ms) ∧
      ms.lookup "enum" = some (.array values) ∧
      ((id.document = 0 ∧ ∃ v, (id.pointer, v) ∈ Schema.positions "#" schema) ∨
        ms.lookup "tsEnumNames" = none ∨ Schema.rulesBroken (.object ms) = [] →
        EnumComplete (serve ⟨g.normalize name, name, options⟩ {} requests) ms values members) := by
  have hg := SchemaGraph.distinct_of_load hload hd
  obtain ⟨hc, -⟩ := keeps_serve
    (consistent_empty ⟨g.normalize name, name, options⟩ (fun _ => True) [])
    fun r (_ : r ∈ requests) => trivial
  obtain ⟨-, -, w, hoccurs, hdescribes⟩ := hc.processed id i hl
  have hget := hoccurs.get? (hg.normalize name)
  obtain ⟨ms, values, rfl, hv, henum⟩ := (hk ▸ hdescribes node hn).enum
  refine ⟨ms, values, hget, hv, fun hsafe => henum.complete fun names hnames => ?_⟩
  rcases hsafe with ⟨hdoc, v, hposition⟩ | hnone | hrules
  · exact names_of_rulesBroken
      (rulesBroken_of_position hcheck hd hload hdoc hposition hget) hv hnames
  · rw [hnone] at hnames
    cases hnames
  · exact names_of_rulesBroken hrules hv hnames

/-! ## Unchecked enums -/

/-- The members of an enum schema with two values. -/
def namedEnum (names : List Json) : Members :=
  [("title", .string "E"), ("enum", .array [.string "a", .string "b"]),
    ("tsEnumNames", .array names)]

/-- The names of such an enum with their values. -/
def namedPairs (names : List Json) : List (Json × Json) := names.zip [.string "a", .string "b"]

/-- The build of such an enum comes down to the nodes of the values that are paired with a name. -/
theorem ends_namedEnum {names : List Json} {done : NodeId → Builder → Prop}
    {failed : CompileError → Builder → Prop} :
    Ends (build (componentContext (namedEnum names)) [.root] component (.object (namedEnum names))
      none false (by decide))
      { graph := ⟨#[none], 0⟩, processed := [(.root, 0)], usedNames := ["List"],
        inProgress := [0] } done failed ↔
    Ends (addLiterals ((namedPairs names).map (·.2)))
      { graph := ⟨#[none, none], 0⟩, processed := [(component, 1), (.root, 0)],
        usedNames := ["List", "E"], inProgress := [1, 0] }
      (fun nodes t => done 1 { t with
        graph := t.graph.fill 1 {
          kind := .enum (((namedPairs names).zip nodes).map fun p => ⟨p.1.1.string?.getD "", p.2⟩)
          name := some "E" }
        inProgress := t.inProgress.filter (· != 1) }) failed := by
  have hhint : nameHint (componentContext (namedEnum names)) component (.object (namedEnum names))
      none false = some "E" := by rfl
  have hform : Schema.form (componentContext (namedEnum names)).options.unreachableDefinitions
      component.variant (.object (namedEnum names)) =
      .enumeration [.string "a", .string "b"] := by rfl
  have hnames : ((namedEnum names).lookup "tsEnumNames").bind Json.items? = some names := by rfl
  rw [ends_build_named hhint rfl, parts_eq, hform, partsOf, enumKind]
  dsimp only [Json.members?, Option.getD_some]
  rw [hnames]
  dsimp only
  rw [ends_bind]
  rfl

theorem distinct_namedEnum {names : List Json} (h : ∀ v ∈ names, v.Distinct) :
    (listOfComponent (namedEnum names)).Distinct :=
  distinct_listOfComponent ⟨(by decide : ["title", "enum", "tsEnumNames"].Nodup), trivial,
    ⟨trivial, trivial, trivial⟩, Json.distinct_array.2 h, trivial⟩

/-- A name for each of the two values. -/
def twoNames : Members := namedEnum [.string "A", .string "B"]

theorem run_twoNames :
    (fragment (componentContext twoNames) .root none true).run {} = (.ok 0, {
      graph := ⟨#[some { kind := .array 1, name := some "List" },
        some { kind := .enum [⟨"A", 2⟩, ⟨"B", 3⟩], name := some "E" },
        some { kind := .literal (.string "a") }, some { kind := .literal (.string "b") }], 0⟩
      processed := [(component, 1), (.root, 0)]
      usedNames := ["List", "E"] }) := by
  refine run_of_ends ((ends_componentContext _).2 (ends_namedEnum.2 ?_))
  exact ⟨rfl, rfl⟩

/-- Two names are enough for two values, also where no check looks. -/
theorem complete_of_enum_twoNames :
    check "List" (listOfComponent twoNames) = .ok () ∧
    ∃ ms values, ((componentGraph (listOfComponent twoNames)).normalize "List").get? component =
        some (.object ms) ∧
      ms.lookup "enum" = some (.array values) ∧
      EnumComplete (serve ⟨(componentGraph (listOfComponent twoNames)).normalize "List", "List",
          { bannerComment := "" }⟩ {} [⟨.root, none, true⟩]) ms values [⟨"A", 2⟩, ⟨"B", 3⟩] := by
  have hd : (listOfComponent twoNames).Distinct := distinct_namedEnum (by simp [Json.Distinct])
  have hl : (serve ⟨(componentGraph (listOfComponent twoNames)).normalize "List", "List",
      { bannerComment := "" }⟩ {} [⟨.root, none, true⟩]).processed.lookup component = some 1 := by
    rw [serve_listOfComponent, run_twoNames]
    rfl
  have hn : (serve ⟨(componentGraph (listOfComponent twoNames)).normalize "List", "List",
      { bannerComment := "" }⟩ {} [⟨.root, none, true⟩]).graph.get? 1 =
      some { kind := .enum [⟨"A", 2⟩, ⟨"B", 3⟩], name := some "E" } := by
    rw [serve_listOfComponent, run_twoNames]
    rfl
  obtain ⟨ms, values, hget, hv, hcomplete⟩ := complete_of_enum (check_listOfComponent _) hd
    (load_listOfComponent _) hl hn rfl
  have hms : some (Json.object twoNames) = some (.object ms) := by
    rw [← hget, normalize_listOfComponent]
    rfl
  obtain rfl := Json.object.inj (Option.some.inj hms)
  exact ⟨check_listOfComponent _, _, values, hget, hv, hcomplete (.inr (.inr (by decide)))⟩

/-- A name for only one of the two values. -/
def oneName : Members := namedEnum [.string "A"]

/-- Lists of an enum that has only one of two values. -/
def shortGraph : TypeGraph where
  nodes := #[some { kind := .array 1, name := some "List" },
    some { kind := .enum [⟨"A", 2⟩], name := some "E" }, some { kind := .literal (.string "a") }]
  root := 0

theorem run_oneName :
    (fragment (componentContext oneName) .root none true).run {} = (.ok 0, {
      graph := shortGraph
      processed := [(component, 1), (.root, 0)]
      usedNames := ["List", "E"] }) := by
  refine run_of_ends ((ends_componentContext _).2 (ends_namedEnum.2 ?_))
  exact ⟨rfl, rfl⟩

/-- An enum at no position loses members: a compile succeeds that has one with fewer members than
its schema has values. -/
theorem exists_enum_incomplete : ¬ ∀ (env : Environment) (job : Job) (text : String)
    (g : SchemaGraph), job.schema.Distinct → job.run env = .ok text →
    SchemaGraph.load env job.options job.location job.schema = .ok g →
    ∀ id i node members ms values,
      (serve ⟨g.normalize job.name, job.name, job.options⟩ {}
        [⟨.root, none, true⟩]).processed.lookup id = some i →
      (serve ⟨g.normalize job.name, job.name, job.options⟩ {}
        [⟨.root, none, true⟩]).graph.get? i = some node →
      node.kind = .enum members → (g.normalize job.name).get? id = some (.object ms) →
      ms.lookup "enum" = some (.array values) → members.length = values.length := by
  intro h
  have hd : (listOfComponent oneName).Distinct :=
    distinct_namedEnum (by simp [Json.Distinct])
  have hsame : shortGraph.simplify false = shortGraph := by cbv
  have htext : Declaration.text { bannerComment := "" } shortGraph =
      .ok "export type List = E[]\n\nexport const enum E \x7b\nA = \"a\"\n\x7d\n" := by cbv
  have hout : (componentJob oneName).run noFiles =
      .ok "export type List = E[];\n\nexport const enum E \x7b\n  A = \"a\"\n\x7d\n" :=
    run_componentJob run_oneName (hsame ▸ htext) (by rfl)
  have hlength := h noFiles (componentJob oneName) _ _ hd hout
    (load_listOfComponent _) component 1 { kind := .enum [⟨"A", 2⟩], name := some "E" }
    [⟨"A", 2⟩] oneName [.string "a", .string "b"]
  dsimp only [componentJob] at hlength
  rw [serve_listOfComponent, run_oneName, normalize_listOfComponent] at hlength
  exact absurd (hlength (by rfl) (by rfl) rfl (by rfl) (by rfl)) (by decide)

end Build

end Typewright
