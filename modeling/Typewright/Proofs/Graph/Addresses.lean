import Typewright.Proofs.Graph.Normal
import Typewright.Proofs.Graph.Places
import Typewright.Proofs.Schema.Addresses

/-!
# References in normal form

The references of a graph are recorded before its documents are put in normal form, and are not
recorded anew. They stay right: normal form keeps the pointers of schemas, so each reference still
stands where it was found, and leads to the schema that it led to, now in normal form
(`normalForm_keeps_addresses`).
-/

namespace Typewright

namespace SchemaGraph

variable {env : Environment} {options : Options} {location : Option FileUrl} {schema : Json}
  {g : SchemaGraph} {id : Fragment} {v : Json}

/-- What becomes of the references of a graph when its documents are put in normal form. -/
structure ReferencesKept (g : SchemaGraph) (name : String) : Prop where
  refs : (g.normalize name).refs = g.refs
  /-- A schema keeps its identity. -/
  schemas : ∀ id v, g.Scans id → g.get? id = some v → (g.normalize name).Scans id ∧
    (g.normalize name).get? id =
      some (if id = .root then Schema.normalize name v else Schema.normalizeFragment v)
  /-- A reference stands where it was found. -/
  sites : ∀ e ∈ g.refs, ∃ v v' reference, g.get? e.1 = some v ∧
    (g.normalize name).get? e.1 = some v' ∧ (g.normalize name).Scans e.1 ∧
    Loading.reference? v = some reference ∧ Loading.reference? v' = some reference
  /-- What it leads to, if that is at the position of a schema, is a schema still. -/
  targets : ∀ id ∈ g.targets, g.Scans id → (g.normalize name).Scans id ∧
    ∃ v, (g.normalize name).get? id = some v ∧ v.isSchema = true
  /-- No other references are there. -/
  recorded : (g.normalize name).Recorded

theorem getElem?_normalize_of_getElem? {index : Nat} {d : Document}
    (h : g.documents[index]? = some d) (name : String) : ∃ d',
      (g.normalize name).documents[index]? = some d' ∧
        d'.root = if index = 0 then Schema.normalize name d.root
          else Schema.normalizeFragment d.root := by
  unfold SchemaGraph.normalize
  cases hdocs : g.documents with
  | nil => rw [hdocs] at h; cases h
  | cons root rest =>
      rw [hdocs] at h
      cases index with
      | zero =>
          obtain rfl := Option.some.inj h
          exact ⟨_, rfl, rfl⟩
      | succ index =>
          rw [List.getElem?_cons_succ] at h
          refine ⟨{ d with root := Schema.normalizeFragment d.root }, ?_, rfl⟩
          rw [List.getElem?_cons_succ, List.getElem?_map, h]
          rfl

/-- A schema of a graph in normal form: the rules for the root apply to the root alone. -/
theorem Scans.get?_normalize (h : g.Scans id) (hd : g.Distinct) (hv : g.get? id = some v)
    (name : String) : (g.normalize name).get? id =
      some (if id = .root then Schema.normalize name v else Schema.normalizeFragment v) := by
  obtain ⟨d, c, hdoc, hc, hid⟩ := h
  have hroot := hd d (List.mem_of_getElem? hdoc)
  have haddress := Schema.addressed hroot
  obtain ⟨d', hdoc', hroot'⟩ := getElem?_normalize_of_getElem? hdoc name
  have hpointer : id.pointer = c.1 := congrArg Fragment.pointer hid
  rw [get?, hdoc, Option.bind_some, hpointer, (haddress.values c hc).1] at hv
  obtain rfl := Option.some.inj hv
  rw [get?, hdoc', Option.bind_some, hroot', hpointer]
  by_cases hzero : id.document = 0
  · rw [if_pos hzero, Schema.at?_normalize name hroot hc]
    have hiff : id = .root ↔ c.1 = "#" := by
      rw [hid, hzero, Fragment.root, Fragment.mk.injEq]
      simp
    simp only [hiff]
  · rw [if_neg hzero, (haddress.values c hc).2, if_neg fun heq => hzero (by rw [heq]; rfl)]

/-- What stands at a scanned fragment. -/
theorem get?_of_mem_positions {d : Document} {c : String × Json} (hg : g.Distinct)
    (hdoc : g.documents[id.document]? = some d) (hc : c ∈ Schema.positions "#" d.root)
    (hid : id = ⟨id.document, c.1, none⟩) : g.get? id = some c.2 := by
  have hpointer : id.pointer = c.1 := congrArg Fragment.pointer hid
  rw [get?, hdoc, Option.bind_some, hpointer]
  exact ((Schema.addressed (hg d (List.mem_of_getElem? hdoc))).values c hc).1

theorem referencesKept_of_load (h : load env options location schema = .ok g)
    (hd : schema.Distinct) (name : String) : ReferencesKept g name := by
  have hg := distinct_of_load h hd
  have hplaced := (placed_of_load h).2
  have halike : ∀ {id v}, g.get? id = some v → Schema.Alike
      (if id = Fragment.root then Schema.normalize name v else Schema.normalizeFragment v) v := by
    intro id v hv
    split
    · exact Schema.alike_normalize name (hg.get? hv)
    · exact Schema.alike_normalizeFragment (hg.get? hv)
  refine ⟨refs_normalize g name, fun id v hid hv =>
    ⟨hid.normalize hg name, hid.get?_normalize hg hv name⟩, fun e he => ?_, fun id hid hscans => ?_,
    (recorded_of_load h).2.normalize hg name⟩
  · obtain ⟨d, c, reference, hdoc, hc, hid, href, -⟩ := hplaced e he
    have hscans : g.Scans e.1 := ⟨d, c, hdoc, hc, hid⟩
    have hv := get?_of_mem_positions hg hdoc hc hid
    exact ⟨c.2, _, reference, hv, hscans.get?_normalize hg hv name, hscans.normalize hg name, href,
      (reference?_congr (halike hv)).trans href⟩
  · obtain ⟨site, he⟩ := exists_of_mem_targets hid
    obtain ⟨d, c, reference, -, -, -, -, hlands⟩ := hplaced _ he
    obtain ⟨d', v, hdoc', hv, hschema⟩ := (hlands id rfl).value
    have hget : g.get? id = some v := by rw [get?, hdoc', Option.bind_some, hv]
    refine ⟨hscans.normalize hg name, _, hscans.get?_normalize hg hget name, ?_⟩
    split
    · rw [Schema.isSchema_normalize, hschema]
    · rw [Schema.isSchema_normalizeFragment, hschema]

/-- Normal form and addresses: in a document, the value at the pointer of a schema is put in normal
form, and no other schema is there but `true` for further properties; and the references of a graph,
which are recorded before, stand and lead where they did. -/
theorem normalForm_keeps_addresses {d : Json} (hd : d.Distinct) :
    Schema.Addressed d (Schema.normalizeFragment d) ∧
      ∀ env options location g name, load env options location d = .ok g →
        ReferencesKept g name :=
  ⟨Schema.addressed hd, fun _ _ _ _ name h => referencesKept_of_load h hd name⟩

/-- A list of objects, each with a reference to the next, that is silent about further properties. -/
def linkMembers : Members :=
  [("type", .array [.string "object"]),
    ("properties", .object [("next", .object [("$ref", .string "#")])])]

def linkGraph : SchemaGraph where
  documents := [⟨none, .object linkMembers⟩]
  refs := [(⟨0, "#/properties/next", none⟩, .fragment .root)]
  maxDepth := 50

/-- The reference leads to the root before and after, and the root gets a say on further
properties. -/
theorem normalForm_keeps_addresses_link :
    (Json.object linkMembers).Distinct ∧
    load oneFile {} none (.object linkMembers) = .ok linkGraph ∧
    (linkGraph.normalize "Link").refs.lookup ⟨0, "#/properties/next", none⟩ =
      some (.fragment .root) ∧
    (∃ v, (linkGraph.normalize "Link").get? .root = some v ∧ v.isSchema = true) ∧
    ("#/additionalProperties", .bool true) ∈
      Schema.positions "#" (Schema.normalizeFragment (.object linkMembers)) := by
  have hd : (Json.object linkMembers).Distinct := by
    simp [linkMembers, Json.Distinct, Json.DistinctMembers, Json.DistinctItems, Members.keys]
  have hpositions : Schema.positions "#" (.object linkMembers) = [("#", .object linkMembers),
      ("#/properties/next", .object [("$ref", .string "#")])] := by
    rw [Schema.positions_object]
    refine congrArg (List.cons _) ?_
    change [("#/properties/next", _)].flatMap _ = _
    simp only [List.flatMap_cons, Schema.positions_reference]
    rfl
  have hload : load oneFile {} none (.object linkMembers) = .ok linkGraph := by
    refine load_of_alone rfl ?_
    rw [hpositions]
    rfl
  obtain ⟨haddressed, hkept⟩ := normalForm_keeps_addresses hd
  have hlink := hkept oneFile {} none linkGraph "Link" hload
  have hself := Schema.mem_positions_self "#" (.object linkMembers)
  have hsilent : Schema.IsSilent linkMembers := by
    refine ⟨?_, .inr (.inl rfl), ?_, ?_⟩ <;> decide
  refine ⟨hd, hload, ?_, (hlink.targets .root (by decide) ⟨_, _, rfl, hself, rfl⟩).2,
    (haddressed.positions _).2 (.inr ⟨⟨"#", linkMembers, hself, hsilent, ?_⟩, rfl⟩)⟩
  · rw [hlink.refs]
    rfl
  · decide

end SchemaGraph

end Typewright
