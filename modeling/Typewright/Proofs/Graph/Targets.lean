import Typewright.Proofs.Graph.Normal
import Typewright.Proofs.Schema.Validity
import Typewright.TypeGraph.Build

/-!
# Where references lead

What the loading records at a position of a document is the target of the reference that stands
there, and it records nothing where no reference stands (`SchemaGraph.accurate_of_load`). So a chain
of references through basic schemas ends at one that is no reference.
-/

namespace Typewright

namespace Loading

variable {env : Environment} {options : Options} {st st' : Loading} {index : Nat}

/-- Where a reference in a document leads. -/
structure Leads (root : Json) (index : Nat) (reference : String) (t : Target) : Prop where
  /-- A reference into its own document leads to what its fragment points at. -/
  own : ∀ fragment, reference.toList = '#' :: fragment → ∃ pointer,
    fragmentPointer (String.ofList fragment) = .ok pointer ∧ t = .fragment ⟨index, pointer, none⟩ ∧
    (root.at? pointer).isSome
  /-- No reference leads to an entry of a `type` list. -/
  whole : ∀ id, t = .fragment id → id.variant = none
  /-- What is not loaded is named after the reference. -/
  named : ∀ name, t = .external name → name = externalName reference

theorem isSome_of_check {documents : List Document} {d : Document} {pointer : String}
    (hd : documents[index]? = some d) (h : check documents ⟨index, pointer, none⟩ = .ok ()) :
    (d.root.at? pointer).isSome := by
  obtain ⟨d', v, hd', hat, -⟩ := isSchema_of_check h
  obtain rfl := Option.some.inj (hd.symm.trans hd')
  rw [hat]
  rfl

theorem leads_of_target {sources sources' : Sources} {source : Source} {reference : String}
    {t : Target} (hs : sources.rows[index]? = some source)
    (h : target env options sources index reference = .ok (t, sources')) :
    Leads source.document.root index reference t := by
  unfold target at h
  split at h
  · rename_i fragment hfragment
    obtain ⟨pointer, hpointer, h⟩ := ok_of_bind h
    obtain ⟨_, hcheck, h⟩ := ok_of_bind h
    obtain ⟨rfl, -⟩ := Prod.mk.inj (Except.ok.inj h)
    refine ⟨fun fragment' heq => ?_, fun id heq => ?_, fun name heq => (by cases heq)⟩
    · obtain ⟨-, rfl⟩ := List.cons.inj (hfragment.symm.trans heq)
      refine ⟨pointer, hpointer, rfl, isSome_of_check ?_ hcheck⟩
      rw [Sources.getElem?_documents, hs]
      rfl
    · obtain rfl := Target.fragment.inj heq
      rfl
  · rename_i hlocal
    have hown : ∀ {P : Prop} {fragment : List Char}, reference.toList = '#' :: fragment → P :=
      fun heq => absurd heq (hlocal _)
    split at h
    · obtain ⟨rfl, -⟩ := Prod.mk.inj (Except.ok.inj h)
      exact ⟨fun _ => hown, fun id heq => (by cases heq), fun name heq =>
        (Target.external.inj heq).symm⟩
    · split at h
      · cases h
      · split at h
        · cases h
        · split at h
          · cases h
          · cases h
          · obtain ⟨_, -, h⟩ := ok_of_bind h
            obtain ⟨pointer, -, h⟩ := ok_of_bind h
            obtain ⟨_, -, h⟩ := ok_of_bind h
            obtain ⟨rfl, -⟩ := Prod.mk.inj (Except.ok.inj h)
            refine ⟨fun _ => hown, fun id heq => ?_, fun name heq => (by cases heq)⟩
            obtain rfl := Target.fragment.inj heq
            rfl

/-- Each recorded reference stands at a position of its document. -/
def Accurate (st : Loading) : Prop :=
  ∀ e ∈ st.refs, ∃ source c reference, st.sources.rows[e.1.document]? = some source ∧
    c ∈ Schema.positions "#" source.document.root ∧ e.1 = ⟨e.1.document, c.1, none⟩ ∧
    reference? c.2 = some reference ∧ Leads source.document.root e.1.document reference e.2

theorem Accurate.scanFrom {remaining next : Nat} (h : Accurate st)
    (hscan : scanFrom env options remaining next st = .ok st') : Accurate st' := by
  refine scanFrom_references hscan h fun t index source c reference entry sources ht hs hc href
    htarget => ?_
  obtain ⟨more, hmore, -⟩ := further_of_target htarget fun source _ => Nat.zero_le source.depth
  have hkeep : ∀ {i : Nat} {source : Source}, t.sources.rows[i]? = some source →
      sources.rows[i]? = some source := fun hi => by
    rw [hmore, List.getElem?_append_left (List.getElem?_eq_some_iff.1 hi).1, hi]
  intro e he
  rcases List.mem_append.1 he with he | he
  · obtain ⟨source, c, reference, hsource, hrest⟩ := ht e he
    exact ⟨source, c, reference, hkeep hsource, hrest⟩
  · rw [List.mem_singleton.1 he]
    exact ⟨source, c, reference, hkeep hs, hc, rfl, href, leads_of_target hs htarget⟩

end Loading

namespace SchemaGraph

variable {env : Environment} {options : Options} {location : Option FileUrl} {schema : Json}
  {g : SchemaGraph}

/-- Each recorded reference stands at a position of its document, and leads where it points. -/
def Accurate (g : SchemaGraph) : Prop :=
  ∀ e ∈ g.refs, ∃ d c reference, g.documents[e.1.document]? = some d ∧
    c ∈ Schema.positions "#" d.root ∧ e.1 = ⟨e.1.document, c.1, none⟩ ∧
    Loading.reference? c.2 = some reference ∧ Loading.Leads d.root e.1.document reference e.2

theorem accurate_of_load (h : load env options location schema = .ok g) : g.Accurate := by
  unfold load at h
  obtain ⟨st, hscan, h⟩ := Loading.ok_of_bind h
  obtain rfl := Except.ok.inj h
  have hst : Loading.Accurate st := Loading.Accurate.scanFrom (fun e he => by cases he) hscan
  intro e he
  obtain ⟨source, c, reference, hs, hrest⟩ := hst e he
  exact ⟨source.document, c, reference, by rw [Sources.getElem?_documents, hs]; rfl, hrest⟩

/-- No reference leads to an entry of a `type` list. -/
theorem Accurate.variant_eq_none (h : g.Accurate) {id : Fragment} (hid : id ∈ g.targets) :
    id.variant = none := by
  obtain ⟨site, he⟩ := exists_of_mem_targets hid
  obtain ⟨d, c, reference, -, -, -, -, hleads⟩ := h _ he
  exact hleads.whole id rfl

/-! ## Chains of references -/

/-- The graph of a root document, whose references are recorded as they stand there. -/
structure Loaded (g : SchemaGraph) (schema : Json) : Prop where
  root : ∃ d, g.documents[0]? = some d ∧ d.root = schema
  distinct : schema.Distinct
  recorded : g.Recorded
  accurate : g.Accurate

theorem loaded_of_load (h : load env options location schema = .ok g) (hd : schema.Distinct) :
    g.Loaded schema := by
  obtain ⟨⟨rest, hdocs, -⟩, hrec⟩ := recorded_of_load h
  exact ⟨⟨⟨location, schema⟩, by rw [hdocs]; rfl, rfl⟩, hd, hrec, accurate_of_load h⟩

variable {path next : String} {v w : Json} {t : Target}

theorem Loaded.eq_of_mem_positions (h : g.Loaded schema)
    (hv : (path, v) ∈ Schema.positions "#" schema) (hw : (path, w) ∈ Schema.positions "#" schema) :
    v = w := by
  have hself : schema.at? "#" = some schema := rfl
  have hat := Schema.at?_of_mem_positions hself h.distinct
  exact Option.some.inj ((hat _ hv).1.symm.trans (hat _ hw).1)

/-- What is recorded at a position is what the reference there leads to. -/
theorem Loaded.leads (h : g.Loaded schema) (hv : (path, v) ∈ Schema.positions "#" schema)
    (hl : g.refs.lookup ⟨0, path, none⟩ = some t) : ∃ reference,
    Loading.reference? v = some reference ∧ Loading.Leads schema 0 reference t := by
  obtain ⟨before, after, hrefs, -⟩ := List.lookup_eq_some_iff.1 hl
  have hmem : (⟨0, path, none⟩, t) ∈ g.refs := hrefs ▸ List.mem_append_right _ List.mem_cons_self
  obtain ⟨d, ⟨p, w⟩, reference, hdoc, hc, hid, href, hleads⟩ := h.accurate _ hmem
  obtain ⟨d', hdoc', rfl⟩ := h.root
  obtain rfl := Option.some.inj (hdoc'.symm.trans hdoc)
  obtain rfl : path = p := congrArg Fragment.pointer hid
  obtain rfl := h.eq_of_mem_positions hv hc
  exact ⟨reference, href, hleads⟩

theorem Loaded.lookup_eq_none (h : g.Loaded schema) (hv : (path, v) ∈ Schema.positions "#" schema)
    (href : Loading.reference? v = none) : g.refs.lookup ⟨0, path, none⟩ = none := by
  cases hl : g.refs.lookup ⟨0, path, none⟩ with
  | none => rfl
  | some t =>
      obtain ⟨reference, hsome, -⟩ := h.leads hv hl
      rw [href] at hsome
      cases hsome

/-- The pointer that is read off a reference to a definition. -/
theorem fragmentPointer_of_definitionKey? {reference key : String}
    (h : Schema.definitionKey? reference = some key) : ∃ fragment,
    reference.toList = '#' :: fragment ∧
      fragmentPointer (String.ofList fragment) = .ok (Pointer.build "#" ["definitions", key]) := by
  unfold Schema.definitionKey? at h
  split at h
  · rename_i fragment hfragment
    refine ⟨fragment, hfragment, ?_⟩
    split at h
    · rename_i steps hdecode
      split at h
      · rename_i key' hsteps
        obtain rfl := Option.some.inj h
        have hsplit : Pointer.split (String.ofList ('/' :: steps)) = ["definitions", key'] := by
          simp only [Pointer.split, Pointer.body, String.toList_ofList]
          exact hsteps
        simp only [fragmentPointer, String.toList_ofList, hdecode, List.head?_cons, hsplit]
        rfl
      · cases h
    · cases h
  · cases h

/-- A reference to a definition leads to that definition. -/
theorem Loaded.definition (h : g.Loaded schema) (hroot : Schema.BasicRoot schema) {ms : Members}
    {reference key : String} (hp : (path, .object ms) ∈ Schema.positions "#" schema)
    (href : ms.lookup "$ref" = some (.string reference))
    (hkey : Schema.definitionKey? reference = some key) :
    ∃ next w, g.refs.lookup ⟨0, path, none⟩ = some (.fragment ⟨0, next, none⟩) ∧
      (next, w) ∈ Schema.positions "#" schema ∧ Schema.Basic w ∧
      (schema.member? "definitions").bind (·.member? key) = some w := by
  obtain ⟨d, hdoc, rfl⟩ := h.root
  have href' : Loading.reference? (.object ms) = some reference := by
    rw [Loading.reference?, Json.member?, Json.members?, Option.bind_some, href]
    rfl
  obtain ⟨t, hl⟩ := Option.isSome_iff_exists.1 (h.recorded 0 d hdoc _ hp (by rw [href']; rfl))
  obtain ⟨reference', heq, hleads⟩ := h.leads hp hl
  obtain rfl := Option.some.inj (href'.symm.trans heq)
  obtain ⟨fragment, hfragment, hpointer⟩ := fragmentPointer_of_definitionKey? hkey
  obtain ⟨pointer, hpointer', rfl, hat⟩ := hleads.own fragment hfragment
  obtain rfl := Except.ok.inj (hpointer.symm.trans hpointer')
  -- the target was looked up when the reference was loaded
  have hself : d.root.at? "#" = some d.root := rfl
  rw [Json.at?_build hself] at hat
  obtain ⟨w, hw⟩ := Option.isSome_iff_exists.1 hat
  rw [Json.follow?] at hw
  obtain ⟨defs, hdefs, hw⟩ := Option.bind_eq_some_iff.1 hw
  rw [Json.follow?] at hw
  obtain ⟨w', hw', hw⟩ := Option.bind_eq_some_iff.1 hw
  obtain rfl := Option.some.inj hw
  obtain ⟨members, hmembers, hdefs⟩ : ∃ members, d.root = .object members ∧
      members.lookup "definitions" = some defs := by
    cases hr : d.root with
    | object members => exact ⟨members, rfl, by rwa [hr] at hdefs⟩
    | _ => rw [hr] at hdefs; cases hdefs
  have hmember : d.root.member? "definitions" = some defs := by rw [hmembers]; exact hdefs
  obtain ⟨named, rfl, hbasic⟩ := hroot.definitions defs hmember
  have hmem := mem_of_lookup hw'
  have hpart : Schema.Part members ["definitions", key] w' :=
    ⟨"definitions", .byName, .object named, [key], by decide, hdefs, List.mem_map_of_mem hmem, rfl⟩
  have hself := Schema.mem_positions_self "#" d.root
  rw [hmembers] at hself
  have hposition := Schema.mem_positions_of_part hself hpart (hbasic _ hmem).isSchema
  rw [← hmembers] at hposition
  refine ⟨_, w', hl, hposition, hbasic _ hmem, ?_⟩
  rw [hmember]
  exact hw'

/-! ## The end of a chain -/

theorem follow_succ {start start' current : Fragment} {hops : Nat}
    (h : g.follow start hops current = .ok t) : g.follow start' (hops + 1) current = .ok t := by
  induction hops generalizing current with
  | zero => cases h
  | succ hops ih =>
      rw [follow] at h ⊢
      split at h
      · exact h
      · exact h
      · exact ih h

theorem resolve_of_lookup {site next : Fragment}
    (hl : g.refs.lookup site = some (.fragment next)) (h : g.resolve site = .ok t) :
    g.resolve next = .ok t := by
  unfold resolve at h ⊢
  rw [follow, hl] at h
  exact follow_succ h

theorem resolve_of_lookup_eq_none {site : Fragment} (hl : g.refs.lookup site = none) :
    g.resolve site = .ok (.fragment site) := by
  rw [resolve, follow, hl]

/-- What stands for a basic schema is one that is no reference. -/
theorem Loaded.exists_of_follow (h : g.Loaded schema) (hroot : Schema.BasicRoot schema)
    {g' : SchemaGraph} (hrefs : g'.refs = g.refs) {start : Fragment} {hops : Nat}
    (hp : (path, v) ∈ Schema.positions "#" schema) (hb : Schema.Basic v)
    (hf : g'.follow start hops ⟨0, path, none⟩ = .ok t) :
    ∃ next w, (next, w) ∈ Schema.positions "#" schema ∧ Schema.Basic w ∧
      Loading.reference? w = none ∧ t = .fragment ⟨0, next, none⟩ := by
  induction hops generalizing path v with
  | zero => cases hf
  | succ hops ih =>
      cases href : Loading.reference? v with
      | none =>
          rw [follow, hrefs, h.lookup_eq_none hp href] at hf
          exact ⟨path, v, hp, hb, href, (Except.ok.inj hf).symm⟩
      | some reference =>
          obtain ⟨ms, key, rfl, hlookup, hkey⟩ := hb.exists_of_reference href
          obtain ⟨next, w, hl, hw, hbasic, -⟩ := h.definition hroot hp hlookup hkey
          rw [follow, hrefs, hl] at hf
          exact ih hw hbasic hf

end SchemaGraph

end Typewright
