import Typewright.Proofs.Schema.Positions
import Typewright.Proofs.TypeGraph.WellFormed
import Typewright.TypeGraph.Build

/-!
# Steps of a build

What a step ends with, how the state may grow, and what the nodes in a state stand for: a node is
found for a site if the references from the site lead to the fragment it was made for, and its kind
describes the form of that fragment's schema.
-/

namespace Typewright

namespace Build

variable {α β : Type} {s t : Builder}

/-! ## Ends of a step -/

/-- A step that starts in `s` ends with a value and a state as in `done`, or with a failure and a
state as in `failed`. -/
def Ends (x : Build α) (s : Builder) (done : α → Builder → Prop)
    (failed : CompileError → Builder → Prop) : Prop :=
  match x.run s with
  | (.ok a, t) => done a t
  | (.error e, t) => failed e t

theorem Ends.mono {x : Build α} {done done' : α → Builder → Prop}
    {failed failed' : CompileError → Builder → Prop} (h : Ends x s done failed)
    (hd : ∀ a t, done a t → done' a t) (hf : ∀ e t, failed e t → failed' e t) :
    Ends x s done' failed' := by
  unfold Ends at h ⊢
  split <;> simp_all

section Rules

variable {done : α → Builder → Prop} {failed : CompileError → Builder → Prop}

@[simp] theorem ends_pure {a : α} : Ends (pure a) s done failed ↔ done a s := Iff.rfl

@[simp] theorem ends_throw {e : CompileError} :
    Ends (throw e : Build α) s done failed ↔ failed e s := Iff.rfl

theorem run_bind {x : Build β} {f : β → Build α} :
    (x >>= f).run s =
      match x.run s with
      | (.ok b, t) => (f b).run t
      | (.error e, t) => (.error e, t) := by
  change ExceptT.bindCont f (x.run s).1 (x.run s).2 = _
  rcases x.run s with ⟨_ | _, t⟩ <;> rfl

@[simp] theorem ends_bind {x : Build β} {f : β → Build α} :
    Ends (x >>= f) s done failed ↔ Ends x s (fun b t => Ends (f b) t done failed) failed := by
  unfold Ends
  rw [run_bind]
  rcases x.run s with ⟨_ | _, t⟩ <;> rfl

@[simp] theorem ends_get {done : Builder → Builder → Prop} :
    Ends get s done failed ↔ done s s := Iff.rfl

@[simp] theorem ends_set {t : Builder} {done : PUnit → Builder → Prop} :
    Ends (set t : Build PUnit) s done failed ↔ done ⟨⟩ t := Iff.rfl

@[simp] theorem ends_modify {f : Builder → Builder} {done : PUnit → Builder → Prop} :
    Ends (modify f : Build PUnit) s done failed ↔ done ⟨⟩ (f s) := Iff.rfl

@[simp] theorem ends_map {x : Build β} {f : β → α} :
    Ends (f <$> x) s done failed ↔ Ends x s (fun b t => done (f b) t) failed := by
  rw [← bind_pure_comp, ends_bind]
  rfl

end Rules

/-! ## What steps come down to -/

section Steps

variable {ctx : BuildContext}

/-- The kind of a fragment of a form, with nodes for its parts. -/
def partsOf (ctx : BuildContext) (path : List Fragment) (id : Fragment) (schema : Json)
    (name key : Option String) : Schema.Form → Build Kind
  | .any => return .any
  | .never => return .customType "never"
  | .verbatim text => return .customType text
  | .allOf items => return .intersection (← visitItems ctx path id "allOf" 0 items)
  | .someOf keyword items => return .union (← visitItems ctx path id keyword 0 items)
  | .branches count => return .union (← visitBranches ctx path id schema key (List.range count))
  | .null => return .null
  | .tuple items => return .tuple (← visitItems ctx path id "items" 0 items)
  | .listOf item => return .array (← visit ctx path (below id ["items"]) item none false)
  | .enumeration values => enumKind (schema.members?.getD []) values name
  | .constant value => return .literal value
  | .string => return .string
  | .number => return .number
  | .boolean => return .boolean
  | .anyList => return .array (← add .any)
  | .object => return .object
  | .interface ms => interface ctx path id ms ((name <|> key).getD ctx.rootName)
  | .invalid => throw (.schema id.pointer (.notSchema schema.text))

theorem parts_eq (ctx : BuildContext) (path : List Fragment) (id : Fragment) (schema : Json)
    (name key : Option String) (hp : id ∉ path) (hv : id.variant ∈ Schema.variants schema) :
    parts ctx path id schema name key hp hv = partsOf ctx (id :: path) id schema name key
      (Schema.form ctx.options.unreachableDefinitions id.variant schema) := by
  rw [parts]
  split <;> (rename_i hf; rw [hf]; rfl)

/-- A visit that references lead to a fragment of comes to the value there. -/
theorem visit_of_fragment {path : List Fragment} {site id : Fragment}
    (hr : ctx.schemas.resolve site = .ok (.fragment id)) (schema : Json) (key : Option String)
    (isRoot : Bool) : visit ctx path site schema key isRoot = (do
      let s ← get
      (s.processed.lookup id).elim
        (if hp : id ∈ path then throw (.schema id.pointer (.fragmentMissing id))
          else (if id = site then some schema else ctx.schemas.get? id).elim
            (throw (.schema id.pointer (.fragmentMissing id)))
            fun schema => build ctx path id schema key isRoot hp)
        fun node => do
          markReached node
          return node) := by
  rw [visit]
  split <;> rename_i hr' <;> rw [hr] at hr' <;> cases hr'
  refine bind_congr fun s => ?_
  cases s.processed.lookup id with
  | some node => rfl
  | none =>
      by_cases hp : id ∈ path
      · simp only [dif_pos hp, Option.elim_none]
      · simp only [dif_neg hp, Option.elim_none]
        by_cases hsite : id = site
        · rw [dif_pos hsite, if_pos hsite, Option.elim_some]
        · rw [dif_neg hsite, if_neg hsite]
          cases ctx.schemas.get? id <;> rfl

theorem visit_of_error {path : List Fragment} {site : Fragment} {e : CompileError}
    (hr : ctx.schemas.resolve site = .error e) (schema : Json) (key : Option String)
    (isRoot : Bool) : visit ctx path site schema key isRoot = throw e := by
  rw [visit]
  split <;> rename_i hr' <;> rw [hr] at hr' <;> cases hr'
  rfl

theorem visit_of_external {path : List Fragment} {site : Fragment} {name : String}
    (hr : ctx.schemas.resolve site = .ok (.external name)) (schema : Json) (key : Option String)
    (isRoot : Bool) : visit ctx path site schema key isRoot = external name := by
  rw [visit]
  split <;> rename_i hr' <;> rw [hr] at hr' <;> cases hr'
  rfl

theorem visitEach_eq (ctx : BuildContext) (path : List Fragment) (id : Fragment) (ms : Members)
    (keyword : String) (note : String → Option String) : visitEach ctx path id ms keyword note =
      visitNamed ctx path id keyword note (namedMembers ms keyword) := by
  rw [visitEach]
  unfold namedMembers
  split
  · rename_i named hl
    rw [hl]
    rfl
  · rename_i hl
    have hnone : (ms.lookup keyword).bind Json.members? = none := by
      cases hv : ms.lookup keyword with
      | none => rfl
      | some v => cases v <;> first | rfl | exact (hl _ hv).elim
    rw [hnone, Option.getD_none, visitNamed]

/-- The index signature by what an object schema says about further properties. -/
def indexOf (ctx : BuildContext) (path : List Fragment) (id : Fragment) (single : Bool) :
    Option Json → Build (List InterfaceMember)
  | some (.bool false) => return []
  | some (.object further) => do
    let node ← visit ctx path (below id ["additionalProperties"]) (.object further) none false
    return [{ key := indexSignature, node, required := true }]
  | _ =>
    if single then return []
    else do
      let node ← add .any
      return [{ key := indexSignature, node, required := true }]

theorem visitIndex_eq (ctx : BuildContext) (path : List Fragment) (id : Fragment) (ms : Members) :
    visitIndex ctx path id ms = indexOf ctx path id
      (singlePattern ms (namedMembers ms "patternProperties"))
      (ms.lookup "additionalProperties") := by
  rw [visitIndex]
  split
  · rename_i hl
    rw [hl, indexOf]
  · rename_i further hl
    rw [hl, indexOf]
  · rename_i hfalse hobject
    rw [indexOf]
    · exact hfalse
    · exact hobject

/-- The super types by what `tsExtends` holds. -/
def supersOf (ctx : BuildContext) (path : List Fragment) (id : Fragment) :
    Option Json → Build (List NodeId)
  | none => return []
  | some (.array targets) => visitSupers ctx path id 0 targets
  | some (.object target) => do
    let node ← visit ctx path (below id ["tsExtends"]) (.object target) none false
    checkSuper (below id ["tsExtends"]) node
    return [node]
  | some _ => throw (.schema (below id ["tsExtends"]).pointer .extendsShape)

theorem visitExtends_eq (ctx : BuildContext) (path : List Fragment) (id : Fragment) (ms : Members) :
    visitExtends ctx path id ms = supersOf ctx path id (ms.lookup "tsExtends") := by
  rw [visitExtends]
  split
  · rename_i hl
    rw [hl, supersOf]
  · rename_i targets hl
    rw [hl, supersOf]
  · rename_i target hl
    rw [hl, supersOf]
  · rename_i v harray hobject hl
    rw [hl, supersOf]
    · exact harray
    · exact hobject

theorem sizeOf_namedMembers (ms : Members) (keyword : String) :
    sizeOf (namedMembers ms keyword) ≤ sizeOf ms := by
  have hpos : 1 ≤ sizeOf ms := by
    cases ms <;> simp only [List.nil.sizeOf_spec, List.cons.sizeOf_spec] <;> omega
  cases hl : ms.lookup keyword with
  | none => simpa [namedMembers, hl] using hpos
  | some v =>
      have hsize := Schema.sizeOf_lookup hl
      cases v with
      | object named =>
          rw [Json.object.sizeOf_spec] at hsize
          simp only [namedMembers, hl, Option.bind_some, Json.members?, Option.getD_some]
          omega
      | _ => simpa [namedMembers, hl, Json.members?] using hpos

theorem exists_of_mem_namedMembers {ms : Members} {keyword : String} {entry : String × Json}
    (h : entry ∈ namedMembers ms keyword) :
    ∃ named, ms.lookup keyword = some (.object named) ∧ entry ∈ named := by
  unfold namedMembers at h
  cases hl : ms.lookup keyword with
  | none =>
      rw [hl] at h
      cases h
  | some v =>
      rw [hl] at h
      cases v with
      | object named => exact ⟨named, rfl, h⟩
      | _ => cases h

theorem ends_add {kind : Kind} {done : NodeId → Builder → Prop}
    {failed : CompileError → Builder → Prop} : Ends (add kind) s done failed ↔
      done s.graph.size { s with graph := (s.graph.add { kind }).2 } := Iff.rfl

/-- The interface of an object schema where definitions without a reference are dropped. -/
theorem interface_of_reachable (h : ctx.options.unreachableDefinitions = false)
    (path : List Fragment) (id : Fragment) (ms : Members) (parent : String) :
    interface ctx path id ms parent = (do
      let properties ← visitNamed ctx path id "properties" (fun _ => none)
        (namedMembers ms "properties")
      let patterns ← visitNamed ctx path id "patternProperties"
        (fun p => some (patternNote parent p)) (namedMembers ms "patternProperties")
      let index ← indexOf ctx path id (singlePattern ms (namedMembers ms "patternProperties"))
        (ms.lookup "additionalProperties")
      let supers ← supersOf ctx path id (ms.lookup "tsExtends")
      return .interface (interfaceMembers ms properties patterns [] index) supers) := by
  rw [interface]
  simp only [visitDefinitions, h, Bool.false_eq_true, if_false, visitEach_eq, visitIndex_eq,
    visitExtends_eq, pure_bind, List.append_nil]

end Steps

/-! ## Growth of the state -/

/-- What is never lost. A built node only changes its comment. -/
structure Keeps (s t : Builder) : Prop where
  size : s.graph.size ≤ t.graph.size
  built : ∀ i node, s.graph.get? i = some node →
    ∃ comment, t.graph.get? i = some { node with comment }
  processed : ∀ id i, s.processed.lookup id = some i → t.processed.lookup id = some i
  references : ∀ name i, s.references.lookup name = some i → t.references.lookup name = some i
  needsName : ∀ i ∈ s.needsName, i ∈ t.needsName
  usedNames : ∀ name ∈ s.usedNames, name ∈ t.usedNames

theorem Keeps.refl (s : Builder) : Keeps s s where
  size := Nat.le_refl _
  built _ node h := ⟨node.comment, h⟩
  processed _ _ h := h
  references _ _ h := h
  needsName _ h := h
  usedNames _ h := h

theorem Keeps.trans {u : Builder} (h : Keeps s t) (h' : Keeps t u) : Keeps s u where
  size := Nat.le_trans h.size h'.size
  built i node hn := by
    obtain ⟨_, hn⟩ := h.built i node hn
    obtain ⟨comment, hn⟩ := h'.built i _ hn
    exact ⟨comment, hn⟩
  processed id i hl := h'.processed id i (h.processed id i hl)
  references name i hl := h'.references name i (h.references name i hl)
  needsName i hi := h'.needsName i (h.needsName i hi)
  usedNames name hname := h'.usedNames name (h.usedNames name hname)

/-- What a whole step leaves alone. A reserved slot is filled by the step that reserved it, and the
names of new nodes are new. -/
structure Grows (s t : Builder) : Prop extends Keeps s t where
  unbuilt : ∀ i, i < s.graph.size → s.graph.get? i = none → t.graph.get? i = none
  names : ∀ i node name, s.graph.size ≤ i → t.graph.get? i = some node → node.name = some name →
    name ∉ s.usedNames

theorem Grows.refl (s : Builder) : Grows s s where
  toKeeps := .refl s
  unbuilt _ _ h := h
  names i node _ hi hn := by rw [s.graph.get?_eq_none_of_size_le hi] at hn; cases hn

/-- Two nodes that differ at most in their comment and key. -/
def Alike (old node : Node) : Prop := node.kind = old.kind ∧ node.name = old.name

/-- A slot that is built later was built before, with the same kind and name, or is new. -/
theorem Grows.of_built (h : Grows s t) {i : NodeId} {node : Node}
    (hn : t.graph.get? i = some node) :
    (∃ old, s.graph.get? i = some old ∧ Alike old node) ∨ s.graph.size ≤ i := by
  cases hs : s.graph.get? i with
  | some old =>
      obtain ⟨comment, hnew⟩ := h.built i old hs
      rw [hn] at hnew
      obtain rfl := Option.some.inj hnew
      exact .inl ⟨old, rfl, rfl, rfl⟩
  | none =>
      refine .inr (Nat.le_of_not_lt fun hi => ?_)
      rw [h.unbuilt i hi hs] at hn
      cases hn

theorem Grows.trans {u : Builder} (h : Grows s t) (h' : Grows t u) : Grows s u where
  toKeeps := h.toKeeps.trans h'.toKeeps
  unbuilt i hi hn := h'.unbuilt i (Nat.lt_of_lt_of_le hi h.size) (h.unbuilt i hi hn)
  names i node name hi hn hname := by
    rcases h'.of_built hn with ⟨old, hold, -, hsame⟩ | hi'
    · exact h.names i old name hi hold (hsame ▸ hname)
    · exact fun hmem => h'.names i node name hi' hn hname (h.usedNames name hmem)

/-- A node that may be a child: one that is not finished gets a name when it is. -/
def Known (s : Builder) (i : NodeId) : Prop :=
  i < s.graph.size ∧ (s.graph.get? i = none → i ∈ s.needsName)

theorem Known.keeps {i : NodeId} (h : Known s i) (hg : Keeps s t) : Known t i := by
  refine ⟨Nat.lt_of_lt_of_le h.1 hg.size, fun hn => hg.needsName i (h.2 ?_)⟩
  cases hs : s.graph.get? i with
  | none => rfl
  | some node =>
      obtain ⟨_, ht⟩ := hg.built i node hs
      rw [hn] at ht
      cases ht

theorem Known.of_built {i : NodeId} {node : Node} (h : s.graph.get? i = some node) : Known s i :=
  ⟨s.graph.lt_size_of_get? h, fun hn => by rw [hn] at h; cases h⟩

/-- A node without a name, of a kind without parts. -/
def Leaf (s : Builder) (kind : Kind) (i : NodeId) : Prop :=
  ∃ node, s.graph.get? i = some node ∧ node.name = none ∧ node.kind = kind

theorem Leaf.keeps {kind : Kind} {i : NodeId} (h : Leaf s kind i) (hg : Keeps s t) :
    Leaf t kind i := by
  obtain ⟨node, hn, hname, hkind⟩ := h
  obtain ⟨_, hn⟩ := hg.built i node hn
  exact ⟨_, hn, hname, hkind⟩

theorem Keeps.namedInterface {i : NodeId} (hg : Keeps s t) (h : s.graph.NamedInterface i) :
    t.graph.NamedInterface i := by
  obtain ⟨node, members, supers, hn, hname, hkind⟩ := h
  obtain ⟨_, hn⟩ := hg.built i node hn
  exact ⟨_, members, supers, hn, hname, hkind⟩

theorem Keeps.plainLiteral {i : NodeId} (hg : Keeps s t) (h : s.graph.PlainLiteral i) :
    t.graph.PlainLiteral i := by
  obtain ⟨node, value, hn, hname, hkind⟩ := h
  obtain ⟨_, hn⟩ := hg.built i node hn
  exact ⟨_, value, hn, hname, hkind⟩

/-! ## What nodes stand for -/

/-- A request for the node of the fragment at a site. -/
structure Request where
  site : Fragment
  key : Option String := none
  isRoot : Bool := false

/-- The request that a compile makes. -/
def Request.root : Request := { site := .root, isRoot := true }

/-- A schema that a build may come to: one at a requested site or where a reference points, a part
of such a schema, or an entry of its `type` list. -/
inductive Occurs (ctx : BuildContext) (asked : Request → Prop) : Fragment → Json → Prop
  | site {r : Request} {schema : Json} (hr : asked r)
      (h : ctx.schemas.get? r.site = some schema) : Occurs ctx asked r.site schema
  | target {id : Fragment} {schema : Json} (ht : id ∈ ctx.schemas.targets)
      (h : ctx.schemas.get? id = some schema) : Occurs ctx asked id schema
  | part {id : Fragment} {ms : Members} {steps : List String} {value : Json}
      (h : Occurs ctx asked id (.object ms)) (hp : Schema.Part ms steps value) :
      Occurs ctx asked (below id steps) value
  | variant {id : Fragment} {schema : Json} (v : Option Nat) (h : Occurs ctx asked id schema)
      (hr : ctx.schemas.refs.lookup id = none) : Occurs ctx asked { id with variant := v } schema

/-- A fragment that a build may come to, with the key of the property under which it comes to it,
and whether it comes to it as the root. A reference hands both on to its target. -/
inductive Met (ctx : BuildContext) (asked : Request → Prop) :
    Fragment → Option String → Bool → Prop
  | site {r : Request} (hr : asked r) : Met ctx asked r.site r.key r.isRoot
  | part (id : Fragment) (steps : List String) : Met ctx asked (below id steps) none false
  | entry {id : Fragment} {ms named : Members} {keyword key : String} {value : Json}
      (h : Occurs ctx asked id (.object ms)) (hk : (keyword, .byName) ∈ Schema.keywords)
      (hl : ms.lookup keyword = some (.object named)) (hm : (key, value) ∈ named) :
      Met ctx asked (below id [keyword, key]) (some key) false
  | target {site id : Fragment} {key : Option String} {isRoot : Bool}
      (h : Met ctx asked site key isRoot)
      (hr : ctx.schemas.resolve site = .ok (.fragment id)) : Met ctx asked id key isRoot
  | variant {id : Fragment} {key : Option String} {isRoot : Bool} (v : Option Nat)
      (h : Met ctx asked id key isRoot) : Met ctx asked { id with variant := v } key false

section Parts

open Schema (keywords)

variable {ctx : BuildContext} {asked : Request → Prop} {id : Fragment} {ms : Members}
  {keyword : String} {value : Json}

theorem Occurs.member {shape : Schema.Shape} (h : Occurs ctx asked id (.object ms))
    (hk : (keyword, shape) ∈ keywords) (hp : ([], value) ∈ shape.parts value)
    (hl : ms.lookup keyword = some value) : Occurs ctx asked (Build.below id [keyword]) value :=
  h.part ⟨keyword, shape, value, [], hk, hl, hp, rfl⟩

theorem Occurs.entry {named : Members} {key : String} (h : Occurs ctx asked id (.object ms))
    (hk : (keyword, .byName) ∈ keywords) (hl : ms.lookup keyword = some (.object named))
    (hm : (key, value) ∈ named) : Occurs ctx asked (Build.below id [keyword, key]) value :=
  h.part ⟨keyword, .byName, .object named, [key], hk, hl, List.mem_map_of_mem hm, rfl⟩

theorem Occurs.item {items : List Json} {i : Nat} (h : Occurs ctx asked id (.object ms))
    (hk : (keyword, .list) ∈ keywords ∨ (keyword, .oneOrList) ∈ keywords)
    (hl : ms.lookup keyword = some (.array items)) (hi : items[i]? = some value) :
    Occurs ctx asked (Build.below id [keyword, toString i]) value := by
  have hmem := Schema.Shape.mem_indexed hi 0
  rw [Nat.zero_add] at hmem
  rcases hk with hk | hk
  · exact h.part ⟨keyword, _, .array items, [toString i], hk, hl, hmem, rfl⟩
  · exact h.part ⟨keyword, _, .array items, [toString i], hk, hl, hmem, rfl⟩

end Parts

/-- The node that was made for what the references from a site lead to. -/
def Finds (ctx : BuildContext) (s : Builder) (site : Fragment) (i : NodeId) : Prop :=
  match ctx.schemas.resolve site with
  | .ok (.fragment id) => s.processed.lookup id = some i
  | .ok (.external name) => s.references.lookup name = some i
  | .error _ => False

theorem Finds.keeps {ctx : BuildContext} {site : Fragment} {i : NodeId} (h : Finds ctx s site i)
    (hg : Keeps s t) : Finds ctx t site i := by
  unfold Finds at h ⊢
  split at h
  · exact hg.processed _ _ h
  · exact hg.references _ _ h
  · exact h.elim

/-- Where the items of a keyword stand, from the index `start` on. -/
def itemSites (id : Fragment) (keyword : String) (start : Nat) (items : List Json) :
    List Fragment :=
  (items.zipIdx start).map fun (_, i) => below id [keyword, toString i]

/-- Where the super types of an object schema stand. -/
def superSites (id : Fragment) (ms : Members) : List Fragment :=
  match ms.lookup "tsExtends" with
  | some (.array targets) => itemSites id "tsExtends" 0 targets
  | some (.object _) => [below id ["tsExtends"]]
  | _ => []

/-- The nodes of the schemas that a keyword holds by name. -/
def FindsEach (ctx : BuildContext) (s : Builder) (id : Fragment) (ms : Members) (keyword : String)
    (found : List (String × NodeId)) : Prop :=
  match ms.lookup keyword with
  | some (.object named) =>
    List.Forall₂ (fun entry member => member.1 = entry.1 ∧
      Finds ctx s (below id [keyword, entry.1]) member.2) named found
  | _ => found = []

/-- The nodes of the definitions under a keyword, if those without a reference are kept. -/
def FindsDefinitions (ctx : BuildContext) (s : Builder) (id : Fragment) (ms : Members)
    (keyword : String) (found : List (String × NodeId)) : Prop :=
  if ctx.options.unreachableDefinitions then FindsEach ctx s id ms keyword found else found = []

/-- The index signature of an interface. -/
def FindsIndex (ctx : BuildContext) (s : Builder) (id : Fragment) (ms : Members)
    (index : List InterfaceMember) : Prop :=
  match ms.lookup "additionalProperties" with
  | some (.bool false) => index = []
  | some (.object _) =>
    ∃ node, Finds ctx s (below id ["additionalProperties"]) node ∧
      index = [{ key := indexSignature, node, required := true }]
  | _ =>
    if singlePattern ms (namedMembers ms "patternProperties") then index = []
    else ∃ node, Leaf s .any node ∧ index = [{ key := indexSignature, node, required := true }]

/-- The interface of an object schema. -/
def DescribesInterface (ctx : BuildContext) (s : Builder) (id : Fragment) (ms : Members)
    (kind : Kind) : Prop :=
  ∃ properties patterns definitions defs index supers,
    kind = .interface (interfaceMembers ms properties patterns (definitions ++ defs) index) supers ∧
    FindsEach ctx s id ms "properties" properties ∧
    FindsEach ctx s id ms "patternProperties" patterns ∧
    FindsDefinitions ctx s id ms "definitions" definitions ∧
    FindsDefinitions ctx s id ms "$defs" defs ∧
    FindsIndex ctx s id ms index ∧
    List.Forall₂ (Finds ctx s) (superSites id ms) supers

/-- The enum or the union of a list of values. -/
def DescribesEnum (s : Builder) (ms : Members) (values : List Json) (kind : Kind) : Prop :=
  match (ms.lookup "tsEnumNames").bind Json.items? with
  | some names =>
    ∃ nodes, List.Forall₂ (fun value node => Leaf s (.literal value) node)
        ((names.zip values).map (·.2)) nodes ∧
      kind = .enum (((names.zip values).zip nodes).map fun ((key, _), node) =>
        ⟨key.string?.getD "", node⟩)
  | none =>
    ∃ nodes, List.Forall₂ (fun value node => Leaf s (.literal value) node) values nodes ∧
      (kind = .union nodes ∨
        kind = .enum (((valueKeys values).zip nodes).map fun (key, node) => ⟨key, node⟩))

/-- A kind is what the form of a schema says, with the nodes of its parts. -/
def Describes (ctx : BuildContext) (s : Builder) (id : Fragment) (schema : Json) (kind : Kind) :
    Prop :=
  match Schema.form ctx.options.unreachableDefinitions id.variant schema with
  | .any => kind = .any
  | .never => kind = .customType "never"
  | .verbatim text => kind = .customType text
  | .allOf items =>
    ∃ cs, kind = .intersection cs ∧ List.Forall₂ (Finds ctx s) (itemSites id "allOf" 0 items) cs
  | .someOf keyword items =>
    ∃ cs, kind = .union cs ∧ List.Forall₂ (Finds ctx s) (itemSites id keyword 0 items) cs
  | .branches count =>
    ∃ cs, kind = .union cs ∧
      List.Forall₂ (Finds ctx s) ((List.range count).map fun i => { id with variant := some i }) cs
  | .null => kind = .null
  | .tuple items =>
    ∃ cs, kind = .tuple cs ∧ List.Forall₂ (Finds ctx s) (itemSites id "items" 0 items) cs
  | .listOf _ => ∃ c, kind = .array c ∧ Finds ctx s (below id ["items"]) c
  | .enumeration values => DescribesEnum s (schema.members?.getD []) values kind
  | .constant value => kind = .literal value
  | .string => kind = .string
  | .number => kind = .number
  | .boolean => kind = .boolean
  | .anyList => ∃ c, kind = .array c ∧ Leaf s .any c
  | .object => kind = .object
  | .interface ms => DescribesInterface ctx s id ms kind
  | .invalid => False

section Cases

variable {ctx : BuildContext} {id : Fragment} {ms : Members} {values : List Json} {kind : Kind}

theorem DescribesInterface.exists_interface (h : DescribesInterface ctx s id ms kind) :
    ∃ members supers, kind = .interface members supers := by
  obtain ⟨_, _, _, _, _, _, hkind, -⟩ := h
  exact ⟨_, _, hkind⟩

theorem DescribesEnum.enum_or_union (h : DescribesEnum s ms values kind) :
    (∃ members, kind = .enum members) ∨ ∃ nodes, kind = .union nodes := by
  unfold DescribesEnum at h
  split at h
  · obtain ⟨_, -, hkind⟩ := h
    exact .inl ⟨_, hkind⟩
  · obtain ⟨_, -, hkind | hkind⟩ := h
    · exact .inr ⟨_, hkind⟩
    · exact .inl ⟨_, hkind⟩

/-- Interfaces are described as such, enums as lists of values, and no form describes a reference. -/
theorem Describes.cases {schema : Json} (h : Describes ctx s id schema kind) :
    (∃ ms, Schema.form ctx.options.unreachableDefinitions id.variant schema = .interface ms ∧
      DescribesInterface ctx s id ms kind) ∨
    (∃ values, Schema.form ctx.options.unreachableDefinitions id.variant schema =
        .enumeration values ∧ DescribesEnum s (schema.members?.getD []) values kind) ∨
    (∀ members supers, kind ≠ .interface members supers) ∧ (∀ members, kind ≠ .enum members) ∧
      ∀ text, kind ≠ .reference text := by
  unfold Describes at h
  split at h
  case h_10 values hform => exact .inr (.inl ⟨values, hform, h⟩)
  case h_17 ms hform => exact .inl ⟨ms, hform, h⟩
  case h_18 => exact h.elim
  case h_4 | h_5 | h_6 | h_8 | h_9 | h_15 =>
    obtain ⟨_, rfl, -⟩ := h
    exact .inr (.inr ⟨nofun, nofun, nofun⟩)
  all_goals
    subst h
    exact .inr (.inr ⟨nofun, nofun, nofun⟩)

end Cases

section Growth

variable {ctx : BuildContext} {id : Fragment} {ms : Members} {kind : Kind}

theorem forall₂_finds_keeps {sites : List Fragment} {cs : List NodeId}
    (h : List.Forall₂ (Finds ctx s) sites cs) (hg : Keeps s t) :
    List.Forall₂ (Finds ctx t) sites cs :=
  h.imp fun _ _ h => h.keeps hg

theorem FindsEach.keeps {keyword : String} {found : List (String × NodeId)}
    (h : FindsEach ctx s id ms keyword found) (hg : Keeps s t) :
    FindsEach ctx t id ms keyword found := by
  unfold FindsEach at h ⊢
  split at h
  · exact h.imp fun _ _ h => ⟨h.1, h.2.keeps hg⟩
  · exact h

theorem FindsDefinitions.keeps {keyword : String} {found : List (String × NodeId)}
    (h : FindsDefinitions ctx s id ms keyword found) (hg : Keeps s t) :
    FindsDefinitions ctx t id ms keyword found := by
  unfold FindsDefinitions at h ⊢
  split at h
  · rw [if_pos ‹_›]
    exact FindsEach.keeps h hg
  · rwa [if_neg ‹_›]

theorem FindsIndex.keeps {index : List InterfaceMember} (h : FindsIndex ctx s id ms index)
    (hg : Keeps s t) : FindsIndex ctx t id ms index := by
  unfold FindsIndex at h ⊢
  split at h
  · exact h
  · obtain ⟨node, hf, rfl⟩ := h
    exact ⟨node, hf.keeps hg, rfl⟩
  · split at h
    · rwa [if_pos ‹_›]
    · obtain ⟨node, hl, rfl⟩ := h
      rw [if_neg ‹_›]
      exact ⟨node, hl.keeps hg, rfl⟩

theorem DescribesInterface.keeps (h : DescribesInterface ctx s id ms kind) (hg : Keeps s t) :
    DescribesInterface ctx t id ms kind := by
  obtain ⟨properties, patterns, definitions, defs, index, supers, hk, hp, hpat, hd, hd', hi, hs⟩ := h
  exact ⟨properties, patterns, definitions, defs, index, supers, hk, hp.keeps hg, hpat.keeps hg,
    hd.keeps hg, hd'.keeps hg, hi.keeps hg, forall₂_finds_keeps hs hg⟩

theorem DescribesEnum.keeps {values : List Json} (h : DescribesEnum s ms values kind)
    (hg : Keeps s t) : DescribesEnum t ms values kind := by
  unfold DescribesEnum at h ⊢
  split at h
  · obtain ⟨nodes, hn, hk⟩ := h
    exact ⟨nodes, hn.imp fun _ _ h => h.keeps hg, hk⟩
  · obtain ⟨nodes, hn, hk⟩ := h
    exact ⟨nodes, hn.imp fun _ _ h => h.keeps hg, hk⟩

theorem Describes.keeps {schema : Json} (h : Describes ctx s id schema kind) (hg : Keeps s t) :
    Describes ctx t id schema kind := by
  unfold Describes at h ⊢
  split at h
  case h_4 | h_5 | h_6 | h_8 =>
    obtain ⟨cs, hk, hf⟩ := h
    exact ⟨cs, hk, forall₂_finds_keeps hf hg⟩
  case h_9 =>
    obtain ⟨c, hk, hf⟩ := h
    exact ⟨c, hk, hf.keeps hg⟩
  case h_10 => exact h.keeps hg
  case h_15 =>
    obtain ⟨c, hk, hl⟩ := h
    exact ⟨c, hk, hl.keeps hg⟩
  case h_17 => exact h.keeps hg
  all_goals exact h

end Growth

end Build

end Typewright
