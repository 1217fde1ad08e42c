import Typewright.Identifier.Basic
import Typewright.Graph.Load
import Typewright.Schema.Form
import Typewright.TypeGraph.Basic

/-!
# Type graphs from schema graphs

One node is built for each fragment. Its slot is reserved and recorded before its parts are visited,
so a part that leads back to a fragment under construction gets the number of its slot. Such a
fragment always gets a name, which is how its type can refer to itself.

The recursion ends without a limit: `path` holds the fragments under construction, and each step
either takes a further reference target, a smaller schema or a further entry of a `type` list.
-/

namespace Typewright

/-- What has been built so far. -/
structure Builder where
  graph : TypeGraph := {}
  /-- The nodes of the fragments that were visited. -/
  processed : List (Fragment × NodeId) := []
  usedNames : List String := []
  /-- Nodes whose parts are not finished. -/
  inProgress : List NodeId := []
  /-- Unfinished nodes that one of their parts leads back to. -/
  needsName : List NodeId := []
  /-- The nodes of references that are not loaded. -/
  references : List (String × NodeId) := []
deriving Repr

/-- What a build reads. -/
structure BuildContext where
  schemas : SchemaGraph
  rootName : String
  options : Options

/-- A step of a build, which keeps its state when it fails. -/
abbrev Build := ExceptT CompileError (StateM Builder)

namespace Build

/-! ## Nodes, names and comments -/

/-- The number of a new slot. -/
def reserve : Build NodeId := do
  let s ← get
  set { s with graph := s.graph.reserve.2 }
  return s.graph.reserve.1

/-- The number of a new node of some kind. -/
def add (kind : Kind) : Build NodeId := do
  let s ← get
  set { s with graph := (s.graph.add { kind }).2 }
  return (s.graph.add { kind }).1

/-- The number of a new node for each of a list of literals. -/
def addLiterals (values : List Json) : Build (List NodeId) :=
  values.mapM fun v => add (.literal v)

/-- A name that is not used yet. -/
def freshName (hint : String) : Build String := do
  let s ← get
  let (name, usedNames) := Identifier.reserve hint s.usedNames
  set { s with usedNames }
  return name

/-- The node of a reference that is not loaded, one for each name. -/
def external (name : String) : Build NodeId := do
  match (← get).references.lookup name with
  | some node => return node
  | none =>
    let text := Identifier.sanitize name
    let node ← add (.reference (if text.isEmpty then "unknown" else text))
    modify fun s => { s with references := s.references ++ [(name, node)] }
    return node

/-- Appends a paragraph to the comment of a node; one that is not built yet stays as it is. -/
def appendComment (node : NodeId) (extra : String) : Build Unit :=
  modify fun s =>
    { s with
      graph := s.graph.modify node fun n =>
        { n with
          comment := some (match n.comment with
            | some comment => comment ++ "\n\n" ++ extra
            | none => extra) } }

/-- Records the slot of a fragment whose parts come next. -/
def start (id : Fragment) : Build NodeId := do
  let node ← reserve
  modify fun s =>
    { s with processed := (id, node) :: s.processed, inProgress := node :: s.inProgress }
  return node

/-- Marks the node of a fragment as reached from its own parts, if it is unfinished. -/
def markReached (node : NodeId) : Build Unit :=
  modify fun s =>
    if node ∈ s.inProgress then { s with needsName := node :: s.needsName } else s

/-- The name of a node whose parts are finished: one that is reached from its own parts gets a name
if it has none. -/
def finishName (node : NodeId) (name : Option String) (key : Option String) :
    Build (Option String) := do
  modify fun s => { s with inProgress := s.inProgress.filter (· != node) }
  match name with
  | some name => return some name
  | none =>
    if node ∈ (← get).needsName then return some (← freshName (key.getD "Recursive"))
    else return none

/-! ## Names of fragments -/

/-- The text that a fragment is named after: its title, the key of its definition, the name of the
root, the key of a property with named enum values, or the stem of its file. The entries of a `type`
list are not named. -/
def nameHint (ctx : BuildContext) (id : Fragment) (schema : Json) (key : Option String)
    (isRoot : Bool) : Option String :=
  if id.variant.isSome then none
  else
    match (schema.member? "title").bind Json.string? with
    | some title => some title
    | none =>
      let segments := Pointer.split id.pointer
      match segments.reverse with
      | last :: parent :: _ =>
        if parent == "definitions" || parent == "$defs" then some last else atPosition segments
      | _ => atPosition segments
where
  /-- The name of a fragment that has no title and is no definition. -/
  atPosition (segments : List String) : Option String :=
    if isRoot then some ctx.rootName
    else if (schema.member? "tsEnumNames").isSome && key.isSome then key
    else if id.document != 0 && segments.isEmpty then
      (ctx.schemas.documents[id.document]?).bind Document.stem?
    else none

/-- The description of a fragment; that of a `type` list belongs to its entries together. -/
def description (id : Fragment) (schema : Json) : Option String :=
  if id.variant.isSome then none else (schema.member? "description").bind Json.string?

/-! ## Enums -/

/-- The keys of enum values under a name, each made of its value. -/
def valueKeys (values : List Json) : List String :=
  (values.foldl
    (fun (keys, used) value =>
      let text := value.string?.getD value.text
      let raw := if (Identifier.sanitize text).isEmpty then "value " ++ text else text
      let (key, used) := Identifier.reserve raw used
      (keys ++ [key], used))
    (([], []) : List String × List String)).1

/-- An enum with the keys of `tsEnumNames`, or with keys made of its values if it has a name and its
values are strings and numbers; otherwise the union of its values. -/
def enumKind (ms : Members) (values : List Json) (name : Option String) : Build Kind :=
  match (ms.lookup "tsEnumNames").bind Json.items? with
  | some names => do
    let pairs := names.zip values
    let nodes ← addLiterals (pairs.map (·.2))
    return .enum ((pairs.zip nodes).map fun ((key, _), node) => ⟨key.string?.getD "", node⟩)
  | none => do
    let nodes ← addLiterals values
    if name.isSome && values.all fun v => v.isString || v.isNumber then
      return .enum (((valueKeys values).zip nodes).map fun (key, node) => ⟨key, node⟩)
    else return .union nodes

/-! ## Interfaces -/

/-- The members that an object schema requires. -/
def requiredKeys (ms : Members) : List String :=
  (((ms.lookup "required").bind Json.items?).getD []).filterMap Json.string?

def patternNote (parent pattern : String) : String :=
  "This interface was referenced by \x60" ++ parent ++ "\x60's JSON-Schema definition\n" ++
  "via the \x60patternProperty\x60 \"" ++ pattern ++ "\"."

def definitionNote (parent key : String) : String :=
  "This interface was referenced by \x60" ++ parent ++ "\x60's JSON-Schema\n" ++
  "via the \x60definition\x60 \"" ++ key ++ "\"."

/-- Whether a single pattern is the index signature of an interface. -/
def singlePattern (ms patterns : Members) : Bool :=
  patterns.length == 1 &&
    (match ms.lookup "additionalProperties" with
      | none | some (.bool false) => true
      | _ => false)

/-- The members of a keyword that holds schemas by name. -/
def namedMembers (ms : Members) (keyword : String) : Members :=
  ((ms.lookup keyword).bind Json.members?).getD []

/-- The members of an interface with nodes for its properties, patterns, definitions and index
signature, in this order. -/
def interfaceMembers (ms : Members) (properties patterns definitions : List (String × NodeId))
    (index : List InterfaceMember) : List InterfaceMember :=
  let required := requiredKeys ms
  let single := singlePattern ms (namedMembers ms "patternProperties")
  (properties.map fun (key, node) => { key, node, required := key ∈ required }) ++
  (patterns.map fun (key, node) =>
    { key := if single then indexSignature else key, node,
      required := single || key ∈ required, pattern := !single }) ++
  (definitions.map fun (key, node) =>
    { key, node, required := key ∈ required, unreachable := true }) ++
  index

/-- A super type is a finished interface with a name. -/
def checkSuper (site : Fragment) (node : NodeId) : Build Unit := do
  match (← get).graph.get? node with
  | none => throw (.schema site.pointer .extendsUnfinished)
  | some n =>
    match n.kind, n.name with
    | .interface _ _, some _ => return ()
    | _, _ => throw (.schema site.pointer .extendsUnnamed)

/-! ## The measure -/

/-- The fragment one or more steps below a schema. -/
def below (id : Fragment) (segments : List String) : Fragment :=
  ⟨id.document, Pointer.build id.pointer segments, none⟩

/-- The reference targets that are not under construction. -/
def remaining (ctx : BuildContext) (path : List Fragment) : Nat :=
  (ctx.schemas.targets.filter fun t => t ∉ path).length

/-- The entries of a schema's `type` list, and the schema itself, that are not under construction.
-/
def openVariants (path : List Fragment) (id : Fragment) (schema : Json) : Nat :=
  ((Schema.variants schema).filter fun v => { id with variant := v } ∉ path).length

theorem length_filter_le_of_imp {α : Type} {p q : α → Bool} {l : List α}
    (h : ∀ a ∈ l, p a = true → q a = true) : (l.filter p).length ≤ (l.filter q).length := by
  induction l with
  | nil => simp
  | cons a l ih =>
    have ih := ih fun b hb => h b (List.mem_cons_of_mem _ hb)
    have ha := h a (by simp)
    by_cases hp : p a = true
    · simp [hp, ha hp, ih]
    · by_cases hq : q a = true <;> simp [hp, hq] <;> omega

theorem length_filter_lt_of_mem {α : Type} {p q : α → Bool} {l : List α} {a : α}
    (h : ∀ a ∈ l, p a = true → q a = true) (ha : a ∈ l) (hq : q a = true) (hp : p a = false) :
    (l.filter p).length < (l.filter q).length := by
  induction l with
  | nil => simp at ha
  | cons b l ih =>
    have hb := h b (by simp)
    have hl : ∀ c ∈ l, p c = true → q c = true := fun c hc => h c (List.mem_cons_of_mem _ hc)
    rcases List.mem_cons.1 ha with rfl | ha
    · have := length_filter_le_of_imp hl
      simp [hp, hq]; omega
    · have ih := ih hl ha
      by_cases hpb : p b = true
      · simp [hpb, hb hpb, ih]
      · by_cases hqb : q b = true <;> simp [hpb, hqb] <;> omega

theorem remaining_cons_le (ctx : BuildContext) (id : Fragment) (path : List Fragment) :
    remaining ctx (id :: path) ≤ remaining ctx path :=
  length_filter_le_of_imp fun a _ h => by simp_all

theorem remaining_cons_lt {ctx : BuildContext} {id : Fragment} {path : List Fragment}
    (ht : id ∈ ctx.schemas.targets) (hp : id ∉ path) :
    remaining ctx (id :: path) < remaining ctx path :=
  length_filter_lt_of_mem (fun a _ h => by simp_all) ht (by simpa using hp) (by simp)

theorem openVariants_cons_lt {id : Fragment} {path : List Fragment} {schema : Json}
    (hv : id.variant ∈ Schema.variants schema) (hp : id ∉ path) :
    openVariants (id :: path) id schema < openVariants path id schema :=
  length_filter_lt_of_mem (a := id.variant) (fun a _ h => by simp_all) hv (by simpa using hp)
    (by simp)

theorem lex_of_le {a a' : Nat} {β : Type} {r : β → β → Prop} {b b' : β} (h : a ≤ a')
    (hb : r b b') : Prod.Lex (· < ·) r (a, b) (a', b') := by
  rcases Nat.lt_or_eq_of_le h with h | rfl
  · exact .left _ _ h
  · exact .right _ hb

/-! ## Building -/

mutual
/-- The node of the fragment at `site`, whose value there is `schema`, after following its
references. A fragment that was visited before keeps its node.

A fragment on the path is always recorded, so the second test never fails; it shows that the path
grows by a new fragment. -/
def visit (ctx : BuildContext) (path : List Fragment) (site : Fragment) (schema : Json)
    (key : Option String) (isRoot : Bool) : Build NodeId := do
  match _hr : ctx.schemas.resolve site with
  | .error e => throw e
  | .ok (.external name) => external name
  | .ok (.fragment id) =>
    match (← get).processed.lookup id with
    | some node =>
      markReached node
      return node
    | none =>
      if hp : id ∈ path then throw (.schema id.pointer (.fragmentMissing id))
      else if _hs : id = site then build ctx path id schema key isRoot hp
      else
        match ctx.schemas.get? id with
        | none => throw (.schema id.pointer (.fragmentMissing id))
        | some schema => build ctx path id schema key isRoot hp
termination_by (remaining ctx path, sizeOf schema, openVariants path site schema, 3)
decreasing_by
  · subst _hs
    exact lex_of_le (remaining_cons_le ctx _ path) (.right _ (.right _ (by omega)))
  · exact .left _ _ (remaining_cons_lt ((ctx.schemas.resolve_eq_or_mem _hr).resolve_left _hs) hp)

/-- Builds the node of a fragment that is no reference and was not visited before. -/
def build (ctx : BuildContext) (path : List Fragment) (id : Fragment) (schema : Json)
    (key : Option String) (isRoot : Bool) (hp : id ∉ path) : Build NodeId := do
  if hv : id.variant ∈ Schema.variants schema then
    let node ← start id
    let name ← (nameHint ctx id schema key isRoot).mapM freshName
    let kind ← parts ctx path id schema name key hp hv
    let name ← finishName node name key
    let comment := description id schema
    modify fun s => { s with graph := s.graph.fill node { kind, name, comment, key } }
    return node
  else throw (.schema id.pointer (.branchMissing (id.variant.getD 0)))
termination_by
  (remaining ctx (id :: path), sizeOf schema, openVariants path id schema, 2)
decreasing_by exact .right _ (.right _ (.right _ (by omega)))

/-- The kind of a fragment, with nodes for its parts. -/
def parts (ctx : BuildContext) (path : List Fragment) (id : Fragment) (schema : Json)
    (name key : Option String) (_hp : id ∉ path) (_hv : id.variant ∈ Schema.variants schema) :
    Build Kind := do
  let path' := id :: path
  match _hf : Schema.form ctx.options.unreachableDefinitions id.variant schema with
  | .any => return .any
  | .never => return .customType "never"
  | .verbatim text => return .customType text
  | .allOf items => return .intersection (← visitItems ctx path' id "allOf" 0 items)
  | .someOf keyword items => return .union (← visitItems ctx path' id keyword 0 items)
  | .branches count => return .union (← visitBranches ctx path' id schema key (List.range count))
  | .null => return .null
  | .tuple items => return .tuple (← visitItems ctx path' id "items" 0 items)
  | .listOf item => return .array (← visit ctx path' (below id ["items"]) item none false)
  | .enumeration values => enumKind (schema.members?.getD []) values name
  | .constant value => return .literal value
  | .string => return .string
  | .number => return .number
  | .boolean => return .boolean
  | .anyList => return .array (← add .any)
  | .object => return .object
  | .interface ms => interface ctx path' id ms ((name <|> key).getD ctx.rootName)
  | .invalid => throw (.schema id.pointer (.notSchema schema.text))
termination_by
  (remaining ctx (id :: path), sizeOf schema, openVariants path id schema, 1)
decreasing_by
  all_goals
    have hsize := Schema.partSize_form ctx.options.unreachableDefinitions id.variant schema
    rw [_hf] at hsize
    simp only [Schema.Form.partSize] at hsize
  · exact .right _ (.left _ _ hsize)
  · exact .right _ (.left _ _ hsize)
  · exact .right _ (.right _ (.left _ _ (openVariants_cons_lt _hv _hp)))
  · exact .right _ (.left _ _ hsize)
  · exact .right _ (.left _ _ hsize)
  · exact .right _ (.left _ _ hsize)

/-- The nodes of a keyword's list of schemas, from the index `start` on. -/
def visitItems (ctx : BuildContext) (path : List Fragment) (id : Fragment) (keyword : String)
    (start : Nat) (items : List Json) : Build (List NodeId) := do
  match items with
  | [] => return []
  | item :: rest =>
    let node ← visit ctx path (below id [keyword, toString start]) item none false
    let nodes ← visitItems ctx path id keyword (start + 1) rest
    return node :: nodes
termination_by (remaining ctx path, sizeOf items, 0, 0)
decreasing_by
  · exact .right _ (.left _ _ (by simp only [List.cons.sizeOf_spec]; omega))
  · exact .right _ (.left _ _ (by simp only [List.cons.sizeOf_spec]; omega))

/-- The nodes of some entries of a `type` list. -/
def visitBranches (ctx : BuildContext) (path : List Fragment) (id : Fragment) (schema : Json)
    (key : Option String) (entries : List Nat) : Build (List NodeId) := do
  match entries with
  | [] => return []
  | entry :: rest =>
    let node ← visit ctx path { id with variant := some entry } schema key false
    let nodes ← visitBranches ctx path id schema key rest
    return node :: nodes
termination_by (remaining ctx path, sizeOf schema, openVariants path id schema, 4 + entries.length)
decreasing_by
  · exact .right _ (.right _ (.right _ (by omega)))
  · exact .right _ (.right _ (.right _ (by simp only [List.length_cons]; omega)))

/-- The nodes of the schemas that a keyword holds by name, each with the comment that `note` gives
for it. -/
def visitNamed (ctx : BuildContext) (path : List Fragment) (id : Fragment) (keyword : String)
    (note : String → Option String) (ms : Members) : Build (List (String × NodeId)) := do
  match ms with
  | [] => return []
  | (key, schema) :: rest =>
    let node ← visit ctx path (below id [keyword, key]) schema (some key) false
    match note key with
    | none => pure ()
    | some text => appendComment node text
    let nodes ← visitNamed ctx path id keyword note rest
    return (key, node) :: nodes
termination_by (remaining ctx path, sizeOf ms, 0, 0)
decreasing_by
  · exact .right _ (.left _ _ (by simp only [List.cons.sizeOf_spec, Prod.mk.sizeOf_spec]; omega))
  · exact .right _ (.left _ _ (by simp only [List.cons.sizeOf_spec]; omega))

/-- The super types of an interface from the index `start` on. -/
def visitSupers (ctx : BuildContext) (path : List Fragment) (id : Fragment) (start : Nat)
    (items : List Json) : Build (List NodeId) := do
  match items with
  | [] => return []
  | item :: rest =>
    let site := below id ["tsExtends", toString start]
    let node ← visit ctx path site item none false
    checkSuper site node
    let nodes ← visitSupers ctx path id (start + 1) rest
    return node :: nodes
termination_by (remaining ctx path, sizeOf items, 0, 0)
decreasing_by
  · exact .right _ (.left _ _ (by simp only [List.cons.sizeOf_spec]; omega))
  · exact .right _ (.left _ _ (by simp only [List.cons.sizeOf_spec]; omega))

/-- An interface: its properties, patterns and definitions in this order, an index signature unless
further properties are refused, and its super types. -/
def interface (ctx : BuildContext) (path : List Fragment) (id : Fragment) (ms : Members)
    (parent : String) : Build Kind := do
  let properties ← visitEach ctx path id ms "properties" fun _ => none
  let patterns ←
    visitEach ctx path id ms "patternProperties" fun p => some (patternNote parent p)
  let definitions ← visitDefinitions ctx path id ms "definitions" parent
  let defs ← visitDefinitions ctx path id ms "$defs" parent
  let index ← visitIndex ctx path id ms
  let supers ← visitExtends ctx path id ms
  return .interface (interfaceMembers ms properties patterns (definitions ++ defs) index) supers
termination_by (remaining ctx path, sizeOf ms, 0, 3)
decreasing_by all_goals exact .right _ (.right _ (.right _ (by omega)))

/-- The nodes of the definitions under a keyword, if those without a reference are kept. -/
def visitDefinitions (ctx : BuildContext) (path : List Fragment) (id : Fragment) (ms : Members)
    (keyword parent : String) : Build (List (String × NodeId)) :=
  if ctx.options.unreachableDefinitions then
    visitEach ctx path id ms keyword fun k => some (definitionNote parent k)
  else return []
termination_by (remaining ctx path, sizeOf ms, 0, 2)
decreasing_by exact .right _ (.right _ (.right _ (by omega)))

/-- The index signature of an interface. A single pattern stands in for it. -/
def visitIndex (ctx : BuildContext) (path : List Fragment) (id : Fragment) (ms : Members) :
    Build (List InterfaceMember) := do
  match _hl : ms.lookup "additionalProperties" with
  | some (.bool false) => return []
  | some (.object further) =>
    let node ← visit ctx path (below id ["additionalProperties"]) (.object further) none false
    return [{ key := indexSignature, node, required := true }]
  | _ =>
    if singlePattern ms (namedMembers ms "patternProperties") then return []
    else
      let node ← add .any
      return [{ key := indexSignature, node, required := true }]
termination_by (remaining ctx path, sizeOf ms, 0, 2)
decreasing_by exact .right _ (.left _ _ (Schema.sizeOf_lookup _hl))

/-- The super types of an interface. -/
def visitExtends (ctx : BuildContext) (path : List Fragment) (id : Fragment) (ms : Members) :
    Build (List NodeId) := do
  match _hl : ms.lookup "tsExtends" with
  | none => return []
  | some (.array targets) => visitSupers ctx path id 0 targets
  | some (.object target) =>
    let site := below id ["tsExtends"]
    let node ← visit ctx path site (.object target) none false
    checkSuper site node
    return [node]
  | some _ => throw (.schema (below id ["tsExtends"]).pointer .extendsShape)
termination_by (remaining ctx path, sizeOf ms, 0, 2)
decreasing_by
  · exact .right _ (.left _ _ (by
      have := Schema.sizeOf_lookup _hl
      simp only [Json.array.sizeOf_spec] at this
      omega))
  · exact .right _ (.left _ _ (Schema.sizeOf_lookup _hl))

/-- The nodes of the schemas that a keyword of an object schema holds by name. -/
def visitEach (ctx : BuildContext) (path : List Fragment) (id : Fragment) (ms : Members)
    (keyword : String) (note : String → Option String) : Build (List (String × NodeId)) := do
  match _hl : ms.lookup keyword with
  | some (.object named) => visitNamed ctx path id keyword note named
  | _ => return []
termination_by (remaining ctx path, sizeOf ms, 0, 1)
decreasing_by
  exact .right _ (.left _ _ (by
    have := Schema.sizeOf_lookup _hl
    simp only [Json.object.sizeOf_spec] at this
    omega))
end

/-- The node of the fragment at `site`, after following its references. -/
def fragment (ctx : BuildContext) (site : Fragment) (key : Option String) (isRoot : Bool) :
    Build NodeId :=
  match ctx.schemas.get? site, ctx.schemas.refs.lookup site with
  | some schema, _ => visit ctx [] site schema key isRoot
  | none, some _ => visit ctx [] site .null key isRoot
  | none, none => throw (.schema site.pointer (.fragmentMissing site))

end Build

/-- The type graph of a schema graph, with the type of its root fragment as root. -/
def TypeGraph.ofSchemas (ctx : BuildContext) : Except CompileError TypeGraph :=
  match (Build.fragment ctx .root none true).run {} with
  | (.ok root, s) => .ok { s.graph with root }
  | (.error e, _) => .error e

end Typewright
