import Typewright.Environment
import Typewright.Options
import Typewright.Graph.Basic
import Typewright.Schema.Normal

/-!
# Loading a schema graph

`SchemaGraph.load` scans the root document for references, loads the files they name, scans those in
the order in which they were loaded, and so on. The files at one distance from the root are all
scanned before those further away, so a file's distance is the length of the shortest way to it.
-/

namespace Typewright

/-- A loaded document with the location against which its references resolve and its distance from
the root in files. -/
structure Source where
  document : Document
  base : Option FileUrl
  depth : Nat
deriving DecidableEq, Repr

/-- The loaded documents in the order in which they were loaded, and for each of them the location
against which its references resolve and its distance from the root in files. -/
structure Sources where
  documents : List Document
  bases : List (Option FileUrl)
  depths : List Nat
  length_bases : bases.length = documents.length
  length_depths : depths.length = documents.length

namespace Sources

/-- The root alone. -/
def root (location base : Option FileUrl) (schema : Json) : Sources :=
  ⟨[⟨location, schema⟩], [base], [0], rfl, rfl⟩

def length (sources : Sources) : Nat := sources.documents.length

def get? (sources : Sources) (index : Nat) : Option Source := do
  return ⟨← sources.documents[index]?, ← sources.bases[index]?, ← sources.depths[index]?⟩

/-- Puts a document behind those that are loaded. -/
def push (sources : Sources) (source : Source) : Sources where
  documents := sources.documents ++ [source.document]
  bases := sources.bases ++ [source.base]
  depths := sources.depths ++ [source.depth]
  length_bases := by rw [List.length_append, List.length_append, sources.length_bases]; rfl
  length_depths := by rw [List.length_append, List.length_append, sources.length_depths]; rfl

end Sources

/-- What is loaded so far, and the references found in the documents that are scanned. -/
structure Loading where
  sources : Sources
  refs : List (Fragment × Target)

/-! ## Fragments and names of references -/

/-- The pointer of a URL fragment: decoded, and in the form in which `Pointer.build` writes it. A
fragment that is no pointer is only decoded. -/
def fragmentPointer (fragment : String) : Except RefFailure String :=
  match Text.decode? (Percent.decode fragment.toList) with
  | none => .error (.notUtf8 fragment)
  | some cs =>
    if cs.head? == some '/' then .ok (Pointer.build "#" (Pointer.split (String.ofList cs)))
    else .ok (String.ofList ('#' :: cs))

/-- The name of a reference that is not loaded: the last segment of its fragment that is not empty,
otherwise the stem of its file name. -/
def externalName (reference : String) : String :=
  let cs := reference.toList
  let location := cs.takeWhile (· != '#')
  let fragment := (cs.dropWhile (· != '#')).drop 1
  match (Pointer.split (String.ofList fragment)).reverse.find? (· != "") with
  | some segment => segment
  | none =>
    let path := (location.reverse.dropWhile (· == '/')).reverse
    let last := String.ofList (path.reverse.takeWhile (· != '/')).reverse
    (FilePath.stem? last).getD last

/-! ## One reference -/

namespace Loading

variable (env : Environment) (options : Options)

/-- A fragment can be referred to if it is an object or a boolean of its document. -/
def check (documents : List Document) (id : Fragment) : Except RefFailure Unit :=
  match Pointer.body id.pointer with
  | c :: _ =>
    if c != '/' then .error (.notPointer id.pointer) else checkValue
  | [] => checkValue
where
  /-- The part of the check that looks at the value. -/
  checkValue : Except RefFailure Unit :=
    match (documents[id.document]?).bind fun d => d.root.at? id.pointer with
    | none => .error (.missing id.pointer)
    | some v => if v.isSchema then .ok () else .error (.notSchema id.pointer)

/-- Reads the file at `url`, which is one file further from the root than `depth`. -/
def loadFile (url : FileUrl) (depth : Nat) : Except RefFailure Source :=
  if options.refOptions.maxDepth < depth + 1 then
    .error (.nestingTooDeep options.refOptions.maxDepth)
  else
    match url.filePath? with
    | none => .error (.notLocal url.text)
    | some path =>
      match env.file path with
      | .text content =>
        match Json.read content with
        | none => .error (.invalidJson path)
        | some root => .ok ⟨⟨some url, root⟩, some url, depth + 1⟩
      | other => .error (.unreadable path other.reason)

/-- The index of the document at `url`, which is loaded unless it is already there. -/
def locate (sources : Sources) (url : FileUrl) (depth : Nat) :
    Except RefFailure (Nat × Sources) :=
  match sources.documents.findIdx? (·.location == some url) with
  | some index => .ok (index, sources)
  | none => do
    let source ← loadFile env options url depth
    return (sources.length, sources.push source)

/-- What a reference in the document `index` points at. -/
def target (sources : Sources) (index : Nat) (reference : String) :
    Except RefFailure (Target × Sources) :=
  match reference.toList with
  | '#' :: fragment => do
    let pointer ← fragmentPointer (String.ofList fragment)
    check sources.documents ⟨index, pointer, none⟩
    return (.fragment ⟨index, pointer, none⟩, sources)
  | _ =>
    if !options.refOptions.external then .ok (.external (externalName reference), sources)
    else
      match sources.get? index with
      | none => .error .noBase
      | some source =>
        match source.base with
        | none => .error .noBase
        | some base =>
          match env.join base reference with
          | none => .error .invalidUrl
          | some (.other scheme) => .error (.unsupportedScheme scheme)
          | some (.file url fragment) => do
            let (document, sources) ← locate env options sources url source.depth
            let pointer ← fragmentPointer fragment
            check sources.documents ⟨document, pointer, none⟩
            return (.fragment ⟨document, pointer, none⟩, sources)

/-! ## Documents -/

/-- The reference of a schema, if it is one. -/
def reference? (schema : Json) : Option String := (schema.member? "$ref").bind Json.string?

/-- Records the reference at one position of a document. -/
def scanPosition (index : Nat) (st : Loading) (position : String × Json) :
    Except CompileError Loading :=
  match reference? position.2 with
  | none => .ok st
  | some reference =>
    match target env options st.sources index reference with
    | .error cause => .error (.reference position.1 reference cause)
    | .ok (target, sources) =>
      .ok { sources, refs := st.refs ++ [(⟨index, position.1, none⟩, target)] }

/-- Records all references of a document. -/
def scanDocument (st : Loading) (index : Nat) : Except CompileError Loading :=
  match st.sources.documents[index]? with
  | none => .ok st
  | some document =>
    (Schema.positions "#" document.root).foldlM (scanPosition env options index) st

/-- Scans the documents from `next` on and then those they load, which are one file further away.
`remaining` is how much further the limit allows; a document beyond it is refused, so nothing is
left to scan when it is used up. -/
def scanFrom (remaining next : Nat) (st : Loading) : Except CompileError Loading := do
  let count := st.sources.length
  let st ← ((List.range count).drop next).foldlM (scanDocument env options) st
  if st.sources.length ≤ count then return st
  else
    match remaining with
    | 0 => return st
    | remaining + 1 => scanFrom remaining count st

end Loading

/-- The location against which the references of a root resolve: its own, or the directory
`options.cwd` if it has none. -/
def rootBase (workingDirectory : String) (options : Options) : Option FileUrl → Option FileUrl
  | some url => some url
  | none => (FilePath.absolute? workingDirectory options.cwd).map FileUrl.ofDirectory

/-- The files that the references of a document name, where they resolve against `base`. -/
def linkedFiles (join : FileUrl → String → Option Resource) (base : FileUrl) (schema : Json) :
    List FileUrl :=
  (Schema.positions "#" schema).filterMap fun (_, v) =>
    match (Loading.reference? v).bind (join base) with
    | some (.file url _) => some url
    | _ => none

/-- The graph of all documents that the root document reaches. -/
def SchemaGraph.load (env : Environment) (options : Options) (location : Option FileUrl)
    (schema : Json) : Except CompileError SchemaGraph := do
  let base := rootBase env.workingDirectory options location
  let st ← Loading.scanFrom env options options.refOptions.maxDepth 0
    ⟨.root location base schema, []⟩
  return ⟨st.sources.documents, st.refs, options.refOptions.maxDepth⟩

/-- The graph with its documents in normal form, the first as the root called `name`. -/
def SchemaGraph.normalize (g : SchemaGraph) (name : String) : SchemaGraph :=
  match g.documents with
  | [] => g
  | root :: rest =>
    { g with
      documents := { root with root := Schema.normalize name root.root } ::
        rest.map fun d => { d with root := Schema.normalizeFragment d.root } }

end Typewright
