import Typewright.CommandLine.Basic
import Typewright.Proofs.Graph.Located
import Typewright.Proofs.KeywordOrder

/-!
# Compiling a file under its own name

A file that is compiled under a given name is compiled as a schema in memory, with its directory for
the references. Under the stem of its own name this leads to the declarations that the file has at
its location (`outcome_named_stem`), unless a reference leads back to the file or a configured
directory is not the one that the file is in.
-/

namespace Typewright

/-! ## Builds of a root in memory -/

/-- The location of the root does not matter to what a build reads. -/
theorem BuildContext.twins_of_location (schema : Json) (rest : List Document)
    (refs : List (Fragment × Target)) (maxDepth : Nat) (name : String) (options options' : Options)
    (hkept : options.unreachableDefinitions = options'.unreachableDefinitions)
    (location location' : Option FileUrl) : BuildContext.Twins
      ⟨(⟨⟨location, schema⟩ :: rest, refs, maxDepth⟩ : SchemaGraph).normalize name, name, options⟩
      ⟨(⟨⟨location', schema⟩ :: rest, refs, maxDepth⟩ : SchemaGraph).normalize name, name,
        options'⟩ := by
  refine ⟨rfl, hkept, rfl, rfl, fun index hne => ?_, fun id _ => ?_⟩
  · obtain ⟨i, rfl⟩ := Nat.exists_eq_succ_of_ne_zero hne
    rfl
  · rw [SchemaGraph.get?, SchemaGraph.get?]
    cases id.document <;> exact SchemaGraph.rel_refl _

theorem TypeGraph.ofSchemas_of_location (schema : Json) (rest : List Document)
    (refs : List (Fragment × Target)) (maxDepth : Nat) (name : String) (options options' : Options)
    (hkept : options.unreachableDefinitions = options'.unreachableDefinitions)
    (location location' : Option FileUrl) :
    TypeGraph.ofSchemas ⟨(⟨⟨location, schema⟩ :: rest, refs, maxDepth⟩ : SchemaGraph).normalize name,
      name, options⟩ =
    TypeGraph.ofSchemas ⟨(⟨⟨location', schema⟩ :: rest, refs, maxDepth⟩ : SchemaGraph).normalize
      name, name, options'⟩ := by
  have htwins := BuildContext.twins_of_location schema rest refs maxDepth name options options'
    hkept location location'
  unfold TypeGraph.ofSchemas
  rw [Build.fragment_twins htwins .root]
  exact SchemaGraph.rel_refl _

namespace Job

open Loading (IsPlain Unlinked)

variable {env : Environment} {job : Job} {home : FileUrl} {cwd out : String}

/-- The job of a schema in memory, with a directory for its references. -/
def atDirectory (job : Job) (cwd : String) : Job :=
  { job with options := { job.options with cwd }, location := none }

/-- A file has the declarations that its schema has in memory, with the directory of the file for its
references, if none of them leads back to the file. -/
theorem run_atDirectory (hj : FileUrl.JoinsFromDirectory env.join) (h : job.run env = .ok out)
    (hlocation : job.location = some home) (hp : IsPlain home)
    (hu : ∀ g, SchemaGraph.load env job.options job.location job.schema = .ok g →
      ∀ d ∈ g.documents, Unlinked env job.options home d)
    (hcwd : (FilePath.absolute? env.workingDirectory cwd).map FileUrl.ofDirectory =
      some home.directory) : (job.atDirectory cwd).run env = .ok out := by
  obtain ⟨schemas, g, written, hs⟩ := exists_stages h
  have hloaded := hs.loaded
  rw [hlocation] at hloaded
  obtain ⟨rest, hdocuments, hmemory⟩ :=
    SchemaGraph.load_in_memory hj hloaded hp (hu schemas hs.loaded) hcwd
  obtain ⟨documents, refs, maxDepth⟩ := schemas
  obtain rfl := hdocuments
  have hbuilt := (TypeGraph.ofSchemas_of_location job.schema rest refs maxDepth job.name
    (job.atDirectory cwd).options job.options rfl none (some home)).trans hs.built
  exact Stages.run_eq ⟨hs.checked, hmemory, hbuilt, hs.declared, hs.laidOut⟩

end Job

namespace CommandLine

variable {env : Environment} {stdin : Stdin} {request : CompileRequest} {path stem : String}
  {job : Job}

/-! ## Two routes -/

/-- What a `compile` command compiles, if it is asked for a file at its location: the schema of the
file, called by its stem. -/
theorem job_of_file (h : request.job env stdin = .ok job) (hinput : request.input = some path)
    (hname : request.name = none) : ∃ o names,
      configured env request.config = .ok o ∧ job.options = overridden request.given o ∧
      readSchema env stdin (some path) = .ok job.schema ∧
      FilePath.absolute? env.workingDirectory path = some names ∧
      job.location = some (FileUrl.ofNames names) ∧
      job.name = (FilePath.stem? path).getD "" := by
  unfold CompileRequest.job at h
  obtain ⟨o, hconfigured, h⟩ := Loading.ok_of_bind h
  dsimp only at h
  rw [hinput, hname] at h
  dsimp only at h
  unfold Job.ofFile at h
  cases hfile : env.file path with
  | text content =>
      rw [hfile] at h
      dsimp only at h
      split at h
      · rename_i schema names hread hnames
        obtain rfl := Except.ok.inj h
        refine ⟨o, names, hconfigured, rfl, ?_, hnames, rfl, rfl⟩
        simp [readSchema, hfile, FileContent.text?, hread]
      · cases h
  | _ =>
      rw [hfile] at h
      cases h

/-- The same schema is compiled in memory, if the file is given a name. -/
theorem job_of_name (h : request.job env stdin = .ok job) (hinput : request.input = some path)
    (hname : request.name = none) (hstem : FilePath.stem? path = some stem) :
    ({ request with name := some stem } : CompileRequest).job env stdin =
      .ok (job.atDirectory ((FilePath.directory? path).getD job.options.cwd)) := by
  obtain ⟨o, names, hconfigured, hoptions, hread, -, -, hstem'⟩ := job_of_file h hinput hname
  obtain ⟨options, location, name, schema⟩ := job
  obtain rfl : options = overridden request.given o := hoptions
  obtain rfl : name = stem := by simpa [hstem] using hstem'
  unfold CompileRequest.job
  dsimp only
  rw [Loading.bind_of_ok hconfigured, hinput]
  dsimp only
  rw [Loading.bind_of_ok hread]
  rfl

/-- Nothing tells a file from its schema in memory: the references of the schema start from the
directory of the file, and none of them leads back to the file. -/
structure Detached (env : Environment) (path : String) (job : Job) : Prop where
  /-- For a mere name the configured directory is the working directory. -/
  directory : FilePath.directory? path = none →
    FilePath.absolute? env.workingDirectory job.options.cwd =
      some (FilePath.names env.workingDirectory)
  /-- The file is not named like a drive letter, which references would keep. -/
  drive : ∀ home, job.location = some home →
    home.segments.getLast?.any FileUrl.isNormalDrive = false
  onward : ∀ home g, job.location = some home →
    SchemaGraph.load env job.options job.location job.schema = .ok g →
    ∀ d ∈ g.documents, Loading.Unlinked env job.options home d

/-- The file is in the directory against which its references resolve in memory. -/
theorem Detached.directory_eq {names : List String} (h : Detached env path job)
    (hstem : FilePath.stem? path = some stem)
    (hnames : FilePath.absolute? env.workingDirectory path = some names) :
    (FilePath.absolute? env.workingDirectory ((FilePath.directory? path).getD job.options.cwd)).map
      FileUrl.ofDirectory = some (FileUrl.ofNames names).directory := by
  have hne : FilePath.names path ≠ [] := fun hnil => by
    rw [FilePath.stem?, hnil] at hstem
    cases hstem
  have hpath : path ≠ "" := by
    rintro rfl
    exact hne rfl
  have hlast := List.dropLast_append_getLast hne
  rw [FilePath.absolute?_eq hpath, ← hlast, ← List.append_assoc] at hnames
  obtain rfl := Option.some.inj hnames
  rw [FileUrl.directory_ofNames]
  cases hdirectory : FilePath.directory? path with
  | some directory =>
      rw [Option.getD_some, FilePath.absolute?_of_directory? hdirectory]
      rfl
  | none =>
      obtain ⟨hrelative, hparents⟩ := FilePath.names_of_directory?_eq_none hdirectory hne
      rw [Option.getD_none, h.directory hdirectory, hrelative, hparents, List.append_nil]
      rfl

theorem outcome_of_run {text : String} (hjob : request.job env stdin = .ok job)
    (hrun : job.run env = .ok text) : (Request.compile request).outcome env stdin =
      request.output.elim (.print text) (.write · text) := by
  simp only [Request.outcome, hjob, hrun]
  cases request.output <;> rfl

/-- A command that does not fail runs its job to the end. -/
theorem exists_run (h : ∀ context cause,
    (Request.compile request).outcome env stdin ≠ .failed context cause) :
    ∃ job text, request.job env stdin = .ok job ∧ job.run env = .ok text := by
  unfold Request.outcome at h
  dsimp only at h
  cases hjob : request.job env stdin with
  | error context =>
      rw [hjob] at h
      exact absurd rfl (h context none)
  | ok job =>
      rw [hjob] at h
      dsimp only at h
      cases hrun : job.run env with
      | error e =>
          rw [hrun] at h
          exact absurd rfl (h compilationFailed (some e))
      | ok text => exact ⟨job, text, rfl, hrun⟩

/-- A file that is compiled has the same declarations under the stem of its name, if nothing tells it
from its schema in memory. -/
theorem outcome_named_stem (hjoin : FileUrl.JoinsFromDirectory env.join)
    (hinput : request.input = some path) (hname : request.name = none)
    (hstem : FilePath.stem? path = some stem)
    (hdone : ∀ context cause, (Request.compile request).outcome env stdin ≠ .failed context cause)
    (hdetached : ∀ job, request.job env stdin = .ok job → Detached env path job) :
    (Request.compile { request with name := some stem }).outcome env stdin =
      (Request.compile request).outcome env stdin := by
  obtain ⟨job, text, hjob, hrun⟩ := exists_run hdone
  obtain ⟨o, names, -, -, -, hnames, hlocation, -⟩ := job_of_file hjob hinput hname
  have hdetached := hdetached job hjob
  have hplain : Loading.IsPlain (FileUrl.ofNames names) :=
    ⟨rfl, FileUrl.segments_ofNames_ne_nil names, hdetached.drive _ hlocation⟩
  have hrun' := Job.run_atDirectory hjoin hrun hlocation hplain
    (fun g => hdetached.onward _ g hlocation) (hdetached.directory_eq hstem hnames)
  rw [outcome_of_run hjob hrun, outcome_of_run (job_of_name hjob hinput hname hstem) hrun']

end CommandLine

/-! ## Reading the text of an object with one member -/

namespace Json

/-- A value is read from the front of a text. -/
def Reads {α : Type} {cs : List Char} (x : Option (Read α cs)) (value : α) (rest : List Char) :
    Prop :=
  ∃ h, x = some ⟨value, rest, h⟩

theorem reads_string {depth : Nat} {text rest : List Char} {s : String}
    (h : Reads (readString true [] text) s rest) :
    Reads (readValue .whole depth ('"' :: text)) (.string s) rest := by
  obtain ⟨hs, h⟩ := h
  have hblank : skipBlank ('"' :: text) = '"' :: text := rfl
  refine ⟨Nat.lt_succ_of_lt hs, ?_⟩
  rw [readValue]
  split
  case h_4 heq =>
    cases hblank.symm.trans heq
    simp only [Scope.counts, h]
  case h_7 hstring _ _ => exact (hstring _ hblank).elim
  all_goals
    rename_i heq
    cases hblank.symm.trans heq

theorem reads_member {depth : Nat} {text after rest : List Char} {key : String} {v : Json}
    (hk : Reads (readString true [] text) key (':' :: after))
    (hv : Reads (readValue .whole depth after) v ('\x7d' :: rest)) :
    Reads (readMembers .whole depth [] ('"' :: text)) (.object [(key, v)]) rest := by
  obtain ⟨hshorter, hk⟩ := hk
  obtain ⟨hshorter', hv⟩ := hv
  have h : rest.length < text.length := by
    simp only [List.length_cons] at hshorter hshorter'
    omega
  have hblank : skipBlank ('"' :: text) = '"' :: text := rfl
  have hcolon : skipBlank (':' :: after) = ':' :: after := rfl
  have hclose : skipBlank ('\x7d' :: rest) = '\x7d' :: rest := rfl
  refine ⟨Nat.lt_succ_of_lt h, ?_⟩
  rw [readMembers]
  split
  case h_2 hnot => exact (hnot _ hblank).elim
  case h_1 heq =>
    cases hblank.symm.trans heq
    simp only [Scope.counts, hk]
    split
    case h_2 hnot => exact (hnot _ hcolon).elim
    case h_1 heq =>
      cases hcolon.symm.trans heq
      simp only [Scope.ofMember, hv]
      split
      case h_1 heq => cases hclose.symm.trans heq
      case h_2 heq =>
        cases hclose.symm.trans heq
        rfl
      case h_3 hnot => exact (hnot _ hclose).elim

theorem reads_object {depth : Nat} {text rest : List Char} {v : Json}
    (h : Reads (readMembers .whole depth [] ('"' :: text)) v rest) :
    Reads (readValue .whole (depth + 1) ('\x7b' :: '"' :: text)) v rest := by
  obtain ⟨hs, h⟩ := h
  have hblank : skipBlank ('\x7b' :: '"' :: text) = '\x7b' :: '"' :: text := rfl
  have hquote : skipBlank ('"' :: text) = '"' :: text := rfl
  refine ⟨Nat.lt_succ_of_lt hs, ?_⟩
  rw [readValue]
  split
  case h_6 heq =>
    cases hblank.symm.trans heq
    have hdepth : ¬ (Scope.counts .whole && depth + 1 == 0) = true := by simp
    rw [if_neg hdepth]
    split
    · rename_i heq
      cases hquote.symm.trans heq
    · simp only [Nat.add_sub_cancel, h]
  case h_7 hobject => exact (hobject _ hblank).elim
  all_goals
    rename_i heq
    cases hblank.symm.trans heq

theorem read_of_reads {s : String} {v : Json}
    (h : Reads (readValue .whole maxDepth s.toList) v []) : Json.read s = some (mergeRepeats v) := by
  obtain ⟨_, h⟩ := h
  rw [Json.read, readRepeats, h]
  rfl

end Json

namespace CommandLine

/-! ## A list whose items refer to the list -/

/-- Lists of what a reference leads to. -/
def listSchema (reference : String) : Json :=
  .object [("items", .object [("$ref", .string reference)])]

/-- The text of the reference from its first character on. -/
def listTail (reference : String) : List Char := reference.toList ++ ['"', '\x7d', '\x7d']

def listText (reference : String) : String :=
  String.ofList ('\x7b' :: '"' :: ("items\":\x7b\"$ref\":\"".toList ++ listTail reference))

theorem read_listText {reference : String}
    (h : Json.Reads (Json.readString true [] (listTail reference)) reference ['\x7d', '\x7d']) :
    Json.read (listText reference) = some (listSchema reference) := by
  have href : Json.Reads (Json.readString true [] ("$ref\":\"".toList ++ listTail reference)) "$ref"
      (':' :: '"' :: listTail reference) :=
    ⟨by simp, by simp [Json.readString]⟩
  have hitems : Json.Reads
      (Json.readString true [] ("items\":\x7b\"$ref\":\"".toList ++ listTail reference))
      "items" (':' :: '\x7b' :: '"' :: ("$ref\":\"".toList ++ listTail reference)) :=
    ⟨by simp, by simp [Json.readString]⟩
  have htext : (listText reference).toList =
      '\x7b' :: '"' :: ("items\":\x7b\"$ref\":\"".toList ++ listTail reference) :=
    String.toList_ofList
  have hread : Json.Reads (Json.readValue .whole (125 + 1 + 1) (listText reference).toList)
      (listSchema reference) [] := by
    rw [htext]
    exact Json.reads_object (Json.reads_member hitems
      (Json.reads_object (Json.reads_member href (Json.reads_string h))))
  exact Json.read_of_reads hread

/-- A directory with such a list in one file. -/
def listEnvironment (reference : String) : Environment :=
  ⟨"/work", fun path =>
    if path == "List.json" then .text (listText reference)
    else if path == "/work/" then .directory
    else .missing⟩

def listRequest (name : Option String) : CompileRequest where
  input := some "List.json"
  output := none
  name
  config := none
  given := { options := [("banner-comment", "")], positional := ["List.json"] }

def listHome : FileUrl := ⟨"", ["work", "List.json"], none⟩

def listJob (reference : String) : Job where
  options := { bannerComment := "" }
  location := some listHome
  name := "List"
  schema := listSchema reference

theorem job_listRequest {reference : String}
    (hread : Json.read (listText reference) = some (listSchema reference)) :
    (listRequest none).job (listEnvironment reference) none = .ok (listJob reference) := by
  have hfile : (listEnvironment reference).file "List.json" = .text (listText reference) := by rfl
  have hnames : FilePath.absolute? "/work" "List.json" = some ["work", "List.json"] := by rfl
  have hhome : FileUrl.ofNames ["work", "List.json"] = listHome := by rfl
  have hstem : FilePath.stem? "List.json" = some "List" := by rfl
  have hgiven : overridden (listRequest none).given {} = { bannerComment := "" } := by rfl
  have hjob : Job.ofFile (listEnvironment reference) { bannerComment := "" } "List.json" =
      .ok (listJob reference) := by
    unfold Job.ofFile
    rw [hfile]
    dsimp only
    rw [hread, show (listEnvironment reference).workingDirectory = "/work" from rfl, hnames]
    dsimp only
    rw [hhome, hstem]
    rfl
  unfold CompileRequest.job
  dsimp only [configured, listRequest, bind, Except.bind] at hgiven ⊢
  rw [hgiven, hjob]
  rfl

/-- The list as the only document, with its reference to itself. -/
def listGraph (schema : Json) : SchemaGraph :=
  ⟨[⟨some listHome, schema⟩], [(⟨0, "#/items", none⟩, .fragment .root)], 50⟩

def normalList (reference : String) : Json :=
  .object [("items", .object [("$ref", .string reference)]), ("required", .array []),
    ("title", .string "List")]

theorem check_list (reference : String) : check "List" (listSchema reference) = .ok () := by cbv

theorem run_listJob {reference : String}
    (hload : SchemaGraph.load (listEnvironment reference) { bannerComment := "" } (some listHome)
      (listSchema reference) = .ok (listGraph (listSchema reference))) :
    (listJob reference).run (listEnvironment reference) = .ok "export type List = List[];\n" := by
  have hnormal : (listGraph (listSchema reference)).normalize "List" =
      listGraph (normalList reference) := by cbv
  have hbuilt : TypeGraph.ofSchemas ((listJob reference).context (listGraph (listSchema reference))) =
      .ok ⟨#[some { kind := .array 0, name := some "List" }], 0⟩ := by
    unfold Job.context
    dsimp only [listJob]
    unfold TypeGraph.ofSchemas
    rw [hnormal, Build.run_recursive (by rfl) (by rfl) (by rfl) (by rfl) (by rfl)]
    rfl
  have hwritten : Declaration.text { bannerComment := "" }
      ((⟨#[some { kind := .array 0, name := some "List" }], 0⟩ : TypeGraph).simplify false) =
      .ok "export type List = List[]\n" := by cbv
  have hout : Layout.format {} "export type List = List[]\n" =
      .ok "export type List = List[];\n" := by rfl
  exact Job.Stages.run_eq ⟨check_list reference, hload, hbuilt, hwritten, hout⟩

theorem load_list_self : SchemaGraph.load (listEnvironment "") { bannerComment := "" }
    (some listHome) (listSchema "") = .ok (listGraph (listSchema "")) := by
  cbv

theorem load_list_local : SchemaGraph.load (listEnvironment "#") { bannerComment := "" }
    (some listHome) (listSchema "#") = .ok (listGraph (listSchema "#")) := by
  cbv

theorem load_list_in_memory : SchemaGraph.load (listEnvironment "") { bannerComment := "" } none
    (listSchema "") = .error
      (.reference "#/items" "" (.unreadable "/work/" "Is a directory (os error 21)")) := by
  cbv

theorem detached_list : Detached (listEnvironment "#") "List.json" (listJob "#") where
  directory _ := by rfl
  drive home hhome := by
    obtain rfl := Option.some.inj hhome
    rfl
  onward home g hhome hload d hd _ c hc reference href houtward := by
    obtain rfl := Option.some.inj hhome
    obtain rfl := Except.ok.inj (hload.symm.trans load_list_local)
    obtain rfl := List.mem_singleton.1 hd
    have hpositions : Schema.positions "#" (listSchema "#") =
        [("#", listSchema "#"), ("#/items", .object [("$ref", .string "#")])] := by cbv
    rw [hpositions] at hc
    simp only [List.mem_cons, List.not_mem_nil, or_false] at hc
    rcases hc with rfl | rfl
    · cases href
    · obtain rfl := Option.some.inj href
      exact absurd rfl houtward

/-- A list whose items refer to the root of the document is the same under its own name. -/
theorem outcome_named_stem_list :
    FileUrl.JoinsFromDirectory (listEnvironment "#").join ∧
    (listRequest none).input = some "List.json" ∧ (listRequest none).name = none ∧
    FilePath.stem? "List.json" = some "List" ∧
    Detached (listEnvironment "#") "List.json" (listJob "#") ∧
    (Request.compile (listRequest none)).outcome (listEnvironment "#") none =
      .print "export type List = List[];\n" ∧
    (Request.compile (listRequest (some "List"))).outcome (listEnvironment "#") none =
      .print "export type List = List[];\n" := by
  have hread : Json.read (listText "#") = some (listSchema "#") :=
    read_listText ⟨by decide, by simp [listTail, Json.readString]⟩
  have hjob := job_listRequest hread
  have hstem : FilePath.stem? "List.json" = some "List" := by rfl
  have hdone := outcome_of_run hjob (run_listJob load_list_local)
  have hjoin : FileUrl.JoinsFromDirectory (listEnvironment "#").join :=
    FileUrl.joinsFromDirectory_resolve
  refine ⟨hjoin, rfl, rfl, hstem, detached_list, hdone, Eq.trans ?_ hdone⟩
  refine @outcome_named_stem (listEnvironment "#") none (listRequest none) "List.json" "List" hjoin
    rfl rfl hstem (fun context cause => ?_) fun job h => ?_
  · rw [hdone]
    intro heq
    cases heq
  · obtain rfl := Except.ok.inj (h.symm.trans hjob)
    exact detached_list

/-- A list whose items refer to the document by an empty reference fails under its own name: in memory
that is a reference to the directory. -/
theorem exists_named_stem_differs : ¬ ∀ (env : Environment) (stdin : Stdin)
    (request : CompileRequest) (path stem : String), request.input = some path →
    request.name = none → FilePath.stem? path = some stem →
    (∀ context cause, (Request.compile request).outcome env stdin ≠ .failed context cause) →
    (Request.compile { request with name := some stem }).outcome env stdin =
      (Request.compile request).outcome env stdin := by
  intro h
  have hread : Json.read (listText "") = some (listSchema "") :=
    read_listText ⟨by decide, by simp [listTail, Json.readString]⟩
  have hjob := job_listRequest hread
  have hstem : FilePath.stem? "List.json" = some "List" := by rfl
  have hdone := outcome_of_run hjob (run_listJob load_list_self)
  have hsame := h (listEnvironment "") none (listRequest none) "List.json" "List" rfl rfl hstem
    fun context cause => by
      rw [hdone]
      intro heq
      cases heq
  have hnamed : (Request.compile (listRequest (some "List"))).outcome (listEnvironment "") none =
      .print "export type List = List[];\n" := hsame.trans hdone
  obtain ⟨job, text, hjob', hrun⟩ := exists_run fun context cause hfailed => by
    cases hnamed.symm.trans hfailed
  obtain rfl := Except.ok.inj ((job_of_name hjob rfl rfl hstem).symm.trans hjob')
  obtain ⟨_, -, hrun⟩ := Loading.ok_of_bind hrun
  obtain ⟨schemas, hload, -⟩ := Loading.ok_of_bind hrun
  cases load_list_in_memory.symm.trans hload

end CommandLine

end Typewright
