import Typewright.Compile
import Typewright.Proofs.Build.Interface
import Typewright.Proofs.Declaration.Names
import Typewright.Proofs.Graph.Load

/-!
# Failures of a compile

Each stage of a compile fails in its own way: the check with the faults of the schema, the loading
and the build through a schema or a reference, the layout at a line. The writing of declarations
does not fail at all, because a build makes well-formed graphs and simplification keeps them so.
-/

namespace Typewright

/-! ## How the stages fail -/

section Failures

variable {α β : Type} {kind : CompileError → Prop}

/-- Every failure is of a kind. -/
def FailsAs (kind : CompileError → Prop) (x : Except CompileError α) : Prop :=
  ∀ e, x = .error e → kind e

theorem FailsAs.ok {a : α} : FailsAs kind (.ok a) := nofun

theorem FailsAs.error {e : CompileError} (h : kind e) : FailsAs kind (.error e : Except _ α) :=
  fun _ heq => Except.error.inj heq ▸ h

theorem FailsAs.bind {x : Except CompileError α} {f : α → Except CompileError β}
    (hx : FailsAs kind x) (hf : ∀ a, x = .ok a → FailsAs kind (f a)) : FailsAs kind (x >>= f) := by
  cases x with
  | error e => exact .error (hx e rfl)
  | ok a => exact hf a rfl

theorem FailsAs.map {x : Except CompileError α} {f : α → β} (hx : FailsAs kind x) :
    FailsAs kind (x.map f) := by
  cases x with
  | error e => exact .error (hx e rfl)
  | ok a => exact .ok

theorem FailsAs.mono {kind' : CompileError → Prop} {x : Except CompileError α}
    (h : FailsAs kind x) (hk : ∀ e, kind e → kind' e) : FailsAs kind' x :=
  fun e he => hk e (h e he)

theorem FailsAs.foldlM {f : β → α → Except CompileError β} (hf : ∀ b a, FailsAs kind (f b a))
    (l : List α) (b : β) : FailsAs kind (l.foldlM f b) := by
  induction l generalizing b with
  | nil => exact .ok
  | cons a rest ih => exact .bind (hf b a) fun b' _ => ih b'

end Failures

/-- Whether a node was found that has no text. -/
def CompileError.IsUnsupported : CompileError → Prop
  | .unsupportedNode _ _ _ => True
  | _ => False

/-- Whether a text cannot be laid out. -/
def CompileError.IsLayout : CompileError → Prop
  | .layout _ _ => True
  | _ => False

theorem failsAs_check (name : String) (schema : Json) :
    FailsAs (¬ ·.IsUnsupported) (check name schema) := by
  unfold check
  split
  · exact .ok
  · exact .error id

namespace Loading

variable (env : Environment) (options : Options)

theorem failsAs_scanDocument (st : Loading) (index : Nat) :
    FailsAs CompileError.IsSchemaFault (scanDocument env options st index) := by
  unfold scanDocument
  split
  · exact .ok
  · refine .foldlM (fun st position => ?_) _ _
    unfold scanPosition
    split
    · exact .ok
    · split
      · exact .error trivial
      · exact .ok

theorem failsAs_scanFrom (remaining next : Nat) (st : Loading) :
    FailsAs CompileError.IsSchemaFault (scanFrom env options remaining next st) := by
  induction remaining using Nat.strongRecOn generalizing next st with
  | ind remaining ih =>
      rw [scanFrom_eq]
      refine .bind (.foldlM (failsAs_scanDocument env options) _ _) fun st' _ => ?_
      split
      · exact .ok
      · exact ih (remaining - 1) (by omega) _ st'

end Loading

theorem failsAs_load (env : Environment) (options : Options) (location : Option FileUrl)
    (schema : Json) :
    FailsAs CompileError.IsSchemaFault (SchemaGraph.load env options location schema) := by
  unfold SchemaGraph.load
  exact .bind (Loading.failsAs_scanFrom env options _ _ _) fun _ _ => .ok

namespace Layout

theorem failsAs_close (number : Nat) (stack : List Frame) (c : Char) :
    FailsAs CompileError.IsLayout (close number stack c) := by
  unfold close
  split
  · exact .error trivial
  · split
    · exact .ok
    · exact .error trivial

theorem failsAs_scanChar (number : Nat) (enumHead : Bool) (s : Scan) (c : Char) :
    FailsAs CompileError.IsLayout (scanChar number enumHead s c) := by
  unfold scanChar
  dsimp only
  generalize (if s.level.isNone && !isCloser c then { s with level := some (depth s.stack) }
    else s) = s'
  split
  · repeat' split
    all_goals exact .ok
  · have hclose : FailsAs CompileError.IsLayout
        ((close number s'.stack c).map fun stack => { s' with stack }) :=
      .map (failsAs_close number s'.stack c)
    repeat' split
    all_goals first | exact .ok | exact hclose

theorem failsAs_scanLine (number : Nat) (stack : List Frame) (line : List Char) :
    FailsAs CompileError.IsLayout (scanLine number stack line) := by
  unfold scanLine
  refine .bind (.foldlM (failsAs_scanChar number _) _ _) fun s _ => ?_
  split
  · exact .error trivial
  · exact .ok

theorem failsAs_run (style : Style) (s : State) (number : Nat) (lines : List (List Char)) :
    FailsAs CompileError.IsLayout (run style s number lines) := by
  induction lines generalizing s number with
  | nil => exact .ok
  | cons line rest ih =>
      refine .bind ?_ fun s' _ => ih s' (number + 1)
      unfold step
      split
      · split <;> exact .ok
      · split
        · exact .ok
        · split
          · exact .ok
          · exact .bind (failsAs_scanLine number s.stack _) fun _ _ => .ok

theorem failsAs_format (style : Style) (text : String) :
    FailsAs CompileError.IsLayout (format style text) := by
  unfold format
  refine .bind (failsAs_run style {} 1 _) fun s _ => ?_
  split
  · exact .error trivial
  · exact .ok

end Layout

/-! ## Folders -/

namespace Build

/-- A mode has two values with names of their own. -/
def modeMembers : Members :=
  [("title", .string "Mode"), ("enum", .array [.string "r", .string "w"]),
    ("tsEnumNames", .array [.string "Read", .string "Write"])]

def ownerMembers : Members := [("title", .string "Owner"), ("type", .string "string")]

/-- A folder has a mode, an owner and the folder that it is in. -/
def folderProperties : Members :=
  [("mode", .object modeMembers), ("owner", .object ownerMembers),
    ("parent", .object [("$ref", .string "#")])]

def folderMembers : Members :=
  [("title", .string "Folder"), ("properties", .object folderProperties),
    ("additionalProperties", .bool false), ("required", .array [])]

def folderContext : BuildContext where
  schemas := ⟨[⟨none, .object folderMembers⟩], [(⟨0, "#/properties/parent", none⟩, .fragment .root)],
    50⟩
  rootName := "Folder"
  options := {}

/-- The interface of folders leads back to itself. -/
def folderGraph : TypeGraph where
  nodes := #[
    some {
      kind := .interface [⟨"mode", 1, false, false, false⟩, ⟨"owner", 4, false, false, false⟩,
        ⟨"parent", 0, false, false, false⟩] []
      name := some "Folder" },
    some { kind := .enum [⟨"Read", 2⟩, ⟨"Write", 3⟩], key := some "mode", name := some "Mode" },
    some { kind := .literal (.string "r") },
    some { kind := .literal (.string "w") },
    some { kind := .string, key := some "owner", name := some "Owner" }]

/-- The mode and the owner are built while the folder is. -/
def partsBuilder : Builder where
  graph := { folderGraph with nodes := folderGraph.nodes.set! 0 none }
  processed := [(below .root ["properties", "owner"], 4), (below .root ["properties", "mode"], 1),
    (.root, 0)]
  usedNames := ["Folder", "Mode", "Owner"]
  inProgress := [0]

def modeBuilder : Builder :=
  { partsBuilder with
    graph := { partsBuilder.graph with nodes := partsBuilder.graph.nodes.pop }
    processed := [(below .root ["properties", "mode"], 1), (.root, 0)]
    usedNames := ["Folder", "Mode"] }

section Folders

variable {done : NodeId → Builder → Prop} {failed : CompileError → Builder → Prop}

theorem ends_visit_mode :
    Ends (visit folderContext [.root] (below .root ["properties", "mode"]) (.object modeMembers)
      (some "mode") false) (rootBuilder "Folder") done failed ↔ done 1 modeBuilder := by
  have hmode : folderContext.schemas.resolve (below .root ["properties", "mode"]) =
      .ok (.fragment (below .root ["properties", "mode"])) := by rfl
  have hhint : nameHint folderContext (below .root ["properties", "mode"]) (.object modeMembers)
      (some "mode") false = some "Mode" := by rfl
  have hfresh : Identifier.fresh "Mode" (rootBuilder "Folder").usedNames = "Mode" := by rfl
  have hform : Schema.form folderContext.options.unreachableDefinitions
      (below .root ["properties", "mode"]).variant (.object modeMembers) =
      .enumeration [.string "r", .string "w"] := by rfl
  have hnames : (modeMembers.lookup "tsEnumNames").bind Json.items? =
      some [.string "Read", .string "Write"] := by rfl
  rw [ends_visit_new hmode rfl (by decide), ends_build_named hhint rfl, parts_eq, hform, partsOf,
    enumKind]
  dsimp only [Json.members?, Option.getD_some]
  rw [hnames, hfresh]
  dsimp only
  rw [ends_bind]
  rfl

theorem ends_visit_owner :
    Ends (visit folderContext [.root] (below .root ["properties", "owner"]) (.object ownerMembers)
      (some "owner") false) modeBuilder done failed ↔ done 4 partsBuilder := by
  have howner : folderContext.schemas.resolve (below .root ["properties", "owner"]) =
      .ok (.fragment (below .root ["properties", "owner"])) := by rfl
  have hhint : nameHint folderContext (below .root ["properties", "owner"]) (.object ownerMembers)
      (some "owner") false = some "Owner" := by rfl
  have hfresh : Identifier.fresh "Owner" modeBuilder.usedNames = "Owner" := by rfl
  have hform : Schema.form folderContext.options.unreachableDefinitions
      (below .root ["properties", "owner"]).variant (.object ownerMembers) = .string := by rfl
  rw [ends_visit_new howner rfl (by decide), ends_build_named hhint rfl, parts_eq, hform, partsOf,
    hfresh]
  rfl

end Folders

theorem ofSchemas_folderContext : TypeGraph.ofSchemas folderContext = .ok folderGraph := by
  have hroot : folderContext.schemas.resolve .root = .ok (.fragment .root) := by rfl
  have hparent : folderContext.schemas.resolve (below .root ["properties", "parent"]) =
      .ok (.fragment .root) := by rfl
  have hhint : nameHint folderContext .root (.object folderMembers) none true = some "Folder" := by
    rfl
  have hfresh : Identifier.fresh "Folder" [] = "Folder" := by rfl
  have hform : Schema.form folderContext.options.unreachableDefinitions (Fragment.root).variant
      (.object folderMembers) = .interface folderMembers := by rfl
  have hrun : (fragment folderContext .root none true).run {} =
      (.ok 0, { partsBuilder with graph := folderGraph, inProgress := [], needsName := [0] }) := by
    refine run_of_ends ?_
    rw [ends_fragment (by rfl), ends_visit_new hroot rfl List.not_mem_nil,
      ends_build_named hhint rfl, parts_eq, hform, partsOf, interface_of_reachable rfl,
      show namedMembers folderMembers "properties" = folderProperties by rfl,
      show namedMembers folderMembers "patternProperties" = [] by rfl, folderProperties, hfresh]
    simp only [visitNamed, pure_bind, ends_bind]
    refine ends_visit_mode.2 (ends_visit_owner.2 ?_)
    rw [ends_visit_seen hparent rfl]
    exact ⟨rfl, rfl⟩
  unfold TypeGraph.ofSchemas
  rw [hrun]
  rfl

end Build

/-! ## The whole compile -/

theorem not_isUnsupported_of_isSchemaFault {e : CompileError} (h : e.IsSchemaFault) :
    ¬ e.IsUnsupported := by
  cases e <;> first | exact id | exact h.elim

theorem not_isUnsupported_of_isLayout {e : CompileError} (h : e.IsLayout) :
    ¬ e.IsUnsupported := by
  cases e <;> first | exact id | exact h.elim

/-- No compile meets a node without text: a graph that is built from schemas is well-formed, which
simplification keeps, and the declarations of a well-formed graph have a text for all options. -/
theorem supported_of_compile (env : Environment) (job : Job) :
    (∀ node path cause, job.run env ≠ .error (.unsupportedNode node path cause)) ∧
    (∀ ctx g, TypeGraph.ofSchemas ctx = .ok g → g.WellFormed ∧
      ∀ keep options, ∃ out, Declaration.text options (g.simplify keep) = .ok out) ∧
    ∀ (g : TypeGraph) keep, g.WellFormed → (g.simplify keep).WellFormed := by
  have hkeeps : ∀ (g : TypeGraph) keep, g.WellFormed → (g.simplify keep).WellFormed :=
    fun _ keep h => h.simplify keep
  have htext : ∀ ctx g, TypeGraph.ofSchemas ctx = .ok g → g.WellFormed ∧
      ∀ keep options, ∃ out, Declaration.text options (g.simplify keep) = .ok out := by
    intro ctx g h
    have hg := TypeGraph.wellFormed_ofSchemas h
    exact ⟨hg, fun keep options => Declaration.exists_text (hkeeps g keep hg) options⟩
  refine ⟨fun node path cause heq => ?_, htext, hkeeps⟩
  have hfails : FailsAs (¬ ·.IsUnsupported) (job.run env) := by
    unfold Job.run
    refine .bind (failsAs_check _ _) fun _ _ => ?_
    refine .bind ((failsAs_load _ _ _ _).mono fun _ => not_isUnsupported_of_isSchemaFault)
      fun schemas _ => ?_
    refine .bind (fun e he => not_isUnsupported_of_isSchemaFault
      (TypeGraph.isSchemaFault_of_ofSchemas he)) fun g hg => ?_
    obtain ⟨out, hout⟩ := (htext _ g hg).2 job.options.unreachableDefinitions job.options
    refine .bind (fun e he => ?_) fun text _ =>
      (Layout.failsAs_format _ _).mono fun _ => not_isUnsupported_of_isLayout
    rw [hout] at he
    cases he
  exact hfails _ heq trivial

/-- Folders are compiled, although their interface refers to itself. -/
theorem supported_of_compile_folderContext :
    TypeGraph.ofSchemas Build.folderContext = .ok Build.folderGraph ∧
    ∀ keep options, ∃ out, Declaration.text options (Build.folderGraph.simplify keep) = .ok out :=
  ⟨Build.ofSchemas_folderContext,
    ((supported_of_compile ⟨"/", fun _ => .missing⟩ ⟨{}, none, "Folder", .null⟩).2.1 _ _
      Build.ofSchemas_folderContext).2⟩

/-- Unless declarations are restricted, what a compile declares is what the root reaches: every
reachable name once, and every name that is printed. -/
theorem complete_of_compile {ctx : BuildContext} {g : TypeGraph}
    (h : TypeGraph.ofSchemas ctx = .ok g) (keep : Bool) {options : Options}
    (hopt : options.declareExternallyReferenced = true) :
    Declaration.Complete (g.simplify keep) options :=
  Declaration.complete_of_labelled ((TypeGraph.wellFormed_ofSchemas h).simplify keep)
    ((TypeGraph.labelled_ofSchemas h).simplify (TypeGraph.wellFormed_ofSchemas h).inside keep) hopt

/-- An owner, a folder and a mode are declared, each in a pass of its own. -/
theorem complete_of_compile_folderContext :
    TypeGraph.ofSchemas Build.folderContext = .ok Build.folderGraph ∧
    ({} : Options).declareExternallyReferenced = true ∧
    Pass.aliases.names (Build.folderGraph.simplify false) {} = ["Owner"] ∧
    Pass.interfaces.names (Build.folderGraph.simplify false) {} = ["Folder"] ∧
    Pass.enums.names (Build.folderGraph.simplify false) {} = ["Mode"] ∧
    Declaration.Complete (Build.folderGraph.simplify false) {} :=
  ⟨Build.ofSchemas_folderContext, rfl, by cbv, by cbv, by cbv,
    complete_of_compile Build.ofSchemas_folderContext false rfl⟩

/-! ## A successful compile -/

namespace Job

variable {env : Environment} {job : Job} {out written : String} {schemas : SchemaGraph}
  {g : TypeGraph}

/-- What a build from the loaded documents of a job reads. -/
def context (job : Job) (schemas : SchemaGraph) : BuildContext :=
  ⟨schemas.normalize job.name, job.name, job.options⟩

/-- The results of the stages of a compile that succeeds. -/
structure Stages (env : Environment) (job : Job) (schemas : SchemaGraph) (g : TypeGraph)
    (written out : String) : Prop where
  checked : check job.name job.schema = .ok ()
  loaded : SchemaGraph.load env job.options job.location job.schema = .ok schemas
  built : TypeGraph.ofSchemas (job.context schemas) = .ok g
  declared : Declaration.text job.options (g.simplify job.options.unreachableDefinitions) =
    .ok written
  laidOut : Layout.format job.options.style written = .ok out

theorem exists_stages (h : job.run env = .ok out) :
    ∃ schemas g written, job.Stages env schemas g written out := by
  unfold run at h
  obtain ⟨_, hchecked, h⟩ := Loading.ok_of_bind h
  obtain ⟨schemas, hloaded, h⟩ := Loading.ok_of_bind h
  obtain ⟨g, hbuilt, h⟩ := Loading.ok_of_bind h
  obtain ⟨written, hwritten, hlaid⟩ := Loading.ok_of_bind h
  exact ⟨schemas, g, written, hchecked, hloaded, hbuilt, hwritten, hlaid⟩

theorem Stages.run_eq (h : job.Stages env schemas g written out) : job.run env = .ok out := by
  have hbuilt := h.built
  rw [context] at hbuilt
  unfold run
  rw [h.checked, h.loaded]
  simp only [bind, Except.bind]
  rw [hbuilt]
  dsimp only
  rw [h.declared]
  exact h.laidOut

theorem Stages.wellFormed (h : job.Stages env schemas g written out) (keep : Bool) :
    (g.simplify keep).WellFormed :=
  (TypeGraph.wellFormed_ofSchemas h.built).simplify keep

theorem Stages.labelled (h : job.Stages env schemas g written out) (keep : Bool) :
    (g.simplify keep).Labelled :=
  (TypeGraph.labelled_ofSchemas h.built).simplify (TypeGraph.wellFormed_ofSchemas h.built).inside
    keep

end Job

end Typewright
