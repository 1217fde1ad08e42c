import Typewright.Proofs.Build.References
import Typewright.Proofs.Build.Titles
import Typewright.Proofs.Compile
import Typewright.Proofs.Declaration.Output
import Typewright.Proofs.Graph.Targets

/-!
# The root is declared

The root of a build is named after its title or after the job, simplification keeps it as the root
under its name, and each walk begins there. So a compile that succeeds declares its root, except for
a root that is a reference to something that is not loaded: its node is the opaque name alone, and
nothing is declared (`Job.root_declared_of_run`).
-/

namespace Typewright

open Declaration (Declares)

namespace Job

variable {env : Environment} {job : Job} {out written : String} {schemas : SchemaGraph}
  {g : TypeGraph}

theorem Stages.resolve_context (job : Job) (schemas : SchemaGraph) (id : Fragment) :
    (job.context schemas).schemas.resolve id = schemas.resolve id :=
  schemas.resolve_normalize job.name id

/-- The root of the graph that is declared has a name. -/
theorem Stages.exists_root (h : job.Stages env schemas g written out) {id : Fragment}
    (hr : schemas.resolve .root = .ok (.fragment id)) (keep : Bool) :
    ∃ name, (g.simplify keep).Holds (g.simplify keep).root name := by
  have hv : id.variant = none := by
    rcases schemas.resolve_eq_or_mem hr with rfl | hmem
    · rfl
    · exact (SchemaGraph.accurate_of_load h.loaded).variant_eq_none hmem
  have hctx := (Stages.resolve_context job schemas .root).trans hr
  obtain ⟨node, name, hn, hname⟩ := TypeGraph.exists_root_name h.built hctx hv
  exact ⟨name, TypeGraph.exists_root_simplify (TypeGraph.wellFormed_ofSchemas h.built).inside
    ⟨node, hn, hname⟩ keep⟩

theorem Stages.declares_root (h : job.Stages env schemas g written out) {name : String}
    (hroot : (g.simplify job.options.unreachableDefinitions).Holds
      (g.simplify job.options.unreachableDefinitions).root name) :
    Declares job.options (g.simplify job.options.unreachableDefinitions) out
      (g.simplify job.options.unreachableDefinitions).root name := by
  obtain ⟨node, hn, hname⟩ := hroot
  obtain ⟨d, hd, hid, rfl⟩ := Pass.mem_declared_root hn (by simp [hname]) job.options
  rw [← hid]
  exact Declaration.declares_of_mem (h.wellFormed _) (h.labelled _) h.declared h.laidOut hd hname

/-- A compile declares its root, unless the root refers to something that is not loaded. -/
theorem root_declared_of_run (h : job.run env = .ok out)
    (hroot : ∀ schemas name,
      SchemaGraph.load env job.options job.location job.schema = .ok schemas →
      schemas.resolve .root ≠ .ok (.external name)) :
    ∃ schemas g written, job.Stages env schemas g written out ∧
      ∃ name, Declares job.options (g.simplify job.options.unreachableDefinitions) out
        (g.simplify job.options.unreachableDefinitions).root name := by
  obtain ⟨schemas, g, written, hs⟩ := exists_stages h
  refine ⟨schemas, g, written, hs, ?_⟩
  obtain ⟨s, -, -, -, hfinds, -⟩ := TypeGraph.exists_builder hs.built
  unfold Build.Finds at hfinds
  rw [Stages.resolve_context] at hfinds
  cases hr : schemas.resolve .root with
  | error e =>
      rw [hr] at hfinds
      exact hfinds.elim
  | ok t =>
      cases t with
      | external name => exact absurd hr (hroot schemas name hs.loaded)
      | fragment id =>
          obtain ⟨name, hname⟩ := hs.exists_root hr job.options.unreachableDefinitions
          exact ⟨name, hs.declares_root hname⟩

/-! ## Two roots -/

/-- A job without files and banner. -/
def inMemory (options : Options) (name : String) (schema : Json) : Job :=
  ⟨{ options with bannerComment := "" }, none, name, schema⟩

/-- The list of lists of lists and so on is declared under its title. -/
theorem root_declared_of_run_recursiveList :
    (inMemory {} "Root" Build.recursiveList).run Build.noFiles =
      .ok "export type List = List[];\n" ∧
    ∃ schemas g written, (inMemory {} "Root" Build.recursiveList).Stages Build.noFiles schemas g
      written "export type List = List[];\n" ∧
      ∃ name, Declares { bannerComment := "" } (g.simplify false) "export type List = List[];\n"
        (g.simplify false).root name := by
  have hload : SchemaGraph.load Build.noFiles { bannerComment := "" } none Build.recursiveList =
      .ok Build.recursiveContext.schemas := Build.load_recursiveList ""
  have hbuilt : TypeGraph.ofSchemas ((inMemory {} "Root" Build.recursiveList).context
      Build.recursiveContext.schemas) =
      .ok ⟨#[some { kind := .array 0, name := some "List" }], 0⟩ := by
    unfold context
    dsimp only [inMemory]
    unfold TypeGraph.ofSchemas
    rw [Build.run_recursiveList]
  have hstages : (inMemory {} "Root" Build.recursiveList).Stages Build.noFiles
      Build.recursiveContext.schemas ⟨#[some { kind := .array 0, name := some "List" }], 0⟩
      "export type List = List[]\n" "export type List = List[];\n" :=
    ⟨by cbv, hload, hbuilt, by cbv, by rfl⟩
  refine ⟨hstages.run_eq, root_declared_of_run hstages.run_eq fun schemas name h => ?_⟩
  obtain rfl := Except.ok.inj (h.symm.trans hload)
  have hroot : Build.recursiveContext.schemas.resolve .root = .ok (.fragment .root) := by rfl
  rw [hroot]
  intro heq
  cases heq

/-- A schema that is a reference to a file. -/
def referenceToFile : Json := .object [("$ref", .string "other.json")]

/-- A root that refers to a file which is not loaded is not declared. -/
theorem exists_root_undeclared : ¬ ∀ (env : Environment) (job : Job) (out : String),
    job.run env = .ok out → ∃ schemas g written, job.Stages env schemas g written out ∧
      ∃ name, Declares job.options (g.simplify job.options.unreachableDefinitions) out
        (g.simplify job.options.unreachableDefinitions).root name := by
  intro h
  have hrun : (inMemory { refOptions := { external := false } } "Root" referenceToFile).run
      Build.noFiles = .ok "\n" := by
    cbv
  obtain ⟨_, _, _, -, _, -, _, -, line, hline, -⟩ := h _ _ _ hrun
  cases List.mem_of_mem_drop hline

end Job

end Typewright
