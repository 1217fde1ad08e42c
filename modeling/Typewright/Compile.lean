import Typewright.Declaration.Basic
import Typewright.Layout
import Typewright.TypeGraph.Build
import Typewright.TypeGraph.Simplify

/-!
# Compiling schemas

A JSON Schema document becomes TypeScript declarations: its faults are looked for, the documents it
refers to are loaded, all are brought into normal form, a type graph is built from them and
simplified, and its declarations are written and laid out.
-/

namespace Typewright

/-- Refuses a schema with faults. -/
def check (name : String) (schema : Json) : Except CompileError Unit :=
  match Schema.faults schema with
  | [] => .ok ()
  | faults => .error (.invalid name faults)

/-- A schema to be compiled: where it was loaded from, if it is not given in memory, and the name of
its root. -/
structure Job where
  options : Options
  location : Option FileUrl
  name : String
  schema : Json

namespace Job

/-- The schema in a file, named after the file. -/
def ofFile (env : Environment) (options : Options) (path : String) : Except CompileError Job :=
  match env.file path with
  | .text content =>
    match Json.read content, FilePath.absolute? env.workingDirectory path with
    | some schema, some names =>
      .ok ⟨options, some (FileUrl.ofNames names), (FilePath.stem? path).getD "", schema⟩
    | _, _ => .error (.unreadable path "the file holds no JSON value")
  | other => .error (.unreadable path other.reason)

/-- The declarations of a job's schema. -/
def run (env : Environment) (job : Job) : Except CompileError String := do
  check job.name job.schema
  let schemas ← SchemaGraph.load env job.options job.location job.schema
  let graph ← TypeGraph.ofSchemas ⟨schemas.normalize job.name, job.name, job.options⟩
  let graph := graph.simplify job.options.unreachableDefinitions
  let text ← Declaration.text job.options graph
  Layout.format job.options.style text

end Job

/-- The declarations of a schema in memory, whose file references resolve against `options.cwd`. -/
def compile (env : Environment) (options : Options) (name : String) (schema : Json) :
    Except CompileError String :=
  Job.run env ⟨options, none, name, schema⟩

/-- The declarations of the schema in a file, whose references resolve against its location. -/
def compileFile (env : Environment) (options : Options) (path : String) :
    Except CompileError String := do
  Job.run env (← Job.ofFile env options path)

end Typewright
