import Typewright.CommandLine.Arguments
import Typewright.Compile

/-!
# The command line

The commands `compile` and `check`: which options they take, and what they do with the files they
are given. `Request.outcome` says what is to be written; the files are read through an
`Environment`.
-/

namespace Typewright.CommandLine

open Arguments (Spec Given Stop)

/-- The name and version of the program. -/
def versionText : String := "jsonschema-ts 0.1.0\n"

def helpText : String :=
  "Compile JSON Schema into TypeScript type declarations\n\n" ++
  "Usage: jsonschema-ts [OPTIONS] <COMMAND>\n\n" ++
  "Commands:\n" ++
  "  compile  Compile a JSON Schema into TypeScript declarations\n" ++
  "  check    Validate a JSON Schema without compiling it\n"

/-! ## Requests -/

/-- What `compile` is asked to do. -/
structure CompileRequest where
  input : Option String
  output : Option String
  name : Option String
  config : Option String
  /-- The options given on the command line, applied over those of the config file. -/
  given : Given

/-- What the program is asked to do. -/
inductive Request where
  | compile (request : CompileRequest)
  | check (input : Option String)

def commonSpecs : List Spec := [⟨"verbose", some 'v', .flag⟩, ⟨"help", some 'h', .help⟩]

def rootSpecs : List Spec := commonSpecs ++ [⟨"version", some 'V', .version⟩]

def compileSpecs : List Spec :=
  commonSpecs ++
  [ ⟨"output", some 'o', .path⟩, ⟨"name", some 'n', .text⟩, ⟨"config", none, .path⟩,
    ⟨"banner-comment", none, .text⟩, ⟨"no-declare-external", none, .flag⟩,
    ⟨"no-const-enums", none, .flag⟩, ⟨"unreachable-definitions", none, .flag⟩,
    ⟨"no-external-refs", none, .flag⟩, ⟨"max-depth", none, .count⟩, ⟨"indent-width", none, .count⟩,
    ⟨"use-tabs", none, .flag⟩, ⟨"no-semi", none, .flag⟩ ]

/-- The input path; a dash stands for the standard input. -/
def inputOf (g : Given) : Option String := g.positional.head?.filter (· != "-")

/-- The commands that are known to `help`. -/
def commandNames : List String := ["compile", "check", "help"]

/-- Reads the words of a command line. -/
def Request.ofWords (words : List String) : Except Stop Request := do
  match (← Arguments.read rootSpecs (commandNames.contains ·) 0 {} none words).2 with
  | "compile" :: words =>
    let given ← Arguments.readCommand compileSpecs words
    return .compile
      { input := inputOf given, output := given.options.lookup "output",
        name := given.options.lookup "name", config := given.options.lookup "config", given }
  | "check" :: words => return .check (inputOf (← Arguments.readCommand commonSpecs words))
  | ["help"] => throw .help
  | ["help", name] => throw (if commandNames.contains name then .help else .usage)
  | _ => throw .usage

/-! ## Options -/

/-- Options from a config file, or the default ones. An error says what could not be done. -/
def configured (env : Environment) : Option String → Except String Options
  | none => .ok {}
  | some path =>
    match env.file path with
    | .missing => .error ("Failed to open config file: " ++ path)
    | content =>
      match content.text?.bind Options.read with
      | some options => .ok options
      | none => .error ("Failed to parse config from: " ++ path)

/-- Options with those of the command line applied. -/
def overridden (g : Given) (o : Options) : Options :=
  let has (name : String) : Bool := (g.options.lookup name).isSome
  let count (name : String) (default : Nat) : Nat :=
    ((g.options.lookup name).bind Arguments.count?).getD default
  { o with
    bannerComment := (g.options.lookup "banner-comment").getD o.bannerComment
    declareExternallyReferenced :=
      o.declareExternallyReferenced && !has "no-declare-external"
    enableConstEnums := o.enableConstEnums && !has "no-const-enums"
    unreachableDefinitions := o.unreachableDefinitions || has "unreachable-definitions"
    refOptions :=
      { external := o.refOptions.external && !has "no-external-refs"
        maxDepth := count "max-depth" o.refOptions.maxDepth }
    style :=
      { indentWidth := count "indent-width" o.style.indentWidth
        useTabs := o.style.useTabs || has "use-tabs"
        semi := o.style.semi && !has "no-semi" } }

/-! ## Work -/

/-- The standard input, or nothing where it is no text. -/
abbrev Stdin := Option String

/-- The schema in a file or in the standard input. -/
def readSchema (env : Environment) (stdin : Stdin) : Option String → Except String Json
  | some path =>
    match env.file path with
    | .missing => .error ("Failed to open input file: " ++ path)
    | content =>
      match content.text?.bind Json.read with
      | some schema => .ok schema
      | none => .error ("Failed to parse schema from: " ++ path)
  | none =>
    match stdin with
    | none => .error "Failed to read schema from stdin"
    | some text =>
      match Json.read text with
      | some schema => .ok schema
      | none => .error "Failed to parse schema from stdin"

def compilationFailed : String := "Compilation failed"

/-- The job of a `compile` command. A file without `--name` is compiled at its location; otherwise
the schema is compiled as one in memory, with the directory of the file for its references. -/
def CompileRequest.job (env : Environment) (stdin : Stdin) (request : CompileRequest) :
    Except String Job := do
  let options := overridden request.given (← configured env request.config)
  match request.input, request.name with
  | some path, none => (Job.ofFile env options path).mapError fun _ => compilationFailed
  | input, name => do
    let schema ← readSchema env stdin input
    let cwd := (input.bind FilePath.directory?).getD options.cwd
    return ⟨{ options with cwd }, none, name.getD "Schema", schema⟩

/-- What the program leaves behind. -/
inductive Outcome where
  /-- A failed step, with what it was and why. -/
  | failed (context : String) (cause : Option CompileError)
  | print (text : String)
  | write (path : String) (text : String)

/-- What a request leads to. -/
def Request.outcome (env : Environment) (stdin : Stdin) : Request → Outcome
  | .compile request =>
    match request.job env stdin with
    | .error context => .failed context none
    | .ok job =>
      match job.run env with
      | .error e => .failed compilationFailed (some e)
      | .ok text =>
        match request.output with
        | some path => .write path text
        | none => .print text
  | .check input =>
    match readSchema env stdin input with
    | .error context => .failed context none
    | .ok schema =>
      let name := (input.bind FilePath.stem?).getD "Schema"
      match Typewright.check name schema with
      | .error e => .failed "Check failed" (some e)
      | .ok () => .print (name ++ ": ok\n")

end Typewright.CommandLine
