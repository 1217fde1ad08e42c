import Typewright.CommandLine.Basic

/-!
# The program

Reads the files that a command line needs, works out its outcome from them, and carries that out.
-/

namespace Typewright.Program

open CommandLine (Request Outcome)

/-- The files that have been read, by the paths they were read from. -/
abbrev Files := List (String × FileContent)

/-- What a path names on this machine. A directory can be opened, but not read. -/
def readPath (path : String) : IO FileContent := do
  match ← (IO.FS.Handle.mk path .read).toBaseIO with
  | .error _ => return .missing
  | .ok handle =>
    match ← handle.readBinToEnd.toBaseIO with
    | .error _ => return .directory
    | .ok bytes => return (String.fromUTF8? bytes).elim .notText .text

/-- Reads the files at the given locations and those that they name, directly or through one
another, where `join` reads references. -/
partial def readLinked (join : FileUrl → String → Option Resource) (files : Files) :
    List FileUrl → IO Files
  | [] => return files
  | url :: rest =>
    match url.filePath? with
    | none => readLinked join files rest
    | some path =>
      if (files.lookup path).isSome then readLinked join files rest
      else do
        let content ← readPath path
        let linked := (content.text?.bind Json.read).elim [] (linkedFiles join url)
        readLinked join ((path, content) :: files) (rest ++ linked)

/-- An environment that knows the files that have been read, and reads references as URLs. -/
def environment (directory : String) (files : Files) : Environment where
  workingDirectory := directory
  file path := (files.lookup path).getD .missing
  joiner := ⟨FileUrl.resolve⟩

/-- The paths that a request names. -/
def pathsOf : Request → List String
  | .compile request => request.input.toList ++ request.config.toList
  | .check input => input.toList

/-- The environment that a request needs. -/
def environmentFor (stdin : CommandLine.Stdin) (request : Request) : IO Environment := do
  let directory := (← IO.currentDir).toString
  let files ← (pathsOf request).mapM fun path => return (path, ← readPath path)
  let env := environment directory files
  match request with
  | .check _ => return env
  | .compile request =>
    match request.job env stdin with
    | .error _ => return env
    | .ok job =>
      match rootBase directory job.options job.location with
      | some base =>
        if job.options.refOptions.external then
          return environment directory
            (← readLinked env.join files (linkedFiles env.join base job.schema))
        else return env
      | none => return env

/-- Whether a request reads the standard input. -/
def readsStdin : Request → Bool
  | .compile request => request.input.isNone
  | .check input => input.isNone

def fail (context : String) (cause : Option String) : IO UInt32 := do
  IO.eprintln ("Error: " ++ context)
  if let some cause := cause then IO.eprintln ("\nCaused by:\n    " ++ cause)
  return 1

/-- Carries out an outcome and gives the exit code. -/
def carryOut : Outcome → IO UInt32
  | .failed context cause => fail context (cause.map CompileError.message)
  | .print text => do
    let stdout ← IO.getStdout
    stdout.putStr text
    stdout.flush
    return 0
  | .write path text => do
    match ← (IO.FS.writeFile path text).toBaseIO with
    | .ok () => return 0
    | .error e => fail ("Failed to create output file: " ++ path) (some (toString e))

/-- Runs the program on the words of its command line. -/
def run (words : List String) : IO UInt32 := do
  match Request.ofWords words with
  | .error .usage => do
    IO.eprint CommandLine.helpText
    return 2
  | .error .help => carryOut (.print CommandLine.helpText)
  | .error .version => carryOut (.print CommandLine.versionText)
  | .ok request =>
    let stdin ←
      if readsStdin request then pure (String.fromUTF8? (← (← IO.getStdin).readBinToEnd))
      else pure none
    let env ← environmentFor stdin request
    carryOut (request.outcome env stdin)

end Typewright.Program

def main (words : List String) : IO UInt32 := Typewright.Program.run words
