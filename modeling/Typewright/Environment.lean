import Typewright.Location.FileUrl

/-!
# What a compile sees

Files are read and references joined to locations through an `Environment`, so that a compile is a
function of what the files hold and of how references are read.
-/

namespace Typewright

/-- What a path names. -/
inductive FileContent where
  | text (content : String)
  | notText
  | directory
  | missing
deriving DecidableEq, Repr, Inhabited

namespace FileContent

def text? : FileContent → Option String
  | .text s => some s
  | _ => none

/-- Why a path gives no text. -/
def reason : FileContent → String
  | .text _ => "the file can be read"
  | .notText => "stream did not contain valid UTF-8"
  | .directory => "Is a directory (os error 21)"
  | .missing => "No such file or directory (os error 2)"

end FileContent

/-- How a reference is read relative to a location. -/
class Joiner where
  join : FileUrl → String → Option Resource

/-- The program reads references as URLs. -/
instance : Joiner := ⟨FileUrl.resolve⟩

/-- The directory that relative paths start from, the files, and how references are read. -/
structure Environment where
  workingDirectory : String
  file : String → FileContent
  [joiner : Joiner]

/-- What a reference names relative to a location. -/
def Environment.join (env : Environment) : FileUrl → String → Option Resource := env.joiner.join

end Typewright
