import Typewright.Text.Lines
import Typewright.Location.FilePath
import Typewright.Location.Percent
import Typewright.Location.Authority

/-!
# File URLs

Locations of documents. `FileUrl.resolve` reads a reference relative to a location;
`FileUrl.ofNames` and `FileUrl.filePath?` go between URLs and paths of files. A drive letter is kept
by `..`, and in front of a path it is written with a colon. Tabs and line breaks in a reference do
not count, but one behind a drive letter and its colon ends the segment.
-/

namespace Typewright

/-- A `file` URL without fragment: its host, empty for local files, its encoded path segments and
its encoded query. -/
structure FileUrl where
  host : String
  segments : List String
  query : Option String
deriving DecidableEq, Repr, Inhabited

/-- What a reference names: a file with the reference's fragment, or something under another
scheme. -/
inductive Resource where
  | file (url : FileUrl) (fragment : String)
  | other (scheme : String)
deriving DecidableEq, Repr

namespace FileUrl

def text (url : FileUrl) : String :=
  "file://" ++ url.host ++ "/" ++ String.intercalate "/" url.segments ++
    (match url.query with
      | none => ""
      | some q => "?" ++ q)

/-! ## Characters -/

/-- Tabs and line breaks, which do not count in a reference. -/
def isIgnored (c : Char) : Bool := c == '\t' || c == '\n' || c == '\r'

/-- The characters of a text that count. -/
def counted (cs : List Char) : List Char := cs.filter (!isIgnored ·)

/-- A text from its first character that counts. -/
def skipIgnored (cs : List Char) : List Char := cs.dropWhile isIgnored

def isLetter (c : Char) : Bool := ('a' ≤ c && c ≤ 'z') || ('A' ≤ c && c ≤ 'Z')

def isSlash (c : Char) : Bool := c == '/' || c == '\\'

def isPathEnd (c : Char) : Bool := c == '?' || c == '#'

/-! ## Drive letters -/

/-- A drive letter with its colon or bar. -/
def isDrive : List Char → Bool
  | [c, d] => isLetter c && (d == ':' || d == '|')
  | _ => false

/-- A drive letter that is a whole segment starts the text. -/
def startsWithDrive (cs : List Char) : Bool :=
  let cs := counted cs
  isDrive (cs.take 2) && (cs.drop 2).head?.all fun c => isSlash c || isPathEnd c

def isNormalDrive (s : String) : Bool := isDrive s.toList && s.toList.getLast? == some ':'

/-- What follows a drive letter and its colon in a segment, if anything does and a tab or a line
break is in between. -/
def cutDrive? (segment : List Char) : Option (List Char × List Char) :=
  match skipIgnored segment with
  | c :: more =>
    match skipIgnored more with
    | ':' :: t :: rest =>
      if isLetter c && isIgnored t && !(counted rest).isEmpty then some ([c, ':'], counted rest)
      else none
    | _ => none
  | [] => none

/-! ## Paths of files -/

/-- The URL of the file reached from the root by `names`. -/
def ofNames (names : List String) : FileUrl :=
  let segments :=
    names.map fun name => String.ofList (Percent.encode Percent.keepSegment name.toList)
  ⟨"", if segments.isEmpty then [""] else segments, none⟩

/-- The URL of a directory, against which the names of its files resolve. -/
def ofDirectory (names : List String) : FileUrl :=
  if names.isEmpty then ofNames names
  else { ofNames names with segments := (ofNames names).segments ++ [""] }

/-- The path of the file that a URL names; nothing for a file of another host. A path that ends in a
drive letter gets a slash. Paths are texts here: an octet that is no UTF-8 becomes U+FFFD, so `a%FF`
and `a%FE` name one path, where the file system may hold two files. -/
def filePath? (url : FileUrl) : Option String :=
  if url.host != "" then none
  else
    let bytes := url.segments.flatMap fun s => '/'.toNat :: Percent.decode s.toList
    let cs := Text.decodeLossy bytes
    let cs := if isDrive (cs.drop (cs.length - 2)) then cs ++ ['/'] else cs
    some (String.ofList cs)

/-- The stem of the name of the file, in its encoded form. -/
def stem? (url : FileUrl) : Option String := url.segments.getLast?.bind FilePath.stem?

/-! ## Paths of URLs -/

/-- A path without its last segment; a drive letter stays. -/
def shorten (segments : List String) : List String :=
  if segments.getLast?.any isNormalDrive then segments else segments.dropLast

/-- A path one level up; a drive letter stays, also one with a bar. -/
def ascend (segments : List String) : List String :=
  if segments.getLast?.any fun s => isDrive s.toList then segments else segments.dropLast

/-- Spellings of `.`, in which a dot may be encoded. -/
def isDot (s : String) : Bool := s == "." || s == "%2e" || s == "%2E"

/-- Spellings of `..`. -/
def isDoubleDot (s : String) : Bool :=
  ["..", "%2e%2e", "%2e%2E", "%2E%2e", "%2E%2E", "%2e.", "%2E.", ".%2e", ".%2E"].contains s

/-- A path segment in its encoded form. -/
def encodeSegment (segment : List Char) : String :=
  String.ofList (Percent.encode Percent.keepPath segment)

/-- A URL whose path is continued by one segment, of which all characters count; `last` says that no
slash follows it. A drive letter in front gets a colon and takes the host away. -/
def addCounted (url : FileUrl) (segment : List Char) (last : Bool) : FileUrl :=
  let encoded := encodeSegment segment
  let tail := if last then [""] else []
  if isDoubleDot encoded then { url with segments := ascend url.segments ++ tail }
  else if isDot encoded then { url with segments := url.segments ++ tail }
  else if url.segments.isEmpty && isDrive segment then
    { url with host := "", segments := [String.ofList (segment.take 1 ++ [':'])] }
  else { url with segments := url.segments ++ [encoded] }

/-- A URL whose path is continued by one segment. -/
def addSegment (url : FileUrl) (segment : List Char) (last : Bool) : FileUrl :=
  match if url.segments.isEmpty then cutDrive? segment else none with
  | some (drive, name) => { url with segments := [encodeSegment drive, encodeSegment name] }
  | none => addCounted url (counted segment) last

/-- A URL whose path is continued by several segments. -/
def addSegments (url : FileUrl) : List (List Char) → FileUrl
  | [] => url
  | [piece] => addSegment url piece true
  | piece :: more => addSegments (addSegment url piece false) more

/-- A path without empty segments in front; a path has at least one segment. -/
def trimRoot (segments : List String) : List String :=
  match segments.dropWhile (· == "") with
  | [] => [""]
  | rest => rest

/-- Reads a query and a fragment, of which the first starts with `?` and the second with `#`. -/
def readTail (cs : List Char) : Option String × String :=
  let cs := counted cs
  let query := cs.takeWhile (· != '#')
  let fragment := (cs.dropWhile (· != '#')).drop 1
  let query :=
    match query with
    | '?' :: q => some (String.ofList (Percent.encode Percent.keepQuery q))
    | _ => none
  (query, String.ofList (Percent.encode Percent.keepFragment fragment))

/-- Reads a path, a query and a fragment, where the path continues `segments`. -/
def readPath (host : String) (segments : List String) (cs : List Char) : Resource :=
  let pieces := Text.pieces isSlash (cs.takeWhile (!isPathEnd ·))
  let (query, fragment) := readTail (cs.dropWhile (!isPathEnd ·))
  let url := addSegments ⟨host, segments, query⟩ pieces
  .file { url with segments := trimRoot url.segments } fragment

/-! ## References -/

/-- The host, path, query and fragment that follow `file://`. The slash behind a host starts the
path. Without a host, or on this machine, it ends an empty segment, behind which a drive letter is
not in front. -/
def readAuthority (cs : List Char) : Option Resource :=
  let isEnd (c : Char) : Bool := isSlash c || isPathEnd c
  let host := counted (cs.takeWhile (!isEnd ·))
  let rest := cs.dropWhile (!isEnd ·)
  if isDrive host then some (readPath "" [] cs)
  else if host.isEmpty then some (readPath "" [] rest)
  else do
    let host ← Host.read? host
    if host == "localhost" then return readPath "" [] rest
    else return readPath host [] (if rest.head?.any isSlash then rest.drop 1 else rest)

/-- What follows the scheme of a `file` reference, or a reference without scheme. -/
def readRelative (base : FileUrl) (cs : List Char) : Option Resource :=
  match skipIgnored cs with
  | [] => some (.file base "")
  | c :: rest =>
    if isSlash c then
      let rest := skipIgnored rest
      if rest.head?.any isSlash then readAuthority (rest.drop 1)
      else if startsWithDrive rest then some (readPath "" [] rest)
      else
        let drive := base.segments.take 1
        if drive.any isNormalDrive then some (readPath "" drive rest)
        else some (readPath base.host [] rest)
    else if c == '?' then
      let (query, fragment) := readTail (c :: rest)
      some (.file { base with query } fragment)
    else if c == '#' then some (.file base (readTail (c :: rest)).2)
    else if startsWithDrive (c :: rest) then some (readPath "" [] (c :: rest))
    else some (readPath base.host (shorten base.segments) (c :: rest))

/-- The scheme of a reference, in lower case, and what follows its colon. -/
def readScheme (cs : List Char) : Option (String × List Char) :=
  let isPart (c : Char) : Bool :=
    isLetter c || c.isDigit || c == '+' || c == '-' || c == '.' || isIgnored c
  let scheme := counted (cs.takeWhile isPart)
  match scheme, cs.dropWhile isPart with
  | c :: _, ':' :: rest =>
    if isLetter c then some (String.ofList (scheme.map Char.toLower), rest) else none
  | _, _ => none

/-- Schemes of the web. -/
def isWebScheme (scheme : String) : Bool := ["http", "https", "ws", "wss", "ftp"].contains scheme

/-- Whether what follows a scheme other than `file` makes a URL with it. -/
def isUrl (scheme : String) (rest : List Char) : Bool :=
  if isWebScheme scheme then Authority.isWellFormed true (rest.dropWhile isSlash)
  else
    match rest with
    | '/' :: '/' :: more => Authority.isWellFormed false more
    | _ => true

/-- Reads a reference relative to a location; nothing where it is no URL. Blanks and control
characters around it do not count. -/
def resolve (base : FileUrl) (reference : String) : Option Resource :=
  let isTrimmed (c : Char) : Bool := c.toNat ≤ 0x20
  let cs := ((reference.toList.dropWhile isTrimmed).reverse.dropWhile isTrimmed).reverse
  match readScheme cs with
  | none => readRelative base cs
  | some ("file", rest) => readRelative base rest
  | some (scheme, rest) => if isUrl scheme (counted rest) then some (.other scheme) else none

end FileUrl

end Typewright
