import Typewright.Location.FileUrl
import Typewright.Proofs.Text.Content

/-!
# Locations of files and of their directories

A reference resolves against the directory of a file as it does against the file, unless it leads
back to the file itself (`FileUrl.resolve_ofDirectory`).
-/

namespace Typewright

namespace FilePath

variable {path directory name working : String} {parts : List String}

/-! ## Names -/

/-- A name as it stands in a path. -/
structure IsName (name : String) : Prop where
  slash : '/' ∉ name.toList
  ne_empty : name ≠ ""
  ne_dot : name ≠ "."

theorem isName_of_mem_names (h : name ∈ names path) : IsName name := by
  obtain ⟨hmem, hkept⟩ := List.mem_filter.1 h
  obtain ⟨piece, hpiece, rfl⟩ := List.mem_map.1 hmem
  simp only [Bool.and_eq_true, bne_iff_ne, ne_eq] at hkept
  refine ⟨fun hslash => ?_, hkept.1, hkept.2⟩
  have hno := Text.not_of_mem_pieces hpiece '/' (by simpa using hslash)
  simp at hno

/-- The names on both sides of a slash. -/
theorem names_append_slash (cs ds : List Char) : names (String.ofList (cs ++ '/' :: ds)) =
    names (String.ofList cs) ++ names (String.ofList ds) := by
  simp only [names, String.toList_ofList]
  rw [Pointer.pieces_append_cons (by rfl), List.map_append, List.filter_append]

theorem IsName.names_eq (h : IsName name) : names name = [name] := by
  have hpieces : Text.pieces (· == '/') name.toList = [name.toList] :=
    Pointer.pieces_of_forall_not fun c hc => by
      simpa using fun heq : c = '/' => h.slash (heq ▸ hc)
  simp [names, hpieces, h.ne_empty, h.ne_dot]

theorem names_intercalate (h : ∀ name ∈ parts, IsName name) :
    names (String.intercalate "/" parts) = parts := by
  induction parts with
  | nil => rfl
  | cons name rest ih =>
      have hname := (h name List.mem_cons_self).names_eq
      cases rest with
      | nil => simpa using hname
      | cons next more =>
          have hsplit : String.intercalate "/" (name :: next :: more) =
              String.ofList (name.toList ++ '/' :: (String.intercalate "/" (next :: more)).toList) := by
            rw [String.intercalate_cons_cons]
            apply String.toList_inj.1
            simp
          rw [hsplit, names_append_slash, String.ofList_toList, String.ofList_toList, hname,
            ih fun other hmem => h other (List.mem_cons_of_mem _ hmem), List.singleton_append]

/-! ## Directories -/

/-- Names between slashes are a relative path. -/
theorem absolute?_intercalate (h : ∀ name ∈ parts, IsName name) (hne : parts ≠ []) :
    absolute? working (String.intercalate "/" parts) = some (names working ++ parts) := by
  obtain ⟨name, rest, rfl⟩ := List.exists_cons_of_ne_nil hne
  have hname := h name List.mem_cons_self
  obtain ⟨c, cs, hcs⟩ := List.exists_cons_of_ne_nil fun hnil : name.toList = [] =>
    hname.ne_empty (String.toList_eq_nil_iff.1 hnil)
  obtain ⟨tail, htail⟩ : ∃ tail, (String.intercalate "/" (name :: rest)).toList = c :: tail := by
    cases rest with
    | nil => exact ⟨cs, by simpa using hcs⟩
    | cons next more =>
        rw [String.intercalate_cons_cons, String.toList_append, String.toList_append, hcs]
        exact ⟨_, rfl⟩
  have hempty : String.intercalate "/" (name :: rest) ≠ "" := fun heq => by
    rw [heq] at htail
    cases htail
  have hslash : c ≠ '/' := fun heq => hname.slash (hcs ▸ heq ▸ List.mem_cons_self)
  have hrelative : isAbsolute (String.intercalate "/" (name :: rest)) = false := by
    rw [isAbsolute, htail]
    simpa using hslash
  rw [absolute?, beq_false_of_ne hempty, hrelative, names_intercalate h]
  rfl

/-- Names behind a slash are an absolute path. -/
theorem absolute?_slash (h : ∀ name ∈ parts, IsName name) :
    absolute? working ("/" ++ String.intercalate "/" parts) = some parts := by
  have hsplit : "/" ++ String.intercalate "/" parts =
      String.ofList ([] ++ '/' :: (String.intercalate "/" parts).toList) := by
    apply String.toList_inj.1
    simp
  have hempty : "/" ++ String.intercalate "/" parts ≠ "" := by simp
  have habsolute : isAbsolute ("/" ++ String.intercalate "/" parts) = true := by
    simp [isAbsolute]
  rw [absolute?, beq_false_of_ne hempty, habsolute, hsplit, names_append_slash,
    String.ofList_toList, names_intercalate h]
  rfl

/-- The names in front of the last one of a path lead to its directory. -/
theorem absolute?_of_directory? (h : directory? path = some directory) :
    absolute? working directory =
      some ((if isAbsolute path then [] else names working) ++ (names path).dropLast) := by
  have hparents : ∀ name ∈ (names path).dropLast, IsName name := fun name hmem =>
    isName_of_mem_names (List.dropLast_subset _ hmem)
  unfold directory? at h
  dsimp only at h
  generalize (names path).dropLast = parents at h hparents ⊢
  split at h
  · cases h
  · split at h
    · rename_i habsolute
      obtain rfl := Option.some.inj h
      rw [absolute?_slash hparents, if_pos habsolute, List.nil_append]
    · rename_i hrelative
      rw [if_neg hrelative]
      split at h
      · rename_i hne
        obtain rfl := Option.some.inj h
        exact absolute?_intercalate hparents (by simpa using hne)
      · rename_i hnil
        split at h
        · obtain rfl := Option.some.inj h
          obtain rfl : parents = [] := by simpa using hnil
          rfl
        · cases h

/-- Without a directory part a path is a mere name. -/
theorem names_of_directory?_eq_none (h : directory? path = none) (hne : names path ≠ []) :
    isAbsolute path = false ∧ (names path).dropLast = [] := by
  unfold directory? at h
  dsimp only at h
  rw [if_neg (by simpa using hne)] at h
  split at h
  · cases h
  · rename_i hrelative
    split at h
    · cases h
    · rename_i hparents
      exact ⟨by simpa using hrelative, by simpa using hparents⟩

theorem absolute?_eq (h : path ≠ "") : absolute? working path =
    some ((if isAbsolute path then [] else names working) ++ names path) := by
  rw [absolute?, beq_false_of_ne h]
  cases isAbsolute path <;> rfl

end FilePath

namespace FileUrl

variable {url home : FileUrl} {reference : String}

/-! ## References from a directory -/

/-- A reference leads from `base` to the file at `home`, where `join` reads it. -/
def LeadsTo (join : FileUrl → String → Option Resource) (base : FileUrl) (reference : String)
    (home : FileUrl) : Prop :=
  ∃ url fragment, join base reference = some (.file url fragment) ∧ { url with query := none } = home

/-- A location without its last segment, which ends in a slash then. -/
def directory (url : FileUrl) : FileUrl :=
  { url with segments := url.segments.dropLast ++ [""] }

theorem readRelative_directory {cs : List Char} (hquery : home.query = none)
    (hne : home.segments ≠ []) (hdrive : home.segments.getLast?.any isNormalDrive = false) :
    home.directory.readRelative cs = home.readRelative cs ∨
      ∃ url fragment, home.readRelative cs = some (.file url fragment) ∧
        { url with query := none } = home := by
  have hhome : { home with query := none } = home := by rw [← hquery]
  have hslash : isNormalDrive "" = false := by decide
  have hlast : (home.segments.dropLast ++ [""]).getLast? = some "" := List.getLast?_concat
  have hshorten : shorten home.directory.segments = shorten home.segments := by
    simp only [shorten, directory, hlast, Option.any_some, hslash, hdrive, List.dropLast_concat]
    rfl
  have htake : (home.directory.segments.take 1).any isNormalDrive = false ∧
      (home.segments.take 1).any isNormalDrive = false ∨
      home.directory.segments.take 1 = home.segments.take 1 := by
    obtain ⟨parents, last, hsegments⟩ := List.eq_nil_or_concat home.segments |>.resolve_left hne
    rw [List.concat_eq_append] at hsegments
    rw [hsegments, List.getLast?_concat, Option.any_some] at hdrive
    simp only [directory, hsegments, List.dropLast_concat]
    cases parents with
    | nil => exact .inl ⟨by simp [hslash], by simp [hdrive]⟩
    | cons first more => exact .inr rfl
  unfold readRelative
  split
  · exact .inr ⟨home, "", rfl, hhome⟩
  · rename_i c rest hskip
    split
    · left
      dsimp only
      split
      · rfl
      · split
        · rfl
        · rcases htake with ⟨hdir, hown⟩ | heq
          · rw [hdir, hown]
            rfl
          · rw [heq]
            rfl
    · split
      · exact .inr ⟨_, _, rfl, hhome⟩
      · split
        · exact .inr ⟨_, _, rfl, hhome⟩
        · left
          rw [hshorten]
          rfl

/-- A reference names from the directory of a file what it names from the file, unless it leads back
to the file. A file that is named like a drive letter is a directory of its own for it. -/
def JoinsFromDirectory (join : FileUrl → String → Option Resource) : Prop :=
  ∀ home : FileUrl, home.query = none → home.segments ≠ [] →
    home.segments.getLast?.any isNormalDrive = false → ∀ reference,
      join home.directory reference = join home reference ∨ LeadsTo join home reference home

theorem joinsFromDirectory_resolve : JoinsFromDirectory resolve := by
  intro home hquery hne hdrive reference
  unfold LeadsTo resolve
  dsimp only
  split
  · exact readRelative_directory hquery hne hdrive
  · exact readRelative_directory hquery hne hdrive
  · exact .inl rfl

/-- The location of the directory of a file. -/
theorem directory_ofNames (parents : List String) (name : String) :
    (ofNames (parents ++ [name])).directory = ofDirectory parents := by
  cases parents with
  | nil => rfl
  | cons first more =>
      simp [directory, ofDirectory, ofNames, List.dropLast_cons_of_ne_nil]

theorem segments_ofNames_ne_nil (names : List String) : (ofNames names).segments ≠ [] := by
  unfold ofNames
  dsimp only
  split
  · exact List.cons_ne_nil _ _
  · rename_i hne
    simpa using hne

end FileUrl

end Typewright
