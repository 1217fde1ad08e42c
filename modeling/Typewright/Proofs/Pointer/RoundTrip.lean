import Typewright.Graph.Load
import Typewright.Proofs.Pointer

/-!
# Pointers and their segments

A list of segments is read back off the pointer that is written for it, however the pointer is
written in parts, so pointers of different lists differ (`segments_of_pointers`). The escapes are
those of two replacements, one after the other: a `~` is written before a `/` is, and read after it.
-/

namespace Typewright

namespace Text

/-! ## Replacing a word -/

/-- A text in which each occurrence of a word is replaced, from the left and without overlap. -/
def replace (word new : List Char) : List Char → List Char
  | [] => []
  | c :: rest =>
    if word ≠ [] ∧ word <+: c :: rest then new ++ replace word new (rest.drop (word.length - 1))
    else c :: replace word new rest
termination_by cs => cs.length
decreasing_by all_goals simp; try omega

variable {word new rest : List Char} {c d : Char}

@[simp] theorem replace_nil : replace word new [] = [] := by rw [replace]

/-- An occurrence at the start. -/
theorem replace_append (h : word ≠ []) :
    replace word new (word ++ rest) = new ++ replace word new rest := by
  cases word with
  | nil => exact absurd rfl h
  | cons c word =>
      rw [List.cons_append, replace, if_pos ⟨h, ⟨rest, rfl⟩⟩]
      simp

/-- The first character starts no occurrence. -/
theorem replace_cons_of_not (h : ¬ word <+: c :: rest) :
    replace word new (c :: rest) = c :: replace word new rest := by
  rw [replace, if_neg fun hword => h hword.2]

theorem replace_cons_of_ne (h : c ≠ d) :
    replace (d :: word) new (c :: rest) = c :: replace (d :: word) new rest :=
  replace_cons_of_not fun hword => h (List.cons_prefix_cons.1 hword).1.symm

/-- A character that comes first after a replacement, and not from it, came first before. -/
theorem head?_of_replace (hnew : new.head? ≠ some d) (hne : new ≠ []) {cs : List Char}
    (h : (replace word new cs).head? = some d) : cs.head? = some d := by
  cases cs with
  | nil => rwa [replace_nil] at h
  | cons c rest =>
      rw [replace] at h
      split at h
      · rw [List.head?_append, Option.or_of_isSome (List.isSome_head?.2 hne)] at h
        exact absurd h hnew
      · exact h

end Text

namespace Pointer

open Text (replace)

/-! ## Escapes as replacements -/

theorem escapeChars_eq (cs : List Char) :
    escapeChars cs = replace ['/'] ['~', '1'] (replace ['~'] ['~', '0'] cs) := by
  fun_induction escapeChars cs with
  | case1 => simp
  | case2 rest ih =>
      have htilde : replace ['~'] ['~', '0'] ('~' :: rest) =
          '~' :: '0' :: replace ['~'] ['~', '0'] rest := Text.replace_append (by decide)
      rw [ih, htilde, Text.replace_cons_of_ne (by decide), Text.replace_cons_of_ne (by decide)]
  | case3 rest ih =>
      have hslash : ∀ cs, replace ['/'] ['~', '1'] ('/' :: cs) =
          '~' :: '1' :: replace ['/'] ['~', '1'] cs := fun _ => Text.replace_append (by decide)
      rw [ih, Text.replace_cons_of_ne (by decide), hslash]
  | case4 c rest htilde hslash ih =>
      rw [ih, Text.replace_cons_of_ne htilde, Text.replace_cons_of_ne hslash]

/-- A `~` is read last: `~01` is the segment `~1`. -/
theorem unescapeChars_eq (cs : List Char) :
    unescapeChars cs = replace ['~', '0'] ['~'] (replace ['~', '1'] ['/'] cs) := by
  fun_induction unescapeChars cs with
  | case1 rest ih =>
      have hskip : replace ['~', '1'] ['/'] ('~' :: '0' :: rest) =
          '~' :: '0' :: replace ['~', '1'] ['/'] rest := by
        rw [Text.replace_cons_of_not (by simp), Text.replace_cons_of_ne (by decide)]
      have htilde : ∀ cs, replace ['~', '0'] ['~'] ('~' :: '0' :: cs) =
          '~' :: replace ['~', '0'] ['~'] cs := fun _ => Text.replace_append (by decide)
      rw [ih, hskip, htilde]
  | case2 rest ih =>
      have hslash : replace ['~', '1'] ['/'] ('~' :: '1' :: rest) =
          '/' :: replace ['~', '1'] ['/'] rest := Text.replace_append (by decide)
      rw [ih, hslash, Text.replace_cons_of_ne (by decide)]
  | case3 c rest hzero hone ih =>
      have hslash : ¬ ['~', '1'] <+: c :: rest := by
        rw [List.cons_prefix_cons]
        rintro ⟨rfl, more, rfl⟩
        exact hone more rfl rfl
      -- the first replacement puts no `0` behind a `~`
      have htilde : ¬ ['~', '0'] <+: c :: replace ['~', '1'] ['/'] rest := by
        rw [List.cons_prefix_cons]
        rintro ⟨rfl, more, heq⟩
        have hhead : (replace ['~', '1'] ['/'] rest).head? = some '0' := by rw [← heq]; rfl
        obtain ⟨more, rfl⟩ :=
          List.head?_eq_some_iff.1 (Text.head?_of_replace (by decide) (by decide) hhead)
        exact hzero more rfl rfl
      rw [ih, Text.replace_cons_of_not hslash, Text.replace_cons_of_not htilde]
  | case4 => simp

example : unescapeChars ['~', '0', '1', '~', '~', '1'] = ['~', '1', '~', '/'] := by decide

/-! ## The form of a pointer -/

/-- A pointer that a fragment of a URL gives, where it is one, is in the form in which its segments
are written. -/
theorem build_split_of_fragmentPointer {fragment pointer : String}
    (h : fragmentPointer fragment = .ok pointer) (hslash : (body pointer).head? = some '/') :
    build "#" (split pointer) = pointer := by
  unfold fragmentPointer at h
  split at h
  · cases h
  · rename_i cs _
    split at h
    · obtain rfl := Except.ok.inj h
      rw [split_build_root]
    · rename_i hne
      obtain rfl := Except.ok.inj h
      have hbody : body (String.ofList ('#' :: cs)) = cs := by rw [body, String.toList_ofList]; rfl
      rw [hbody] at hslash
      exact absurd (beq_iff_eq.2 hslash) hne

/-- An escaped segment is read back, the segments of a pointer that is written in two parts are those
of the parts, so different lists have different pointers, and a pointer that is written anew from its
segments has these segments and is written so again, as are the pointers that fragments of URLs give.
Escaping replaces each `~` and then each `/`, reading replaces them in the other order. -/
theorem segments_of_pointers :
    (∀ segment, unescape (escape segment) = segment) ∧
    (∀ steps further, split (build (build "#" steps) further) = steps ++ further) ∧
    Function.Injective (build "#") ∧
    (∀ path, split (build "#" (split path)) = split path ∧
      build "#" (split (build "#" (split path))) = build "#" (split path)) ∧
    (∀ fragment pointer, fragmentPointer fragment = .ok pointer →
      (body pointer).head? = some '/' → build "#" (split pointer) = pointer) ∧
    (∀ segment, (escape segment).toList =
      replace ['/'] ['~', '1'] (replace ['~'] ['~', '0'] segment.toList)) ∧
    ∀ segment, (unescape segment).toList =
      replace ['~', '0'] ['~'] (replace ['~', '1'] ['/'] segment.toList) := by
  refine ⟨fun segment => ?_, fun steps further => ?_, fun _ _ => build_injective, fun path => ?_,
    fun _ _ => build_split_of_fragmentPointer, fun segment => ?_, fun segment => ?_⟩
  · rw [unescape, escape, String.toList_ofList, unescapeChars_escapeChars, String.ofList_toList]
  · rw [← build_append, split_build_root]
  · rw [split_build_root]
    exact ⟨rfl, rfl⟩
  · rw [escape, String.toList_ofList, escapeChars_eq]
  · rw [unescape, String.toList_ofList, unescapeChars_eq]

/-- A tilde that is written in both ways, an empty segment and a slash. -/
theorem segments_of_pointers_tilde :
    fragmentPointer "/a%7E01//b~1" = .ok "#/a~01//b~1" ∧
    build "#" (split "#/a~01//b~1") = "#/a~01//b~1" ∧
    build (build "#" ["a~1", ""]) ["b/"] = "#/a~01//b~1" ∧
    split "#/a~01//b~1" = ["a~1", "", "b/"] := by
  have hpointer : fragmentPointer "/a%7E01//b~1" = .ok "#/a~01//b~1" := by rfl
  have hbuild : build (build "#" ["a~1", ""]) ["b/"] = "#/a~01//b~1" := by rfl
  obtain ⟨-, happend, -, -, hcanonical, -⟩ := segments_of_pointers
  refine ⟨hpointer, hcanonical _ _ hpointer (by decide), hbuild, ?_⟩
  rw [← hbuild, happend]
  rfl

end Pointer

end Typewright
