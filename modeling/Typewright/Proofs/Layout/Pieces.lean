import Typewright.Proofs.Identifier
import Typewright.Proofs.Layout.Marked

/-!
# Texts that fit into a line

A text passes if it leads a layout from inside a line to inside a line with the same delimiters open,
and fits if it also leaves the line so that a semicolon may follow. Balanced texts pass, and so do
texts one after the other and between delimiters. A key cannot be taken for the start of an enum or
a comment, as what follows it is no blank.
-/

namespace Typewright.Layout

open Marked (plain newline)
open Text (trim isBlank)

variable {m m' : Marked} {cs : List Char}

/-- A text that leaves open what is open. -/
def Passes (m : Marked) : Prop :=
  ∀ (style : Style) (before : List (List Char)) (c : Cursor) (B : List Bracket) (a : Bool),
    Within style before c B a → Feeds style c m fun c' => Within style before c' B a

/-- A text that also leaves a line closed. -/
def Fits (m : Marked) : Prop :=
  ∀ (style : Style) (before : List (List Char)) (c : Cursor) (B : List Bracket) (a : Bool),
    Within style before c B a →
      Feeds style c m fun c' => Within style before c' B a ∧ (Closed c.line → Closed c'.line)

/-- A text that leaves any line closed. -/
def Shuts (m : Marked) : Prop :=
  ∀ (style : Style) (before : List (List Char)) (c : Cursor) (B : List Bracket) (a : Bool),
    Within style before c B a →
      Feeds style c m fun c' => Within style before c' B a ∧ Closed c'.line

theorem Shuts.fits (h : Shuts m) : Fits m := fun style before c B a hc =>
  (h style before c B a hc).mono fun _ hc' => ⟨hc'.1, fun _ => hc'.2⟩

theorem Fits.passes (h : Fits m) : Passes m := fun style before c B a hc =>
  (h style before c B a hc).mono fun _ h => h.1

/-- A text that fits keeps a line closed. -/
theorem Fits.feeds (h : Fits m) {style : Style} {before : List (List Char)} {c : Cursor}
    {B : List Bracket} {a : Bool} (hc : Within style before c B a ∧ Closed c.line) :
    Feeds style c m fun c' => Within style before c' B a ∧ Closed c'.line :=
  (h style before c B a hc.1).mono fun _ hc' => ⟨hc'.1, hc'.2 hc.2⟩

theorem Passes.append (h : Passes m) (h' : Passes m') : Passes (m ++ m') :=
  fun style before c B a hc => (h style before c B a hc).append fun c' => h' style before c' B a

theorem Fits.append (h : Fits m) (h' : Fits m') : Fits (m ++ m') := fun style before c B a hc =>
  (h style before c B a hc).append fun c' hc' =>
    (h' style before c' B a hc'.1).mono fun _ hc'' => ⟨hc''.1, fun hclosed => hc''.2 (hc'.2 hclosed)⟩

theorem Fits.nil : Fits [] := fun _ _ _ _ _ hc => .nil ⟨hc, id⟩

theorem fits_flatten {ms : List Marked} (h : ∀ m ∈ ms, Fits m) : Fits ms.flatten := by
  induction ms with
  | nil => exact .nil
  | cons m rest ih =>
      exact (h m List.mem_cons_self).append (ih fun m hm => h m (List.mem_cons_of_mem _ hm))

theorem passes_plain {s : String} (h : Balanced s.toList) : Passes (plain s) :=
  fun _ _ _ B _ hc => (hc.feeds_plain h.line Iff.rfl fun number head hB => h.reads number head B hB).mono
    fun _ hc' => hc'.2

theorem fits_plain {s : String} (h : Balanced s.toList) (htidy : Tidy s.toList) :
    Fits (plain s) := fun _ _ _ B _ hc =>
  (hc.feeds_plain h.line Iff.rfl fun number head hB => h.reads number head B hB).mono
    fun _ hc' => ⟨hc'.2, fun hclosed => hc'.1 ▸ hclosed.append htidy⟩

theorem passes_intercalate {separator : Marked} (hseparator : Passes separator)
    {ms : List Marked} (h : ∀ m ∈ ms, Passes m) : Passes (separator.intercalate ms) := by
  induction ms with
  | nil => exact Fits.nil.passes
  | cons m rest ih =>
      have hm := h m List.mem_cons_self
      cases rest with
      | nil => rwa [List.intercalate_singleton]
      | cons n more =>
          rw [List.intercalate_cons_cons]
          exact (hm.append hseparator).append (ih fun m hm => h m (List.mem_cons_of_mem _ hm))

/-- An opening delimiter in a line. -/
theorem feeds_opener {style : Style} {before : List (List Char)} {c : Cursor} {B : List Bracket}
    {a : Bool} (hc : Within style before c B a) {opener : String} {o : Char} {bracket : Bracket}
    (ho : opener.toList = [o]) (hopen : opened o false = some bracket) :
    Feeds style c (plain opener) fun c' =>
      c'.line = c.line ++ [o] ∧ Within style before c' (bracket :: B) a := by
  have hbracket := ne_enum_of_opened hopen
  rw [← ho]
  refine hc.feeds_plain ?_ (by simp [hbracket.symm]) fun number head hB => ho ▸ reads_opener hopen hB
  rw [ho, List.mem_singleton]
  rintro rfl
  cases hopen

/-- A text between delimiters. -/
theorem shuts_enclosed (h : Passes m) {opener closer : String} (bracket : Bracket) {o : Char}
    (ho : opener.toList = [o]) (hopen : opened o false = some bracket)
    (hcloser : closer.toList = [bracket.closer]) :
    Shuts (plain opener ++ m ++ plain closer) := by
  intro style before c B a hc
  have hbracket := ne_enum_of_opened hopen
  refine ((feeds_opener hc ho hopen).append fun c' hc' =>
    h style before c' (bracket :: B) a hc'.2).append fun c' hc' => ?_
  refine (hc'.feeds_plain ?_ (by simp [hbracket.symm]) fun number head _ => ?_).mono
    fun c'' hc'' => ⟨hc''.2, hc''.1 ▸ ?_⟩
  · rw [hcloser, List.mem_singleton]
    cases bracket <;> decide
  · rw [hcloser]
    exact reads_closer bracket
  · rw [hcloser]
    exact closed_concat (by cases bracket <;> decide) (by cases bracket <;> decide) _

/-! ## Words -/

/-- A text without blanks, delimiters, commas and semicolons. -/
def Word (cs : List Char) : Prop :=
  ∀ c ∈ cs, isDelimiter c = false ∧ isBlank c = false ∧ endsOpen c = false

instance (cs : List Char) : Decidable (Word cs) :=
  List.decidableBAll (fun c => isDelimiter c = false ∧ isBlank c = false ∧ endsOpen c = false) cs

theorem Word.flat (h : Word cs) : Flat cs := fun c hc =>
  ⟨(h c hc).1, fun heq => by
    subst heq
    cases (h _ hc).2.1⟩

theorem Word.tidy (h : Word cs) : Tidy cs := fun d hd => (h d (List.mem_of_getLast? hd)).2

theorem word_parts : ∀ n < 128, Identifier.isPart (.ofNat n) = true →
    isDelimiter (.ofNat n) = false ∧ isBlank (.ofNat n) = false ∧ endsOpen (.ofNat n) = false := by
  decide +kernel

theorem word_of_isPart (h : ∀ c ∈ cs, Identifier.isPart c = true) : Word cs := by
  intro c hc
  have hpart := h c hc
  have heq := Char.ofNat_toNat c
  rw [← heq] at hpart ⊢
  exact word_parts _ (by simpa using Identifier.toNat_lt_of_isPart (h c hc)) hpart

/-- Every identifier is a word. -/
theorem word_of_isBare (h : Identifier.isBare cs = true) : Word cs :=
  word_of_isPart (Identifier.isPart_of_isBare h)

theorem word_sanitize (name : String) : Word (Identifier.sanitize name).toList := by
  rw [Identifier.sanitize, String.toList_ofList]
  by_cases hne : Identifier.sanitizeChars name.toList = []
  · rw [hne]
    intro c hc
    cases hc
  · exact word_of_isBare (Identifier.clean_sanitizeChars hne).bare

theorem word_numerals (h : ∀ c ∈ cs, c ∈ Number.numerals) : Word cs := by
  have hall : Word Number.numerals := by decide
  exact fun c hc => hall c (h c hc)

theorem tidy_concat {d : Char} (hblank : isBlank d = false) (hopen : endsOpen d = false) :
    Tidy (cs ++ [d]) := by
  intro e he
  obtain rfl := Option.some.inj ((List.getLast?_concat ..).symm.trans he)
  exact ⟨hblank, hopen⟩

theorem tidy_quote (s : String) : Tidy (Json.quote s).toList := by
  rw [Json.quote, String.toList_ofList]
  exact tidy_concat (by decide) (by decide)

theorem tidy_text (v : Json) : Tidy v.text.toList := by
  cases v with
  | null => exact Word.tidy (by decide)
  | bool b =>
      cases b with
      | true => exact Word.tidy (by decide)
      | false => exact Word.tidy (by decide)
  | number n => exact (word_numerals (Number.mem_numerals_text n)).tidy
  | string s => exact tidy_quote s
  | array xs =>
      rw [Json.text, String.toList_append]
      exact tidy_concat (by decide) (by decide)
  | object ms =>
      rw [Json.text, String.toList_append]
      exact tidy_concat (by decide) (by decide)

theorem flat_intercalate {separator : String} (hseparator : Flat separator.toList)
    {texts : List String} (h : ∀ s ∈ texts, Flat s.toList) :
    Flat (String.intercalate separator texts).toList := by
  induction texts with
  | nil => nofun
  | cons text rest ih =>
      have htext := h text List.mem_cons_self
      cases rest with
      | nil => simpa using htext
      | cons next more =>
          rw [String.intercalate_cons_cons, String.toList_append, String.toList_append]
          exact (htext.append hseparator).append (ih fun s hs => h s (List.mem_cons_of_mem _ hs))

theorem fits_word {s : String} (h : Word s.toList) : Fits (Marked.plain s) :=
  fits_plain h.flat.balanced h.tidy

/-! ## Fronts of lines -/

theorem skipWord_cases (word : String) (cs : List Char) : skipWord word cs = cs ∨
    ∃ b rest, cs = word.toList ++ b :: rest ∧ isBlank b = true := by
  by_cases h : (word.toList.isPrefixOf cs &&
      (cs.drop word.toList.length).head?.any isBlank) = true
  · right
    obtain ⟨hfront, hblank⟩ := Bool.and_eq_true_iff.1 h
    obtain ⟨rest, rfl⟩ := List.isPrefixOf_iff_prefix.1 hfront
    rw [List.drop_left] at hblank
    cases rest with
    | nil => cases hblank
    | cons b rest => exact ⟨b, rest, rfl, hblank⟩
  · exact .inl (if_neg h)

/-- The words in front of the name of an enum. -/
def enumWords : List String := ["export", "declare", "const", "enum"]

theorem exists_enumWord {line : List Char} (h : isEnumHead line = true) :
    ∃ word ∈ enumWords, ∃ b rest, line = word.toList ++ b :: rest ∧ isBlank b = true := by
  unfold isEnumHead at h
  rcases skipWord_cases "export" line with hskip | hword
  · rw [hskip] at h
    rcases skipWord_cases "declare" line with hskip | hword
    · rw [hskip] at h
      rcases skipWord_cases "const" line with hskip | hword
      · rw [hskip] at h
        obtain ⟨hfront, hblank⟩ := Bool.and_eq_true_iff.1 h
        obtain ⟨rest, rfl⟩ := List.isPrefixOf_iff_prefix.1 hfront
        rw [show 4 = "enum".toList.length from rfl, List.drop_left] at hblank
        cases rest with
        | nil => cases hblank
        | cons b rest => exact ⟨"enum", by decide, b, rest, rfl, hblank⟩
      · exact ⟨"const", by decide, hword⟩
    · exact ⟨"declare", by decide, hword⟩
  · exact ⟨"export", by decide, hword⟩

/-- A line starts no enum if its first word goes on with a character that is in none of the words of
an enum. -/
theorem isEnumHead_eq_false {key : List Char} (hkey : ∀ c ∈ key, isBlank c = false) {mark : Char}
    (hmark : isBlank mark = false) (hwords : ∀ word ∈ enumWords, mark ∉ word.toList)
    (more : List Char) : isEnumHead (key ++ mark :: more) = false := by
  rw [Bool.eq_false_iff]
  intro hhead
  obtain ⟨word, hword, b, rest, hline, hb⟩ := exists_enumWord hhead
  rcases List.append_eq_append_iff.1 hline with ⟨cut, hcut, hrest⟩ | ⟨cut, hcut, hrest⟩
  · cases cut with
    | nil =>
        obtain ⟨rfl, -⟩ := List.cons.inj hrest
        rw [hmark] at hb
        cases hb
    | cons d cut =>
        obtain ⟨rfl, -⟩ := List.cons.inj hrest
        exact hwords word hword (hcut ▸ List.mem_append_right _ List.mem_cons_self)
  · cases cut with
    | nil =>
        obtain ⟨rfl, -⟩ := List.cons.inj hrest
        rw [hmark] at hb
        cases hb
    | cons d cut =>
        obtain ⟨rfl, -⟩ := List.cons.inj hrest
        rw [hkey b (hcut ▸ List.mem_append_right _ List.mem_cons_self)] at hb
        cases hb

/-! ## The fronts of declarations -/

/-- The front of a declaration that is no enum. -/
theorem feeds_heading {style : Style} {before : List (List Char)} {c : Cursor} {a b : Bool}
    (h : Fresh style before false c [] a) {s : String} (hs : Flat s.toList) {front : List Char}
    (hstart : front <+: s.toList) (hfront : Front c.state front b)
    (hplain : ∀ more, isEnumHead (front ++ more) = false) :
    Feeds style c (plain s) fun c' => c'.line = s.toList ∧ Within style before c' [] b :=
  h.feeds_plain (fun hmem => (hs _ hmem).2 rfl) hstart hfront (.inr hplain)
    fun _ _ _ => reads_word fun d hd => (hs d hd).1

/-- The line that opens an enum. -/
theorem feeds_enumHead {style : Style} {before : List (List Char)} {c : Cursor} {a : Bool}
    (h : Fresh style before false c [] a) {s : String} {init : List Char}
    (hs : s.toList = init ++ ['{']) (hinit : Flat init)
    (hfront : Front c.state s.toList false) (hhead : isEnumHead (trim s.toList) = true) :
    Feeds style c (plain s ++ newline none) fun c' => Fresh style before false c' [.enum] false := by
  have hline : '\n' ∉ s.toList := by
    rw [hs, List.mem_append, not_or]
    exact ⟨fun hmem => (hinit _ hmem).2 rfl, by decide⟩
  have hplain : Feeds style c (plain s) fun c' => c' = { c with line := s.toList } :=
    ⟨_, feed_plain hline, by rw [h.line]; rfl⟩
  refine hplain.append ?_
  rintro _ rfl
  have hreads : Reads c.number (isEnumHead (trim s.toList))
      (.outside (c.state.stack.map (·.bracket))) s.toList (.outside [.enum]) := by
    rw [h.brackets, hhead, hs]
    exact (reads_word fun d hd => (hinit d hd).1).append (reads_open rfl)
  have hlast : (trim s.toList).getLast? = some '{' := by
    rw [hs, Text.trim_concat rfl, List.getLast?_concat]
  obtain ⟨state, hstep, hfresh⟩ := exists_step_of_reads (c := { c with line := s.toList }) h.comment
    ⟨h.kept.written, h.kept.lines⟩ (List.prefix_refl _) hfront hreads (e := none)
    (fun stack _ => needsSemicolon_of_open hlast rfl stack) (absurd rfl)
  exact ⟨_, feed_newline hstep, hfresh⟩

end Typewright.Layout
