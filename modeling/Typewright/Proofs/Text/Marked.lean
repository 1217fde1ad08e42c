import Typewright.Proofs.Text.Content

/-!
# Texts with marked lines

A marked text says at its line feeds what the line in front completes. `Marked.lines` lists its lines
that are not blank with what they complete; without the marks they are the content of the text
(`Marked.content_text`).
-/

namespace Typewright

/-- What a line of declarations completes. -/
inductive Ending where
  /-- A member of an interface, named or not. -/
  | member
  /-- The declaration of a type alias. -/
  | alias
  /-- A member of the declaration of an enum. -/
  | enumMember
  /-- The declaration of an interface or an enum. -/
  | declaration
deriving DecidableEq, Repr

/-- A line without the blanks around it and what it completes, if anything. -/
structure MarkedLine where
  text : List Char
  ends : Option Ending
deriving DecidableEq, Repr

/-- A text with a mark at each character; only those at line feeds count. -/
abbrev Marked := List (Char × Option Ending)

namespace Marked

open Text (content trim visible)

variable {line : List Char} {e : Option Ending} {m m' : Marked}

/-- A text that completes nothing. -/
def plain (s : String) : Marked := s.toList.map (·, none)

/-- The end of a line that completes something or nothing. -/
def newline (e : Option Ending) : Marked := [('\n', e)]

/-- The text without its marks. -/
def text (m : Marked) : List Char := m.map (·.1)

@[simp] theorem text_nil : text [] = [] := rfl

@[simp] theorem text_append (m m' : Marked) : text (m ++ m') = text m ++ text m' :=
  List.map_append

@[simp] theorem text_plain (s : String) : text (plain s) = s.toList := by
  simp [text, plain, Function.comp_def]

@[simp] theorem text_newline (e : Option Ending) : text (newline e) = ['\n'] := rfl

/-- A line unless it is blank. -/
def shown (line : List Char) (e : Option Ending) : List MarkedLine :=
  if (trim line).isEmpty then [] else [⟨trim line, e⟩]

theorem shown_of_ne_nil (hne : trim line ≠ []) (e : Option Ending) :
    shown line e = [⟨trim line, e⟩] :=
  if_neg fun hempty => hne (List.isEmpty_iff.1 hempty)

theorem map_text_shown (line : List Char) (e : Option Ending) :
    (shown line e).map (·.text) = visible [line] := by
  unfold shown
  split
  · rename_i hblank
    exact (Text.visible_blank (List.isEmpty_iff.1 hblank)).symm
  · rename_i hline
    exact (Text.visible_singleton fun heq => hline (heq ▸ rfl)).symm

/-- The lines of a text behind the front `line` of its first line; its last line completes `e`. -/
def linesFrom (e : Option Ending) (line : List Char) : Marked → List MarkedLine
  | [] => shown line e
  | (c, mark) :: rest =>
    if c = '\n' then shown line mark ++ linesFrom e [] rest else linesFrom e (line ++ [c]) rest

/-- The lines that are not blank; the last line completes `e`. -/
def lines (e : Option Ending) (m : Marked) : List MarkedLine := linesFrom e [] m

theorem content_linesFrom (hline : '\n' ∉ line) :
    content (line ++ text m) = (linesFrom e line m).map (·.text) := by
  induction m generalizing line with
  | nil => rw [linesFrom, map_text_shown, text_nil, List.append_nil, Text.content_line hline]
  | cons x rest ih =>
      obtain ⟨c, mark⟩ := x
      have htext : text ((c, mark) :: rest) = c :: text rest := rfl
      rw [linesFrom, htext]
      split
      · rename_i hc
        rw [hc, Text.content_append, Text.content_line hline, List.map_append, map_text_shown,
          ← ih List.not_mem_nil, List.nil_append]
      · rename_i hc
        rw [← ih (by simpa [hline] using Ne.symm hc), List.append_assoc, List.singleton_append]

/-- The lines of a marked text are what the text says. -/
theorem content_text (e : Option Ending) (m : Marked) :
    content m.text = (m.lines e).map (·.text) :=
  content_linesFrom List.not_mem_nil

end Marked

end Typewright
