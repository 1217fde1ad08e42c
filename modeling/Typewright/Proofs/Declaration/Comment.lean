import Typewright.Proofs.Declaration.Marked
import Typewright.Proofs.Layout.Comment

/-!
# The layout of comments

Whatever a description says, its comment ends where it is written to end: no line of it but the last
has an end mark (`isComment_commentBlock`). So a layout passes over it and stands as before
(`feeds_commentMarked`).
-/

namespace Typewright.Declaration

open Layout (Fresh Feeds Bracket Cursor)
open Text (trim isBlank)

theorem head?_breakEndMarks (cs : List Char) : (breakEndMarks cs).head? = cs.head? := by
  fun_cases breakEndMarks cs <;> rfl

/-- No end mark is left in a text. -/
theorem not_endMark_breakEndMarks (cs : List Char) : ¬ ['*', '/'] <:+: breakEndMarks cs := by
  fun_induction breakEndMarks cs with
  | case1 rest ih => simpa [List.infix_cons_iff] using ih
  | case2 c rest hbreak ih =>
      rw [List.infix_cons_iff, not_or]
      refine ⟨fun hpre => ?_, ih⟩
      obtain ⟨hc, more, hmore⟩ := List.cons_prefix_cons.1 hpre
      have hhead : rest.head? = some '/' := by rw [← head?_breakEndMarks, ← hmore]; rfl
      obtain ⟨rest', rfl⟩ := List.head?_eq_some_iff.1 hhead
      exact hbreak rest' hc.symm rfl
  | case3 => simp

/-- The lines of a text without end marks have none. -/
theorem not_endMark_of_mem_lines {comment line : List Char}
    (h : line ∈ Text.lines (breakEndMarks comment)) : '\n' ∉ line ∧ ¬ ['*', '/'] <:+: line :=
  ⟨Text.not_mem_of_mem_lines h, fun hmark =>
    not_endMark_breakEndMarks _ (hmark.trans (Text.infix_of_mem_lines h))⟩

theorem not_endMark_commentLine {line : List Char} (hmark : ¬ ['*', '/'] <:+: line) :
    ¬ ['*', '/'] <:+: commentLine line := by
  unfold commentLine
  split
  · decide
  · have hstar : " * ".toList = [' ', '*', ' '] := rfl
    rw [hstar]
    simp [List.infix_cons_iff, hmark]

theorem contains_endMark_eq_false {line : List Char} (h : ¬ ['*', '/'] <:+: line) :
    Text.contains "*/".toList (trim line) = false :=
  Bool.eq_false_iff.2 fun hcontains =>
    h ((Text.contains_iff.1 hcontains).trans (Text.trim_infix line))

/-- A line of a comment shows, and has no end mark if its description has none. -/
theorem commentLine_shows {line : List Char} (hline : '\n' ∉ line) (hmark : ¬ ['*', '/'] <:+: line) :
    '\n' ∉ commentLine line ∧ trim (commentLine line) ≠ [] ∧
      Text.contains "*/".toList (trim (commentLine line)) = false := by
  have hfirst : ∀ more, trim (' ' :: '*' :: more) ≠ [] := by
    intro more hnil
    rw [Text.trim_eq, List.dropWhile_cons_of_pos rfl, List.dropWhile_cons_of_neg (by decide),
      List.rdropWhile_eq_nil_iff] at hnil
    exact absurd (hnil '*' List.mem_cons_self) (by decide)
  refine ⟨?_, ?_, contains_endMark_eq_false (not_endMark_commentLine hmark)⟩
  · unfold commentLine
    split
    · decide
    · rintro hmem
      exact (List.mem_append.1 hmem).elim (by decide) hline
  · unfold commentLine
    split
    · exact hfirst []
    · exact hfirst _

/-! ## The block as a whole -/

/-- The lines between the first and the last line of a comment. -/
def innerLines (comment : String) : List (List Char) :=
  (Text.lines (breakEndMarks comment.toList)).map commentLine

theorem toList_commentBlock (comment : String) : (commentBlock comment).toList =
    Text.join ['\n'] ("/**".toList :: innerLines comment ++ [" */".toList]) :=
  String.toList_ofList

theorem innerLines_shows {comment : String} {line : List Char} (h : line ∈ innerLines comment) :
    '\n' ∉ line ∧ trim line ≠ [] ∧ ¬ ['*', '/'] <:+: line := by
  obtain ⟨l, hl, rfl⟩ := List.mem_map.1 h
  obtain ⟨hline, hmark⟩ := not_endMark_of_mem_lines hl
  obtain ⟨hfree, hne, -⟩ := commentLine_shows hline hmark
  exact ⟨hfree, hne, not_endMark_commentLine hmark⟩

/-- A comment block has a start mark, and in front of its last character no end mark. -/
theorem exists_commentBlock (comment : String) : ∃ body,
    (commentBlock comment).toList = "/*".toList ++ body ++ ['*'] ++ ['/'] ∧
      ¬ ['*', '/'] <:+: "/*".toList ++ body ++ ['*'] := by
  have hjoin : ∀ last, Text.join ['\n'] ("/**".toList :: innerLines comment ++ [last]) =
      Text.join ['\n'] ("/**".toList :: innerLines comment) ++ ['\n'] ++ last :=
    Text.join_concat _ (List.cons_ne_nil _ _)
  obtain ⟨rest, hrest⟩ := Text.exists_join_cons ['\n'] "/**".toList (innerLines comment)
  have hfront : "/*".toList ++ ('*' :: rest ++ "\n ".toList) =
      Text.join ['\n'] ("/**".toList :: innerLines comment) ++ ['\n'] ++ [' '] := by
    rw [hrest]
    simp
  refine ⟨'*' :: rest ++ "\n ".toList, ?_, fun hmark => ?_⟩
  · rw [hfront, toList_commentBlock, hjoin]
    simp
  · rw [hfront, List.append_assoc, show [' '] ++ ['*'] = " *".toList from rfl, ← hjoin] at hmark
    obtain ⟨l, hl, hmark⟩ := Text.infix_join (by simp) (by decide) hmark
    simp only [List.cons_append, List.mem_cons, List.mem_append, List.not_mem_nil, or_false] at hl
    rcases hl with rfl | hl | rfl
    · exact absurd hmark (by decide)
    · exact (innerLines_shows hl).2.2 hmark
    · exact absurd hmark (by decide)

theorem lines_commentBlock (comment : String) : Text.lines (commentBlock comment).toList =
    "/**".toList :: (innerLines comment).map Text.chomp ++ [" */".toList] := by
  rw [toList_commentBlock, Text.lines_join (by decide)]
  · rfl
  · intro l hl
    simp only [List.cons_append, List.mem_cons, List.mem_append, List.not_mem_nil, or_false] at hl
    rcases hl with rfl | hl | rfl
    · decide
    · exact (innerLines_shows hl).1
    · decide

/-- A description cannot break out of its comment: its block has no end mark but at its end, and
wherever a layout stands outside of comments, the lines of the block are lines of a comment, which
leave open what is open and end with the block. -/
theorem isComment_commentBlock (comment : String) {s : Layout.State} (style : Style) (number : Nat)
    (h : s.inComment = false) :
    Layout.IsComment style s number (commentBlock comment).toList := by
  obtain ⟨body, hblock, hfree⟩ := exists_commentBlock comment
  refine ⟨⟨"/*".toList ++ body, by rw [hblock, List.append_assoc _ ['*']]; rfl⟩, fun before rest heq => ?_, ?_⟩
  · rw [hblock] at heq
    rcases List.eq_nil_or_concat rest with rfl | ⟨init, c, rfl⟩
    · rfl
    · rw [List.concat_eq_append, ← List.append_assoc] at heq
      exact absurd ⟨before, init, (List.append_inj' heq rfl).1.symm⟩ hfree
  · rw [lines_commentBlock]
    intro k hk
    refine Layout.run_take_comment h (by decide) (fun l hl => ?_) (by decide) hk
    rcases List.mem_cons.1 hl with rfl | hl
    · decide
    · obtain ⟨inner, hinner, rfl⟩ := List.mem_map.1 hl
      obtain ⟨-, hne, hmark⟩ := innerLines_shows hinner
      rw [Text.trim_chomp]
      exact ⟨hne, contains_endMark_eq_false hmark⟩

/-- End marks at the ends of lines and a carriage return, inside an object on its seventh line. -/
theorem isComment_commentBlock_marks :
    ({ stack := [⟨.object, 3⟩], isAlias := true } : Layout.State).inComment = false ∧
    Layout.IsComment {} { stack := [⟨.object, 3⟩], isAlias := true } 7
      (commentBlock "**/ \x7b\r\n\n/ */").toList :=
  ⟨rfl, isComment_commentBlock _ {} 7 rfl⟩

/-! ## Comments in a text that is fed -/

variable {style : Style} {before : List (List Char)} {c : Cursor} {B : List Bracket} {a : Bool}

/-- A comment leaves a layout where it was. -/
theorem feeds_commentMarked (comment : String) (h : Fresh style before false c B a) :
    Feeds style c (commentMarked comment) fun c' => Fresh style before false c' B a := by
  have hlines : ∀ (ls : List (List Char)) (c : Cursor), (∀ l ∈ ls, '\n' ∉ l ∧ ¬ ['*', '/'] <:+: l) →
      Fresh style before true c B a → Feeds style c
        ((ls.map commentLine).flatMap fun line => Marked.plain (String.ofList line) ++
          Marked.newline none) fun c' => Fresh style before true c' B a := by
    intro ls
    induction ls with
    | nil => exact fun c _ hc => .nil hc
    | cons l rest ih =>
        intro c hall hc
        obtain ⟨hline, hne, hmark⟩ := commentLine_shows (hall l List.mem_cons_self).1
          (hall l List.mem_cons_self).2
        rw [List.map_cons, List.flatMap_cons]
        exact (hc.feeds_comment hline hne (.inl rfl) (by rw [hmark]; rfl)).append fun c' hc' =>
          ih c' (fun l hl => hall l (List.mem_cons_of_mem _ hl)) hc'
  have hfirst : Feeds style c (Marked.plain (String.ofList "/**".toList) ++ Marked.newline none)
      fun c' => Fresh style before true c' B a :=
    h.feeds_comment (by decide) (by decide) (.inr (by decide)) (by decide)
  have hlast : ∀ c', Fresh style before true c' B a → Feeds style c'
      (Marked.plain (String.ofList " */".toList) ++ Marked.newline none)
      fun c' => Fresh style before false c' B a := fun c' hc' =>
    hc'.feeds_comment (by decide) (by decide) (.inl rfl) (by decide)
  rw [commentMarked, commentLines, List.flatMap_append, List.flatMap_cons]
  refine (hfirst.append fun c' => hlines _ c' fun _ => not_endMark_of_mem_lines).append fun c' hc' => ?_
  rw [List.flatMap_singleton]
  exact hlast c' hc'

end Typewright.Declaration
