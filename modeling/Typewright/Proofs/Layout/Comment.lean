import Typewright.Proofs.Layout.Statements

/-!
# Comments in a layout

Inside of a comment a layout only writes: the lines stand at the level of the open delimiters, and
what is open stays open. A block is one comment if the layout goes in with its first line and comes
out with its last (`run_take_comment`).
-/

namespace Typewright.Layout

open Text (trim)

variable {style : Style} {s : State} {number : Nat}

/-- A layout that has written lines of a comment and now is inside of one or not. -/
def State.withComment (style : Style) (s : State) (ls : List (List Char)) (inComment : Bool) :
    State :=
  { s with
    written := (ls.map fun line => indented style (depth s.stack) (commentText (trim line))).reverse ++
      s.written
    inComment }

theorem withComment_nil (h : s.inComment = false) : s.withComment style [] false = s := by
  cases s
  cases h
  rfl

theorem withComment_withComment (ls ms : List (List Char)) (a b : Bool) :
    (s.withComment style ls a).withComment style ms b = s.withComment style (ls ++ ms) b := by
  simp [State.withComment]

/-- One line of a comment. -/
theorem step_withComment {line : List Char} (hne : trim line ≠ [])
    (h : s.inComment = true ∨
      startsWith "//" (trim line) = false ∧ startsWith "/*" (trim line) = true) :
    step style s number (trim line) =
      .ok (s.withComment style [line] (!Text.contains "*/".toList (trim line))) :=
  (Takes.comment hne h).step

/-- Inside of a comment, lines without an end mark are lines of the comment. -/
theorem run_withComment {ls : List (List Char)} (hcomment : s.inComment = true)
    (hls : ∀ l ∈ ls, trim l ≠ [] ∧ Text.contains "*/".toList (trim l) = false) :
    run style s number ls = .ok (s.withComment style ls true) := by
  induction ls generalizing s number with
  | nil =>
      cases s
      cases hcomment
      rfl
  | cons l rest ih =>
      obtain ⟨hne, hmark⟩ := hls l List.mem_cons_self
      rw [run, step_withComment hne (.inl hcomment), hmark]
      have hrest := @ih (s.withComment style [l] true) (number + 1) rfl fun l hl =>
        hls l (List.mem_cons_of_mem _ hl)
      rw [withComment_withComment] at hrest
      exact hrest

/-- A comment from its first line on: a layout is inside of it until its last line is written. -/
theorem run_take_comment {first last : List Char} {ls : List (List Char)}
    (hcomment : s.inComment = false)
    (hfirst : startsWith "//" (trim first) = false ∧ startsWith "/*" (trim first) = true)
    (hls : ∀ l ∈ first :: ls, trim l ≠ [] ∧ Text.contains "*/".toList (trim l) = false)
    (hlast : Text.contains "*/".toList (trim last) = true) {k : Nat}
    (hk : k ≤ (first :: ls ++ [last]).length) :
    run style s number ((first :: ls ++ [last]).take k) =
      .ok (s.withComment style ((first :: ls ++ [last]).take k)
        (decide (0 < k ∧ k < (first :: ls ++ [last]).length))) := by
  have hopen : run style s number [first] = .ok (s.withComment style [first] true) := by
    rw [run, step_withComment (hls first List.mem_cons_self).1 (.inr hfirst),
      (hls first List.mem_cons_self).2]
    rfl
  have hinside : ∀ ms : List (List Char), ms ⊆ ls →
      run style s number (first :: ms) = .ok (s.withComment style (first :: ms) true) := by
    intro ms hms
    rw [← List.singleton_append, run_append, hopen]
    refine (run_withComment (s := s.withComment style [first] true) rfl fun l hl =>
      hls l (List.mem_cons_of_mem _ (hms hl))).trans ?_
    rw [withComment_withComment]
  cases k with
  | zero => exact congrArg Except.ok (withComment_nil hcomment).symm
  | succ k =>
      rw [List.cons_append, List.take_succ_cons]
      by_cases hinner : k ≤ ls.length
      · have hlt : k + 1 < (first :: (ls ++ [last])).length := by simp; omega
        rw [List.take_append_of_le_length hinner, hinside _ (List.take_subset k ls),
          decide_eq_true ⟨Nat.succ_pos k, hlt⟩]
      · -- the last line, which has the end mark
        have hlen : (first :: (ls ++ [last])).length = k + 1 := by
          simp only [List.cons_append, List.length_cons, List.length_append, List.length_nil]
            at hk ⊢
          omega
        have hne : trim last ≠ [] := by
          rintro hnil
          rw [hnil] at hlast
          cases hlast
        have hend : run style (s.withComment style (first :: ls) true)
            (number + (first :: ls).length) [last] =
            .ok ((s.withComment style (first :: ls) true).withComment style [last] false) := by
          rw [run, step_withComment hne (.inl rfl), hlast]
          rfl
        rw [List.take_of_length_le (by simp at hlen ⊢; omega), ← List.cons_append, run_append,
          hinside ls fun _ => id, List.cons_append, hlen, decide_eq_false (by omega)]
        refine hend.trans ?_
        rw [withComment_withComment]
        rfl

/-- A block of lines that is one comment: its only end mark is at its end, and a layout takes each
of its lines as a line of a comment, is inside of the comment until the last of them is written and
outside from then on. -/
structure IsComment (style : Style) (s : State) (number : Nat) (block : List Char) : Prop where
  endMark : "*/".toList <:+ block
  only : ∀ front rest, block = front ++ "*/".toList ++ rest → rest = []
  run : ∀ k ≤ (Text.lines block).length, run style s number ((Text.lines block).take k) =
    .ok (s.withComment style ((Text.lines block).take k)
      (decide (0 < k ∧ k < (Text.lines block).length)))

end Typewright.Layout
