import Typewright.Layout
import Typewright.Proofs.Graph.Load

/-!
# What a layout does with a line

A line is blank, a remark, part of a block comment, or code. `Takes` has a rule for each, and a step
is made exactly by these rules (`Takes.step`, `takes_of_step`).
-/

namespace Typewright.Layout

variable {style : Style} {s s' : State} {number : Nat} {line : List Char}

/-- Whether a line belongs to a type alias. -/
def lineIsAlias (s : State) (line : List Char) : Bool :=
  if s.stack.isEmpty then startsWith "export type " line || startsWith "type " line else s.isAlias

/-- A line of a comment as it is laid out: behind one blank more if it starts with a star. -/
def commentText (line : List Char) : List Char :=
  if line.head? == some '*' then ' ' :: line else line

/-- A line of code as it is laid out, with what is open behind it. -/
def codeText (style : Style) (stack : List Frame) (isAlias : Bool) (line : List Char) : List Char :=
  if style.semi && needsSemicolon stack isAlias line then line ++ [';'] else line

/-- What a layout makes of a line without the blanks around it. -/
inductive Takes (style : Style) (s : State) (number : Nat) (line : List Char) : State → Prop where
  /-- A blank line at the start or below another is left out. -/
  | skip (blank : line = []) (shown : ∀ previous ∈ s.written.head?, previous = []) :
      Takes style s number line s
  | blank (blank : line = []) {previous : List Char} (shown : s.written.head? = some previous)
      (ne : previous ≠ []) : Takes style s number line { s with written := [] :: s.written }
  | remark (ne : line ≠ []) (outside : s.inComment = false) (starts : startsWith "//" line = true) :
      Takes style s number line (s.write style (depth s.stack) line)
  | comment (ne : line ≠ [])
      (inside : s.inComment = true ∨
        startsWith "//" line = false ∧ startsWith "/*" line = true) :
      Takes style s number line { s.write style (depth s.stack) (commentText line) with
        inComment := !Text.contains "*/".toList line }
  | code (ne : line ≠ []) (outside : s.inComment = false) (remark : startsWith "//" line = false)
      (comment : startsWith "/*" line = false) {scan : Scan}
      (scanned : scanLine number s.stack line = .ok scan) :
      Takes style s number line
        ({ s with stack := scan.stack, isAlias := lineIsAlias s line }.write style
          (scan.level.getD (depth scan.stack))
          (codeText style scan.stack (lineIsAlias s line) line))

theorem Takes.step (h : Takes style s number line s') : step style s number line = .ok s' := by
  cases h with
  | skip blank shown =>
      subst blank
      cases hwritten : s.written with
      | nil => simp only [Layout.step, List.isEmpty_nil, if_true, hwritten]; rfl
      | cons previous rest =>
          have hempty : previous = [] := shown previous (by rw [hwritten]; rfl)
          simp only [Layout.step, List.isEmpty_nil, if_true, hwritten, hempty]
          rfl
  | @blank blank previous shown ne =>
      subst blank
      obtain ⟨rest, hwritten⟩ := List.head?_eq_some_iff.1 shown
      have hfull : previous.isEmpty = false := by simpa using ne
      simp only [Layout.step, List.isEmpty_nil, if_true, hwritten, hfull, Bool.false_eq_true, if_false]
      rfl
  | remark ne outside starts =>
      have hfull : line.isEmpty = false := by simpa using ne
      simp only [Layout.step, hfull, outside, starts, Bool.not_false, Bool.and_self, Bool.false_eq_true,
        if_false, if_true]
      rfl
  | comment ne inside =>
      have hfull : line.isEmpty = false := by simpa using ne
      have hremark : (startsWith "//" line && !s.inComment) = false := by
        rcases inside with h | ⟨h, -⟩
        · rw [h, Bool.not_true, Bool.and_false]
        · rw [h, Bool.false_and]
      have hcomment : (s.inComment || startsWith "/*" line) = true := by
        rcases inside with h | ⟨-, h⟩
        · rw [h, Bool.true_or]
        · rw [h, Bool.or_true]
      simp only [Layout.step, hfull, hremark, hcomment, Bool.false_eq_true, if_false, if_true]
      rfl
  | code ne outside remark comment scanned =>
      have hfull : line.isEmpty = false := by simpa using ne
      simp only [Layout.step, hfull, remark, comment, outside, Bool.false_and, Bool.false_or,
        Bool.false_eq_true, if_false, scanned]
      rfl

theorem takes_of_step (h : step style s number line = .ok s') : Takes style s number line s' := by
  unfold step at h
  split at h
  · rename_i hline
    have hline := List.isEmpty_iff.1 hline
    split at h
    · rename_i previous rest hwritten
      have hhead : s.written.head? = some previous := by rw [hwritten]; rfl
      obtain rfl := Except.ok.inj h
      split
      · rename_i hempty
        refine .skip hline fun p hp => ?_
        obtain rfl := Option.some.inj (hhead.symm.trans hp)
        exact List.isEmpty_iff.1 hempty
      · rename_i hfull
        exact .blank hline hhead fun hnil => hfull (List.isEmpty_iff.2 hnil)
    · rename_i hwritten
      obtain rfl := Except.ok.inj h
      exact .skip hline (by rw [hwritten]; nofun)
  · rename_i hfull
    have hne : line ≠ [] := fun hnil => hfull (List.isEmpty_iff.2 hnil)
    split at h
    · rename_i hremark
      obtain rfl := Except.ok.inj h
      obtain ⟨hstarts, houtside⟩ := Bool.and_eq_true_iff.1 hremark
      exact .remark hne (by simpa using houtside) hstarts
    · rename_i hremark
      split at h
      · rename_i hcomment
        obtain rfl := Except.ok.inj h
        refine .comment hne ?_
        cases hinside : s.inComment with
        | true => exact .inl rfl
        | false =>
            rw [hinside] at hremark hcomment
            exact .inr ⟨by simpa using hremark, by simpa using hcomment⟩
      · rename_i hcomment
        obtain ⟨scan, hscan, h⟩ := Loading.ok_of_bind h
        obtain rfl := Except.ok.inj h
        obtain ⟨houtside, hstarts⟩ := Bool.or_eq_false_iff.1 (Bool.eq_false_iff.2 hcomment)
        refine .code hne houtside ?_ hstarts hscan
        rw [houtside] at hremark
        simpa using hremark

end Typewright.Layout
