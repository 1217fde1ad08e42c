import Typewright.Proofs.Layout.Step
import Typewright.Proofs.Text.Content

/-!
# What a layout keeps

A layout writes each line of a text in its place. It takes blanks off the ends of a line, indents it
and may put a semicolon behind it, but drops and adds no line that is not blank
(`Layout.content_format`).
-/

namespace Typewright.Layout

open Text (trim content visible visible_append visible_singleton visible_blank isBlank Tight)

variable {style : Style} {s s' : State} {number : Nat}

/-- A line as it is, or with a semicolon behind it. -/
def Ended (line line' : List Char) : Prop := line' = line ∨ line' = line ++ [';']

/-- What a step writes: nothing that shows for a blank line, any other line behind some blanks. -/
inductive Wrote (line : List Char) (s s' : State) : Prop where
  | blank (h : line = []) (same : s'.written = s.written ∨ s'.written = [] :: s.written)
  | line {blanks line' : List Char} (h : line ≠ []) (indent : ∀ c ∈ blanks, c = ' ' ∨ c = '\t')
      (ended : Ended line line') (same : s'.written = (blanks ++ line') :: s.written)

theorem blank_of_indent {blanks : List Char} (h : ∀ c ∈ blanks, c = ' ' ∨ c = '\t') :
    ∀ c ∈ blanks, isBlank c = true := by
  intro c hc
  rcases h c hc with rfl | rfl <;> rfl

theorem Ended.ite {line : List Char} (b : Bool) :
    Ended line (if b then line ++ [';'] else line) := by
  cases b with
  | true => exact .inr rfl
  | false => exact .inl rfl

/-- A line at a level stands behind blanks. -/
theorem Wrote.indented (style : Style) (level : Nat) (blanks : List Char)
    {line line' : List Char} (h : line ≠ []) (hblanks : ∀ c ∈ blanks, c = ' ' ∨ c = '\t')
    (hended : Ended line line')
    (hsame : s'.written = indented style level (blanks ++ line') :: s.written) :
    Wrote line s s' := by
  rw [Layout.indented, ← List.append_assoc] at hsame
  refine .line h (fun c hc => ?_) hended hsame
  rcases List.mem_append.1 hc with hc | hc
  · split at hc
    · exact .inr (List.eq_of_mem_replicate hc)
    · exact .inl (List.eq_of_mem_replicate hc)
  · exact hblanks c hc

theorem wrote_step {line : List Char} (h : step style s number line = .ok s') :
    Wrote line s s' := by
  cases takes_of_step h with
  | skip blank => exact .blank blank (.inl rfl)
  | blank blank => exact .blank blank (.inr rfl)
  | remark ne => exact .indented style _ [] ne nofun (.inl rfl) rfl
  | comment ne =>
      by_cases hstar : (line.head? == some '*') = true
      · -- a line of a block comment stands behind one blank more
        refine .indented style (depth s.stack) [' '] ne ?_ (.inl rfl) ?_
        · exact fun c hc => .inl (List.mem_singleton.1 hc)
        · rw [commentText, if_pos hstar]
          rfl
      · refine .indented style (depth s.stack) [] ne nofun (.inl rfl) ?_
        rw [commentText, if_neg hstar]
        rfl
  | code ne => exact .indented style _ [] ne nofun (.ite _) rfl

/-! ## All lines -/

theorem Ended.not_mem {line line' : List Char} (h : Ended line line') (hline : '\n' ∉ line) :
    '\n' ∉ line' := by
  rcases h with rfl | rfl
  · exact hline
  · simpa using hline

theorem Ended.trim_eq {line line' : List Char} (h : Ended (trim line) line')
    (hne : trim line ≠ []) : trim line' = line' := by
  rcases h with rfl | rfl
  · exact Text.trim_trim line
  · obtain ⟨c, rest, heq⟩ := List.exists_cons_of_ne_nil hne
    rw [heq]
    exact Text.trim_of_ends (Text.isBlank_of_trim heq) rfl

theorem Ended.ne_nil {line line' : List Char} (h : Ended line line') (hne : line ≠ []) :
    line' ≠ [] := by
  rcases h with rfl | rfl
  · exact hne
  · exact List.append_ne_nil_of_right_ne_nil _ (List.cons_ne_nil _ _)

/-- A step writes what shows of its line. -/
theorem Wrote.visible {line : List Char} (h : Wrote (trim line) s s') (hline : '\n' ∉ line) :
    ∃ one, s'.written = one ++ s.written ∧ (∀ l ∈ one, '\n' ∉ l ∧ Tight l) ∧
      List.Forall₂ Ended (visible [line]) (visible one.reverse) := by
  cases h with
  | blank h same =>
      rw [visible_blank h]
      rcases same with same | same
      · exact ⟨[], same, nofun, .nil⟩
      · refine ⟨[[]], same, fun l hl => ?_, .nil⟩
        exact List.mem_singleton.1 hl ▸ ⟨List.not_mem_nil, Text.tight_nil⟩
  | @line blanks line' h indent ended same =>
      have htrim : trim (blanks ++ line') = line' := by
        rw [Text.trim_append_blank (blank_of_indent indent), ended.trim_eq h]
      refine ⟨[blanks ++ line'], same, fun l hl => ?_, ?_⟩
      · have htight : Tight line' := ended.trim_eq h ▸ Text.tight_trim line'
        rw [List.mem_singleton.1 hl, List.mem_append]
        refine ⟨?_, htight.append (ended.ne_nil h)⟩
        rintro (hmem | hmem)
        · rcases indent _ hmem with h | h <;> cases h
        · exact ended.not_mem (fun hmem => hline (Text.mem_of_mem_trim hmem)) hmem
      · rw [List.reverse_singleton, visible_singleton h,
          visible_singleton (htrim.symm ▸ ended.ne_nil h), htrim]
        exact .cons ended .nil

/-- A run writes the lines that show, each as it is or with a semicolon behind it. -/
theorem run_written {lines : List (List Char)} (h : run style s number lines = .ok s')
    (hlines : ∀ line ∈ lines, '\n' ∉ line) :
    ∃ more, s'.written = more ++ s.written ∧ (∀ line ∈ more, '\n' ∉ line ∧ Tight line) ∧
      List.Forall₂ Ended (visible lines) (visible more.reverse) := by
  induction lines generalizing s number with
  | nil =>
      obtain rfl := Except.ok.inj h
      exact ⟨[], rfl, nofun, .nil⟩
  | cons line rest ih =>
      rw [run] at h
      obtain ⟨t, hstep, hrun⟩ := Loading.ok_of_bind h
      obtain ⟨more, hmore, hfree, hshown⟩ :=
        ih hrun fun l hl => hlines l (List.mem_cons_of_mem _ hl)
      obtain ⟨one, hone, hfree', hshown'⟩ :=
        (wrote_step hstep).visible (hlines line List.mem_cons_self)
      refine ⟨more ++ one, by rw [hmore, hone, List.append_assoc], fun l hl => ?_, ?_⟩
      · exact (List.mem_append.1 hl).elim (hfree l) (hfree' l)
      · rw [List.reverse_append, visible_append, ← List.singleton_append, visible_append]
        exact List.rel_append hshown' hshown

theorem visible_dropWhile_isEmpty (ls : List (List Char)) :
    visible (ls.dropWhile List.isEmpty).reverse = visible ls.reverse := by
  induction ls with
  | nil => rfl
  | cons l rest ih =>
      rw [List.dropWhile_cons]
      split
      · rename_i hempty
        rw [ih, List.reverse_cons, visible_append, List.isEmpty_iff.1 hempty,
          visible_blank Text.trim_nil, List.append_nil]
      · rfl

/-- The text of a layout that is at its end. -/
def State.text (t : State) : String :=
  String.ofList (Text.join ['\n'] (t.written.dropWhile List.isEmpty).reverse ++ ['\n'])

theorem format_iff {text out : String} : format style text = .ok out ↔
    ∃ t, run style {} 1 (Text.lines text.toList) = .ok t ∧ t.stack = [] ∧ out = t.text := by
  constructor
  · intro h
    unfold format at h
    obtain ⟨t, hrun, h⟩ := Loading.ok_of_bind h
    split at h
    · cases h
    · rename_i hstack
      exact ⟨t, hrun, hstack, (Except.ok.inj h).symm⟩
  · rintro ⟨t, hrun, hstack, rfl⟩
    unfold format
    simp only [hrun, bind, Except.bind, hstack]
    rfl

/-- A run that closes all delimiters gives the output, which says what the written lines show and
has no blanks at the ends of its lines. -/
theorem exists_format_of_run {text : String} {t : State}
    (hrun : run style {} 1 (Text.lines text.toList) = .ok t) (hstack : t.stack = []) :
    ∃ out, format style text = .ok out ∧ content out.toList = visible t.written.reverse ∧
      ∀ line ∈ Text.pieces (· == '\n') out.toList, Tight line := by
  obtain ⟨more, hmore, hlines, -⟩ := run_written hrun fun _ => Text.not_mem_of_mem_lines
  have hwritten : t.written = more := by rw [hmore, List.append_nil]
  have hkept : ∀ l ∈ (t.written.dropWhile List.isEmpty).reverse, '\n' ∉ l ∧ Tight l := fun l hl =>
    hlines l (hwritten ▸ (List.dropWhile_suffix _).subset (List.mem_reverse.1 hl))
  refine ⟨t.text, format_iff.2 ⟨t, hrun, hstack, rfl⟩, ?_, fun line hline => ?_⟩
  · rw [State.text, String.toList_ofList, Text.content_append_newline,
      Text.content_join fun l hl => (hkept l hl).1, visible_dropWhile_isEmpty]
  · rw [State.text, String.toList_ofList, Pointer.pieces_append_cons rfl, List.mem_append] at hline
    rcases hline with hline | hline
    · by_cases hne : (t.written.dropWhile List.isEmpty).reverse = []
      · rw [hne] at hline
        exact List.mem_singleton.1 hline ▸ Text.tight_nil
      · rw [Text.pieces_join hne fun l hl => (hkept l hl).1] at hline
        exact (hkept line hline).2
    · exact List.mem_singleton.1 hline ▸ Text.tight_nil

/-- A layout keeps what a text says: the lines that are not blank, in their order, each as it is or
with a semicolon behind it. -/
theorem content_format {text out : String} (h : format style text = .ok out) :
    List.Forall₂ Ended (content text.toList) (content out.toList) := by
  obtain ⟨t, hrun, hstack, rfl⟩ := format_iff.1 h
  obtain ⟨more, hmore, -, hshown⟩ := run_written hrun fun _ => Text.not_mem_of_mem_lines
  obtain ⟨out, hout, hcontent, -⟩ := exists_format_of_run hrun hstack
  obtain rfl := Except.ok.inj (hout.symm.trans h)
  rw [hcontent, hmore, List.append_nil]
  exact hshown

end Typewright.Layout
