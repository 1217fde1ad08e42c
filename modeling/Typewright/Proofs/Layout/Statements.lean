import Typewright.Proofs.Layout.Marked

/-!
# Texts of whole statements

A text of whole statements takes a layout from the outermost level to the outermost level and is laid
out as its marks say. Such texts can stand one after the other on lines of their own, and the layout
takes them (`Lays.exists_format`).
-/

namespace Typewright.Layout

open Text (content trim visible pieces)

variable {style : Style} {cs ds : List Char} {ls ms : List MarkedLine} {s : State} {number : Nat}

theorem run_append (lines more : List (List Char)) : run style s number (lines ++ more) =
    run style s number lines >>= fun s => run style s (number + lines.length) more := by
  induction lines generalizing s number with
  | nil => rfl
  | cons line rest ih =>
      rw [List.cons_append, run, run, List.length_cons]
      cases step style s number (trim line) with
      | error e => rfl
      | ok s' =>
          have ih := @ih s' (number + 1)
          rw [Nat.add_right_comm] at ih
          exact ih

/-- A layout looks at no more of its lines than what is between the blanks at their ends. -/
theorem run_congr {lines more : List (List Char)} (h : lines.map trim = more.map trim) :
    run style s number lines = run style s number more := by
  induction lines generalizing s number more with
  | nil => rw [List.map_eq_nil_iff.1 h.symm]
  | cons line rest ih =>
      obtain ⟨line', rest', rfl, hline, hrest⟩ := List.map_eq_cons_iff.1 h.symm
      rw [run, run, hline]
      simp only [ih hrest.symm]

/-- The text of statements with these lines. -/
structure Lays (cs : List Char) (ls : List MarkedLine) : Prop where
  content : content cs = ls.map (·.text)
  opens : ∀ l ∈ ls, l.Open
  run : ∀ (style : Style) (s : State) (number : Nat), s.stack = [] → s.inComment = false →
    ∃ s', run style s number (pieces (· == '\n') cs) = .ok s' ∧ s'.stack = [] ∧
      s'.inComment = false ∧
      visible s'.written.reverse = visible s.written.reverse ++ ls.map (·.laidOut style)

theorem lays_nil : Lays [] [] where
  content := rfl
  opens := nofun
  run style s number hstack hcomment := by
    obtain ⟨s', hstep, hstack', hcomment', -, hshown⟩ := exists_step_blank style s number
    refine ⟨s', ?_, hstack'.trans hstack, hcomment'.trans hcomment,
      hshown.trans (List.append_nil _).symm⟩
    have hrun : Layout.run style s number (pieces (· == '\n') []) =
        step style s number [] >>= fun s => .ok s := rfl
    rw [hrun, hstep]
    rfl

/-- Statements on lines of their own. -/
theorem Lays.append (h : Lays cs ls) (h' : Lays ds ms) : Lays (cs ++ '\n' :: ds) (ls ++ ms) where
  content := by rw [Text.content_append, h.content, h'.content, List.map_append]
  opens l hl := (List.mem_append.1 hl).elim (h.opens l) (h'.opens l)
  run style s number hstack hcomment := by
    obtain ⟨s₁, hrun, hstack₁, hcomment₁, hshown⟩ := h.run style s number hstack hcomment
    obtain ⟨s₂, hrun', hstack₂, hcomment₂, hshown'⟩ := h'.run style s₁
      (number + (pieces (· == '\n') cs).length) hstack₁ hcomment₁
    refine ⟨s₂, ?_, hstack₂, hcomment₂, ?_⟩
    · rw [Pointer.pieces_append_cons rfl, run_append, hrun]
      exact hrun'
    · rw [hshown', hshown, List.map_append, List.append_assoc]

theorem Lays.eq_nil (h : Lays [] ls) : ls = [] := List.map_eq_nil_iff.1 h.content.symm

/-- Texts of statements with line feeds between them. -/
theorem lays_intercalate {separator : String} {sections : List (String × List MarkedLine)}
    (hseparator : ∀ {cs ds : List Char} {ls ms : List MarkedLine}, Lays cs ls → Lays ds ms →
      Lays (cs ++ separator.toList ++ ds) (ls ++ ms))
    (h : ∀ p ∈ sections, Lays p.1.toList p.2) :
    Lays (String.intercalate separator (sections.map (·.1))).toList (sections.flatMap (·.2)) := by
  induction sections with
  | nil => exact lays_nil
  | cons p rest ih =>
      have hp := h p List.mem_cons_self
      have ih := ih fun q hq => h q (List.mem_cons_of_mem _ hq)
      cases rest with
      | nil => simpa using hp
      | cons q more =>
          rw [List.map_cons, List.map_cons, String.intercalate_cons_cons, String.toList_append,
            String.toList_append, List.flatMap_cons]
          exact hseparator hp ih

theorem Lays.lines (h : Lays cs ls) (h' : Lays ds ms) : Lays (cs ++ "\n".toList ++ ds) (ls ++ ms) := by
  rw [List.append_assoc]
  exact h.append h'

theorem Lays.paragraphs (h : Lays cs ls) (h' : Lays ds ms) :
    Lays (cs ++ "\n\n".toList ++ ds) (ls ++ ms) := by
  rw [List.append_assoc]
  exact h.append (lays_nil.append h')

/-- A text of statements is taken in every style and laid out as its marks say, without blanks at
the ends of lines. -/
theorem Lays.exists_format {text : String} (h : Lays cs ls) (htext : text.toList = cs ++ ['\n'])
    (style : Style) : ∃ out, format style text = .ok out ∧
      Text.content out.toList = ls.map (·.laidOut style) ∧
      ∀ line ∈ pieces (· == '\n') out.toList, Text.Tight line := by
  obtain ⟨s, hrun, hstack, -, hshown⟩ := h.run style {} 1 rfl rfl
  obtain ⟨out, hout, hcontent, htight⟩ := @exists_format_of_run style text s
    (by rw [htext, Text.lines_append_newline, run_congr (Text.map_trim_chomp _), hrun]) hstack
  exact ⟨out, hout, hcontent.trans hshown, htight⟩

/-- A marked text that a layout is fed with from the outermost level to the end of a statement. -/
theorem lays_of_feeds {m : Marked} {e : Ending}
    (h : ∀ (style : Style) (before : List (List Char)) (c : Cursor) (a : Bool),
      Fresh style before false c [] a → Feeds style c m fun c' =>
        Within style before c' [] e.terminated ∧ Closed c'.line) :
    Lays m.text (m.lines (some e)) := by
  have hrun : ∀ (style : Style) (s : State) (number : Nat), s.stack = [] → s.inComment = false →
      ∃ s', run style s number (pieces (· == '\n') m.text) = .ok s' ∧ s'.stack = [] ∧
        s'.inComment = false ∧ visible s'.written.reverse = visible s.written.reverse ++
          (m.lines (some e)).map (·.laidOut style) ∧ ∀ l ∈ m.lines (some e), l.Open := by
    intro style s number hstack hcomment
    obtain ⟨c, hfeed, hc, hclosed⟩ := h style (visible s.written.reverse) ⟨s, number, [], []⟩
      s.isAlias ⟨rfl, hcomment, by rw [hstack]; rfl, rfl, (List.append_nil _).symm, nofun⟩
    obtain ⟨s', hstep, hfresh⟩ := hc.exists_step (e := some e)
      (fun stack hs => needsSemicolon_of_closed hclosed hs) fun _ => hclosed.not_semicolon
    have hlines : m.lines (some e) = c.finished ++ Marked.shown c.line (some e) :=
      lines_of_feed (some e) hfeed
    refine ⟨s', (run_of_feed hfeed List.not_mem_nil).trans hstep, ?_, hfresh.comment, ?_, ?_⟩
    · exact List.map_eq_nil_iff.1 hfresh.brackets
    · rw [hlines]
      exact hfresh.kept.written
    · rw [hlines]
      exact hfresh.kept.lines
  refine ⟨Marked.content_text _ _, ?_, fun style s number hstack hcomment => ?_⟩
  · obtain ⟨-, -, -, -, -, hopens⟩ := hrun {} {} 1 rfl rfl
    exact hopens
  · obtain ⟨s', hs', hstack', hcomment', hshown, -⟩ := hrun style s number hstack hcomment
    exact ⟨s', hs', hstack', hcomment', hshown⟩

end Typewright.Layout
