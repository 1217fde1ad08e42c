import Typewright.Proofs.Layout.Statements

/-!
# Laying out once more

A text that is laid out stays as it is (`format_format`). Its lines are those of the first text under
other numbers, as blank lines were left out, and a scan only tells lines apart: with the open
delimiters renumbered it makes the same of a line (`scanLine_renumber`), also with a semicolon behind
it. So each line that a step writes is taken as the line it was written for (`step_again`), and a run
over the written lines writes them again (`run_again`).
-/

namespace Typewright.Layout

open Text (trim content)

/-! ## Other line numbers -/

/-- An open delimiter with its line renumbered. -/
def Frame.renumber (f : Nat → Nat) (frame : Frame) : Frame := { frame with line := f frame.line }

def Scan.renumber (f : Nat → Nat) (s : Scan) : Scan :=
  { s with stack := s.stack.map (Frame.renumber f) }

/-- Different lines get different numbers. -/
def Apart (f : Nat → Nat) (lines : List Nat) : Prop :=
  ∀ a ∈ lines, ∀ b ∈ lines, f a = f b → a = b

variable {f : Nat → Nat} {number number' : Nat} {head : Bool} {s s' : Scan} {stack rest : List Frame}
  {c : Char} {cs : List Char}

theorem Apart.subset {lines more : List Nat} (h : Apart f more) (hsub : lines ⊆ more) :
    Apart f lines :=
  fun a ha b hb => h a (hsub ha) b (hsub hb)

/-- Levels tell only whether lines are different. -/
theorem depth_renumber (h : Apart f (stack.map (·.line))) :
    depth (stack.map (Frame.renumber f)) = depth stack := by
  fun_induction depth stack with
  | case1 => rfl
  | case2 => rfl
  | case3 a b rest ih =>
      have hline : ((Frame.renumber f a).line == (Frame.renumber f b).line) = (a.line == b.line) := by
        rw [Bool.eq_iff_iff, beq_iff_eq, beq_iff_eq]
        exact ⟨h a.line (by simp) b.line (by simp), congrArg f⟩
      rw [List.map_cons, List.map_cons, depth, hline, ← ih (h.subset (List.subset_cons_self _ _))]
      rfl

theorem close_renumber (f : Nat → Nat) (number' : Nat) (h : close number stack c = .ok rest) :
    close number' (stack.map (Frame.renumber f)) c = .ok (rest.map (Frame.renumber f)) ∧
      rest ⊆ stack := by
  unfold close at h
  split at h
  · cases h
  · rename_i frame more
    split at h
    · rename_i hcloser
      obtain rfl := Except.ok.inj h
      exact ⟨if_pos hcloser, List.subset_cons_self _ _⟩
    · cases h

theorem scanChar_renumber (hnumber : f number = number')
    (hs : Apart f (number :: s.stack.map (·.line))) (h : scanChar number head s c = .ok s') :
    scanChar number' head (s.renumber f) c = .ok (s'.renumber f) ∧
      s'.stack.map (·.line) ⊆ number :: s.stack.map (·.line) := by
  have hdepth := depth_renumber (hs.subset (List.subset_cons_self _ _))
  unfold scanChar at h ⊢
  dsimp only at h ⊢
  generalize hs₁ : (if (s.level.isNone && !isCloser c) = true then
    { s with level := some (depth s.stack) } else s) = s₁ at h
  have hstack : s₁.stack = s.stack := by
    rw [← hs₁]
    split <;> rfl
  have hs₁' : (if ((s.renumber f).level.isNone && !isCloser c) = true then
      { s.renumber f with level := some (depth (s.renumber f).stack) } else s.renumber f) =
      s₁.renumber f := by
    rw [← hs₁]
    simp only [Scan.renumber, hdepth]
    split <;> rfl
  rw [hs₁', ← hstack]
  clear hs₁' hs₁ hdepth hs hstack
  obtain ⟨stack, level, quote, escaped⟩ := s₁
  have hkept : stack.map (·.line) ⊆ number :: stack.map (·.line) := List.subset_cons_self _ _
  have hopen : ∀ bracket, (⟨bracket, number'⟩ :: stack.map (Frame.renumber f) : List Frame) =
      (⟨bracket, number⟩ :: stack).map (Frame.renumber f) := fun bracket => by
    rw [List.map_cons, Frame.renumber, hnumber]
  have hempty : (stack.map (Frame.renumber f)).isEmpty = stack.isEmpty := List.isEmpty_map
  unfold Scan.renumber
  cases quote with
  | some quote =>
      dsimp only at h ⊢
      split_ifs at h ⊢ <;> obtain rfl := Except.ok.inj h <;> exact ⟨rfl, hkept⟩
  | none =>
      dsimp only at h ⊢
      rw [hempty]
      split_ifs at h ⊢
      · obtain rfl := Except.ok.inj h
        exact ⟨rfl, hkept⟩
      iterate 4
        · obtain rfl := Except.ok.inj h
          exact ⟨by rw [hopen], fun _ => id⟩
      · cases hclose : close number stack c with
        | error e => rw [hclose] at h; cases h
        | ok rest =>
            rw [hclose] at h
            obtain rfl := Except.ok.inj h
            obtain ⟨hclose', hrest⟩ := close_renumber f number' hclose
            exact ⟨by rw [hclose']; rfl, List.Subset.trans (List.map_subset _ hrest) hkept⟩
      · obtain rfl := Except.ok.inj h
        exact ⟨rfl, hkept⟩


theorem scanLine_renumber {line : List Char} (hnumber : f number = number')
    (hs : Apart f (number :: stack.map (·.line))) (h : scanLine number stack line = .ok s) :
    scanLine number' (stack.map (Frame.renumber f)) line = .ok (s.renumber f) ∧
      s.stack.map (·.line) ⊆ number :: stack.map (·.line) := by
  have hfold : ∀ {cs : List Char} {s s' : Scan}, Apart f (number :: s.stack.map (·.line)) →
      cs.foldlM (scanChar number (isEnumHead line)) s = .ok s' →
      cs.foldlM (scanChar number' (isEnumHead line)) (s.renumber f) = .ok (s'.renumber f) ∧
        s'.stack.map (·.line) ⊆ number :: s.stack.map (·.line) := by
    intro cs
    induction cs with
    | nil =>
        intro s s' hs h
        obtain rfl := Except.ok.inj h
        exact ⟨rfl, List.subset_cons_self _ _⟩
    | cons c cs ih =>
        intro s s' hs h
        rw [List.foldlM_cons] at h ⊢
        obtain ⟨s₁, hchar, hrest⟩ := Loading.ok_of_bind h
        obtain ⟨hchar', hsub⟩ := scanChar_renumber hnumber hs hchar
        have hsub : number :: s₁.stack.map (·.line) ⊆ number :: s.stack.map (·.line) :=
          List.cons_subset.2 ⟨List.mem_cons_self, hsub⟩
        obtain ⟨hrest', hsub'⟩ := ih (hs.subset hsub) hrest
        rw [hchar']
        exact ⟨hrest', List.Subset.trans hsub' hsub⟩
  unfold scanLine at h ⊢
  obtain ⟨s', hread, hend⟩ := Loading.ok_of_bind h
  obtain ⟨hread', hsub⟩ := hfold (s := { stack }) hs hread
  have hread' : line.foldlM (scanChar number' (isEnumHead line))
      { stack := stack.map (Frame.renumber f) } = .ok (s'.renumber f) := hread'
  rw [hread']
  split at hend
  · cases hend
  · rename_i hquote
    obtain rfl := Except.ok.inj hend
    have hquote' : (s'.renumber f).quote = none := hquote
    simp only [bind, Except.bind, hquote']
    exact ⟨rfl, hsub⟩

/-! ## A semicolon behind a line -/

theorem isPrefixOf_semicolon {word : List Char} (h : ';' ∉ word) (line : List Char) :
    word.isPrefixOf (line ++ [';']) = word.isPrefixOf line := by
  rw [Bool.eq_iff_iff, List.isPrefixOf_iff_prefix, List.isPrefixOf_iff_prefix,
    List.prefix_concat_iff]
  exact or_iff_right fun heq => h (heq ▸ by simp)

theorem startsWith_semicolon {start : String} (h : ';' ∉ start.toList) (line : List Char) :
    startsWith start (line ++ [';']) = startsWith start line := isPrefixOf_semicolon h line

/-- Behind a word stands the same blank. -/
theorem head?_drop_semicolon (n : Nat) (line : List Char) :
    ((line ++ [';']).drop n).head?.any Text.isBlank = (line.drop n).head?.any Text.isBlank := by
  rw [List.drop_append]
  cases hrest : line.drop n with
  | nil =>
      cases n - line.length with
      | zero => rfl
      | succ k => rw [List.nil_append, List.drop_succ_cons, List.drop_nil]
  | cons c rest => rfl

theorem skipWord_semicolon {word : String} (h : ';' ∉ word.toList) (line : List Char) :
    skipWord word (line ++ [';']) = skipWord word line ++ [';'] := by
  unfold skipWord
  simp only [isPrefixOf_semicolon h, head?_drop_semicolon]
  split
  · rename_i hword
    have hlen : word.toList.length ≤ line.length := by
      have hprefix := (Bool.and_eq_true_iff.1 hword).1
      exact (List.isPrefixOf_iff_prefix.1 hprefix).length_le
    rw [List.drop_append_of_le_length hlen, List.dropWhile_append]
    split
    · rename_i hempty
      rw [List.isEmpty_iff.1 hempty]
      rfl
    · rfl
  · rfl

theorem isEnumHead_semicolon (line : List Char) : isEnumHead (line ++ [';']) = isEnumHead line := by
  unfold isEnumHead
  rw [skipWord_semicolon (by decide), skipWord_semicolon (by decide), skipWord_semicolon (by decide)]
  simp only [isPrefixOf_semicolon (show ';' ∉ "enum".toList by decide), head?_drop_semicolon]

/-- A semicolon opens and closes nothing; a line that closes only gets its level from it. -/
theorem scanLine_semicolon {line : List Char} (h : scanLine number stack line = .ok s) :
    scanLine number stack (line ++ [';']) =
      .ok { s with level := some (s.level.getD (depth s.stack)) } := by
  unfold scanLine at h ⊢
  obtain ⟨s', hread, hend⟩ := Loading.ok_of_bind h
  split at hend
  · cases hend
  · rename_i hquote
    obtain rfl := Except.ok.inj hend
    have hlast : scanChar number (isEnumHead line) s' ';' =
        .ok { s' with level := some (s'.level.getD (depth s'.stack)) } := by
      obtain ⟨stack, level, quote, escaped⟩ := s'
      obtain rfl : quote = none := hquote
      cases level with
      | none => rfl
      | some level => rfl
    rw [isEnumHead_semicolon, List.foldlM_append, hread]
    simp only [bind, Except.bind, List.foldlM_cons, List.foldlM_nil, hlast, pure, Except.pure,
      hquote]

theorem needsSemicolon_semicolon (stack : List Frame) (isAlias : Bool) (line : List Char) :
    needsSemicolon stack isAlias (line ++ [';']) = false := by
  unfold needsSemicolon
  rw [List.getLast?_concat]
  rfl

/-- A line that got its semicolon gets no other. -/
theorem codeText_codeText (style : Style) (stack : List Frame) (isAlias : Bool) (line : List Char) :
    codeText style stack isAlias (codeText style stack isAlias line) =
      codeText style stack isAlias line := by
  by_cases hneeds : (style.semi && needsSemicolon stack isAlias line) = true
  · rw [codeText, codeText, if_pos hneeds, needsSemicolon_semicolon, Bool.and_false]
    rfl
  · rw [codeText, codeText, if_neg hneeds, if_neg hneeds]

/-- Of the open delimiters it does not matter where they stand. -/
theorem codeText_renumber (style : Style) (stack : List Frame) (isAlias : Bool) (line : List Char) :
    codeText style (stack.map (Frame.renumber f)) isAlias line = codeText style stack isAlias line := by
  have hneeds : needsSemicolon (stack.map (Frame.renumber f)) isAlias line =
      needsSemicolon stack isAlias line := by
    cases stack with
    | nil => rfl
    | cons frame rest => rfl
  rw [codeText, codeText, hneeds]

theorem lineIsAlias_semicolon (t : State) (line : List Char) :
    lineIsAlias t (line ++ [';']) = lineIsAlias t line := by
  unfold lineIsAlias
  rw [startsWith_semicolon (by decide), startsWith_semicolon (by decide)]

/-- A line of code is a line of code with the same delimiters as it is laid out. -/
theorem Ended.scanLine {line line' : List Char} (h : Ended line line')
    (hscan : scanLine number stack line = .ok s) : ∃ level,
    Layout.scanLine number stack line' = .ok { s with level } ∧
      level.getD (depth s.stack) = s.level.getD (depth s.stack) := by
  rcases h with rfl | rfl
  · exact ⟨s.level, hscan, rfl⟩
  · exact ⟨_, scanLine_semicolon hscan, rfl⟩

theorem Ended.startsWith {line line' : List Char} (h : Ended line line') {start : String}
    (hstart : ';' ∉ start.toList) : Layout.startsWith start line' = Layout.startsWith start line := by
  rcases h with rfl | rfl
  · rfl
  · exact startsWith_semicolon hstart line

theorem Ended.lineIsAlias {line line' : List Char} (h : Ended line line') (t : State) :
    Layout.lineIsAlias t line' = Layout.lineIsAlias t line := by
  rcases h with rfl | rfl
  · rfl
  · exact lineIsAlias_semicolon t line

/-! ## A written line once more -/

def State.renumber (f : Nat → Nat) (t : State) : State :=
  { t with stack := t.stack.map (Frame.renumber f) }

/-- New numbers for the lines of the open delimiters, all of them in front of the next line. -/
structure Numbers (f : Nat → Nat) (number number' : Nat) (stack : List Frame) : Prop where
  apart : Apart f (stack.map (·.line))
  before : ∀ n ∈ stack.map (·.line), n < number ∧ f n < number'

variable {style : Style} {t t' : State} {line : List Char}

theorem Numbers.succ (h : Numbers f number number' stack) :
    Numbers f (number + 1) (number' + 1) stack where
  apart := h.apart
  before n hn := ⟨(h.before n hn).1.trans (Nat.lt_succ_self _),
    (h.before n hn).2.trans (Nat.lt_succ_self _)⟩

theorem Numbers.skip (h : Numbers f number number' stack) : Numbers f (number + 1) number' stack where
  apart := h.apart
  before n hn := ⟨(h.before n hn).1.trans (Nat.lt_succ_self _), (h.before n hn).2⟩

/-- The next line gets its number. -/
theorem Numbers.next (h : Numbers f number number' t.stack) : ∃ g, g number = number' ∧
    t.renumber g = t.renumber f ∧ Apart g (number :: t.stack.map (·.line)) ∧
      ∀ n ∈ number :: t.stack.map (·.line), n < number + 1 ∧ g n < number' + 1 := by
  have hold : ∀ n ∈ t.stack.map (·.line), Function.update f number number' n = f n := fun n hn =>
    Function.update_of_ne (h.before n hn).1.ne _ _
  have hnew := Function.update_self number number' f
  refine ⟨Function.update f number number', hnew, ?_, fun a ha b hb heq => ?_, fun n hn => ?_⟩
  · have hframes : t.stack.map (Frame.renumber (Function.update f number number')) =
        t.stack.map (Frame.renumber f) :=
      List.map_congr_left fun frame hframe =>
        congrArg (Frame.mk frame.bracket) (hold frame.line (List.mem_map_of_mem hframe))
    rw [State.renumber, hframes]
    rfl
  · rcases List.mem_cons.1 ha with ha | ha <;> rcases List.mem_cons.1 hb with hb | hb
    · rw [ha, hb]
    · rw [ha, hnew, hold b hb] at heq
      exact absurd heq (h.before b hb).2.ne'
    · rw [hb, hnew, hold a ha] at heq
      exact absurd heq (h.before a ha).2.ne
    · rw [hold a ha, hold b hb] at heq
      exact h.apart a ha b hb heq
  · rcases List.mem_cons.1 hn with hn | hn
    · rw [hn, hnew]
      exact ⟨Nat.lt_succ_self _, Nat.lt_succ_self _⟩
    · rw [hold n hn]
      exact ⟨(h.before n hn).1.trans_le (Nat.le_succ _), (h.before n hn).2.trans_le (Nat.le_succ _)⟩

theorem trim_indented (style : Style) (level : Nat) (cs : List Char) :
    trim (indented style level cs) = trim cs := by
  refine Text.trim_append_blank fun c hc => ?_
  split at hc
  · rw [List.eq_of_mem_replicate hc]
    rfl
  · rw [List.eq_of_mem_replicate hc]
    rfl

theorem trim_commentText (cs : List Char) : trim (commentText cs) = trim cs := by
  unfold commentText
  split
  · exact @Text.trim_append_blank cs [' '] fun c hc => by rw [List.mem_singleton.1 hc]; rfl
  · rfl

/-- What a step writes, a step takes as it took its line, and writes it again. -/
theorem step_again (h : step style t number (trim line) = .ok t')
    (ht : Numbers f number number' t.stack) : t' = t ∨
      ∃ written g, t'.written = written :: t.written ∧
        step style (t.renumber f) number' (trim written) = .ok (t'.renumber g) ∧
        Numbers g (number + 1) (number' + 1) t'.stack := by
  have hdepth : depth (t.renumber f).stack = depth t.stack := depth_renumber ht.apart
  cases takes_of_step h with
  | skip => exact .inl rfl
  | blank blank shown ne =>
      refine .inr ⟨[], f, rfl, ?_, ?_⟩
      · exact (Takes.blank (s := t.renumber f) rfl shown ne).step
      · exact ht.succ
  | remark ne outside starts =>
      refine .inr ⟨_, f, rfl, ?_, ?_⟩
      · have hstep := (@Takes.remark style (t.renumber f) number' _ ne outside starts).step
        rw [hdepth] at hstep
        rw [trim_indented, Text.trim_trim]
        exact hstep
      · exact ht.succ
  | comment ne inside =>
      refine .inr ⟨_, f, rfl, ?_, ?_⟩
      · have hstep := (@Takes.comment style (t.renumber f) number' _ ne inside).step
        rw [hdepth] at hstep
        rw [trim_indented, trim_commentText, Text.trim_trim]
        exact hstep
      · exact ht.succ
  | @code ne outside remark comment scan scanned =>
      obtain ⟨g, hnumber, hrenumber, hg, hbefore⟩ := ht.next
      obtain ⟨hscan, hlines⟩ := scanLine_renumber hnumber hg scanned
      have hapart := hg.subset hlines
      refine .inr ⟨_, g, rfl, ?_, hapart, fun n hn => hbefore n (hlines hn)⟩
      generalize htext : codeText style scan.stack (lineIsAlias t (trim line)) (trim line) = text
      have hended : Ended (trim line) text := htext ▸ .ite _
      rw [trim_indented, hended.trim_eq ne, ← hrenumber]
      obtain ⟨level, hscan, hlevel⟩ := hended.scanLine hscan
      have hstep := (@Takes.code style (t.renumber g) number' _ (hended.ne_nil ne) outside
        ((hended.startsWith (by decide)).trans remark)
        ((hended.startsWith (by decide)).trans comment) _ hscan).step
      have halias : Layout.lineIsAlias (t.renumber g) text = Layout.lineIsAlias t (trim line) := by
        rw [hended.lineIsAlias, Layout.lineIsAlias, State.renumber, List.isEmpty_map]
        rfl
      have hcode : codeText style (scan.renumber g).stack (Layout.lineIsAlias t (trim line)) text =
          text := by
        rw [Scan.renumber, codeText_renumber, ← htext, codeText_codeText]
      have hwritten : level.getD (depth (scan.renumber g).stack) =
          scan.level.getD (depth scan.stack) := hlevel.trans (by
        rw [Scan.renumber, depth_renumber hapart])
      rw [hstep, halias, hcode, hwritten]
      rfl

/-- What a run writes, a run takes and writes again. -/
theorem run_again {lines : List (List Char)} (h : run style t number lines = .ok t')
    (ht : Numbers f number number' t.stack) : ∃ g more, t'.written = more ++ t.written ∧
      run style (t.renumber f) number' more.reverse = .ok (t'.renumber g) := by
  induction lines generalizing t f number number' with
  | nil =>
      obtain rfl := Except.ok.inj h
      exact ⟨f, [], rfl, rfl⟩
  | cons line rest ih =>
      rw [run] at h
      obtain ⟨t₁, hstep, hrun⟩ := Loading.ok_of_bind h
      rcases step_again hstep ht with rfl | ⟨written, g, hwritten, hstep', hnumbers⟩
      · exact ih hrun ht.skip
      · obtain ⟨g', more, hmore, hrun'⟩ := ih hrun hnumbers
        refine ⟨g', more ++ [written], by rw [hmore, hwritten, List.append_assoc]; rfl, ?_⟩
        rw [List.reverse_append, List.reverse_singleton, List.singleton_append, run, hstep']
        exact hrun'

/-- Blank lines at the end of a text open and close nothing and do not show. -/
theorem run_blank {lines : List (List Char)} (h : run style t number lines = .ok t')
    (hlines : ∀ line ∈ lines, trim line = []) : t'.stack = t.stack ∧
      t'.written.dropWhile List.isEmpty = t.written.dropWhile List.isEmpty := by
  induction lines generalizing t number with
  | nil =>
      obtain rfl := Except.ok.inj h
      exact ⟨rfl, rfl⟩
  | cons line rest ih =>
      rw [run] at h
      obtain ⟨t₁, hstep, hrun⟩ := Loading.ok_of_bind h
      obtain ⟨hstack, hshown⟩ := ih hrun fun l hl => hlines l (List.mem_cons_of_mem _ hl)
      have hblank := hlines line List.mem_cons_self
      have hone : t₁.stack = t.stack ∧
          t₁.written.dropWhile List.isEmpty = t.written.dropWhile List.isEmpty := by
        cases takes_of_step hstep with
        | skip => exact ⟨rfl, rfl⟩
        | blank => exact ⟨rfl, rfl⟩
        | remark ne => exact absurd hblank ne
        | comment ne => exact absurd hblank ne
        | code ne => exact absurd hblank ne
      exact ⟨hstack.trans hone.1, hshown.trans hone.2⟩

/-- A layout leaves a text that it has laid out as it is, and that text has the lines of the first
one, each as it is or with a semicolon behind it. -/
theorem format_format {text out : String} (h : format style text = .ok out) :
    format style out = .ok out ∧
      List.Forall₂ Ended (content text.toList) (content out.toList) := by
  refine ⟨?_, content_format h⟩
  obtain ⟨t, hrun, hstack, rfl⟩ := format_iff.1 h
  obtain ⟨more, hmore, hlines, -⟩ := run_written hrun fun _ => Text.not_mem_of_mem_lines
  have hwritten : t.written = more := hmore.trans (List.append_nil _)
  -- all that is written, the blank lines at the end included, gives the same again
  have hstart : Numbers id 1 1 [] :=
    ⟨fun a ha => absurd ha List.not_mem_nil, fun n hn => absurd hn List.not_mem_nil⟩
  obtain ⟨g, all, hall, hagain⟩ := run_again hrun hstart
  obtain rfl : t.written = all := hall.trans (List.append_nil _)
  have hsplit : t.written.reverse = (t.written.dropWhile List.isEmpty).reverse ++
      (t.written.takeWhile List.isEmpty).reverse := by
    rw [← List.reverse_append, List.takeWhile_append_dropWhile]
  rw [hsplit, run_append] at hagain
  obtain ⟨u, hshown, hend⟩ := Loading.ok_of_bind hagain
  obtain ⟨hu, hukept⟩ := run_blank hend fun line hline => by
    have hempty := List.mem_takeWhile_imp (List.mem_reverse.1 hline)
    rw [List.isEmpty_iff.1 hempty]
    rfl
  have hlaid : u.text = t.text := by
    rw [State.text, ← hukept]
    rfl
  have hdone : u.stack = [] := by
    rw [← hu, State.renumber, hstack]
    rfl
  refine format_iff.2 ⟨u, ?_, hdone, hlaid.symm⟩
  rw [State.text, String.toList_ofList, Text.lines_append_newline, run_congr (Text.map_trim_chomp _)]
  by_cases hne : (t.written.dropWhile List.isEmpty).reverse = []
  · rw [hne] at hshown ⊢
    exact hshown
  · have hfree : ∀ l ∈ (t.written.dropWhile List.isEmpty).reverse, '\n' ∉ l := fun l hl =>
      (hlines l (hwritten ▸ (List.dropWhile_suffix _).subset (List.mem_reverse.1 hl))).1
    rw [Text.pieces_join hne hfree]
    exact hshown

/-- Comments, nested delimiters and blank lines that are left out. -/
theorem format_format_nested :
    let text := "\n\ninterface A \x7b\n// one\n\n\n/**\n * two\n*/\na: \x7b\n b: string\n\x7d[]\n \x7d\n\n\n" ++
      "type B = [\nnumber,\n]\n\n"
    let out := "interface A \x7b\n  // one\n\n  /**\n   * two\n   */\n  a: \x7b\n    b: string;\n" ++
      "  \x7d[];\n\x7d\n\ntype B = [\n  number,\n];\n"
    format {} text = .ok out ∧ format {} out = .ok out ∧
      List.Forall₂ Ended (content text.toList) (content out.toList) := by
  intro text out
  have h : format {} text = .ok out := by decide +kernel
  exact ⟨h, format_format h⟩

end Typewright.Layout
