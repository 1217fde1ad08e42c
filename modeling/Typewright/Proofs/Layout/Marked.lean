import Typewright.Proofs.Layout.Scan
import Typewright.Proofs.Text.Layout
import Typewright.Proofs.Text.Marked

/-!
# The layout of marked texts

A layout is fed a marked text one character after the other and goes on at each line feed
(`run_of_feed`). `Fresh` and `Within` say where it stands at the start of a line and inside one: with
which delimiters open, and with all lines before laid out as their marks say. A text that is balanced
or passes leads from one such place to another, so a layout is followed piece by piece along the text.
-/

namespace Typewright

open Text (content trim visible isBlank)

/-- What ends in a semicolon. -/
def Ending.terminated : Ending → Bool
  | .member | .alias => true
  | .enumMember | .declaration => false

/-- A line in a style. -/
def MarkedLine.laidOut (style : Style) (l : MarkedLine) : List Char :=
  if style.semi && l.ends.any Ending.terminated then l.text ++ [';'] else l.text

/-- A line that completes something has no semicolon yet. -/
def MarkedLine.Open (l : MarkedLine) : Prop := l.ends ≠ none → l.text.getLast? ≠ some ';'

namespace Layout

/-- Where the layout of a text stands: between lines, with the front of the next line and the lines
that are finished. -/
structure Cursor where
  state : State
  number : Nat
  line : List Char := []
  finished : List MarkedLine := []

variable {style : Style} {before : List (List Char)} {c c' : Cursor} {m m' : Marked}
  {B B' : List Bracket} {a : Bool} {cs : List Char}

/-- One more character. -/
def put (style : Style) (c : Cursor) (x : Char × Option Ending) : Except CompileError Cursor :=
  if x.1 = '\n' then
    (step style c.state c.number (trim c.line)).map fun state =>
      ⟨state, c.number + 1, [], c.finished ++ Marked.shown c.line x.2⟩
  else .ok { c with line := c.line ++ [x.1] }

/-- A marked text. -/
def feed (style : Style) (c : Cursor) (m : Marked) : Except CompileError Cursor :=
  m.foldlM (put style) c

theorem feed_append (m m' : Marked) :
    feed style c (m ++ m') = feed style c m >>= fun c => feed style c m' :=
  List.foldlM_append

theorem feed_plain {s : String} (h : '\n' ∉ s.toList) :
    feed style c (Marked.plain s) = .ok { c with line := c.line ++ s.toList } := by
  unfold Marked.plain
  generalize s.toList = cs at h
  induction cs generalizing c with
  | nil => rw [List.append_nil]; rfl
  | cons d rest ih =>
      have hd : d ≠ '\n' := fun heq => h (heq ▸ List.mem_cons_self)
      have hput : put style c (d, none) = .ok { c with line := c.line ++ [d] } := if_neg hd
      rw [List.map_cons, feed, List.foldlM_cons, hput]
      exact (ih fun hmem => h (List.mem_cons_of_mem _ hmem)).trans (by simp)

theorem feed_newline {e : Option Ending} {s : State}
    (h : step style c.state c.number (trim c.line) = .ok s) :
    feed style c (Marked.newline e) =
      .ok ⟨s, c.number + 1, [], c.finished ++ Marked.shown c.line e⟩ := by
  have hput : put style c ('\n', e) = _ := if_pos rfl
  rw [Marked.newline, feed, List.foldlM_cons, hput, h]
  rfl

/-- Feeding tells the lines of a text. -/
theorem lines_of_feed (e : Option Ending) (h : feed style c m = .ok c') :
    c.finished ++ Marked.linesFrom e c.line m = c'.finished ++ Marked.shown c'.line e := by
  induction m generalizing c with
  | nil =>
      obtain rfl := Except.ok.inj h
      rfl
  | cons x rest ih =>
      obtain ⟨d, mark⟩ := x
      rw [feed, List.foldlM_cons] at h
      obtain ⟨c₁, hput, hrest⟩ := Loading.ok_of_bind h
      rw [← ih hrest, Marked.linesFrom]
      unfold put at hput
      split at hput
      · rename_i hd
        cases hstep : step style c.state c.number (trim c.line) with
        | error e => rw [hstep] at hput; cases hput
        | ok s =>
            rw [hstep] at hput
            obtain rfl := Except.ok.inj hput
            rw [if_pos hd, List.append_assoc]
      · rename_i hd
        obtain rfl := Except.ok.inj hput
        rw [if_neg hd]

/-- A layout runs over the lines of a text as it is fed with the text, up to the last line. -/
theorem run_of_feed (h : feed style c m = .ok c') (hline : '\n' ∉ c.line) :
    run style c.state c.number (Text.pieces (· == '\n') (c.line ++ m.text)) =
      step style c'.state c'.number (trim c'.line) := by
  induction m generalizing c with
  | nil =>
      obtain rfl := Except.ok.inj h
      rw [Marked.text_nil, List.append_nil, Text.pieces_line hline, run]
      cases step style c.state c.number (trim c.line) <;> rfl
  | cons x rest ih =>
      obtain ⟨d, mark⟩ := x
      have htext : Marked.text ((d, mark) :: rest) = d :: Marked.text rest := rfl
      rw [feed, List.foldlM_cons] at h
      obtain ⟨c₁, hput, hrest⟩ := Loading.ok_of_bind h
      unfold put at hput
      rw [htext]
      split at hput
      · rename_i hd
        cases hstep : step style c.state c.number (trim c.line) with
        | error e => rw [hstep] at hput; cases hput
        | ok s =>
            rw [hstep] at hput
            obtain rfl := Except.ok.inj hput
            obtain rfl : d = '\n' := hd
            rw [← ih hrest List.not_mem_nil, Pointer.pieces_append_cons rfl,
              Text.pieces_line hline, List.singleton_append, run, hstep]
            rfl
      · rename_i hd
        obtain rfl := Except.ok.inj hput
        rw [← ih hrest (by simpa [hline] using Ne.symm hd), List.append_assoc]
        rfl

/-! ## Feeding piece by piece -/

/-- Feeding a text leads to a place. -/
def Feeds (style : Style) (c : Cursor) (m : Marked) (P : Cursor → Prop) : Prop :=
  ∃ c', feed style c m = .ok c' ∧ P c'

theorem Feeds.append {P Q : Cursor → Prop} (h : Feeds style c m P)
    (h' : ∀ c, P c → Feeds style c m' Q) : Feeds style c (m ++ m') Q := by
  obtain ⟨c₁, hfeed, hP⟩ := h
  obtain ⟨c₂, hfeed', hQ⟩ := h' c₁ hP
  exact ⟨c₂, by rw [feed_append, hfeed]; exact hfeed', hQ⟩

theorem Feeds.mono {P Q : Cursor → Prop} (h : Feeds style c m P) (hPQ : ∀ c, P c → Q c) :
    Feeds style c m Q :=
  h.imp fun c h => ⟨h.1, hPQ c h.2⟩

theorem Feeds.nil {P : Cursor → Prop} (h : P c) : Feeds style c [] P := ⟨c, rfl, h⟩

/-! ## One line -/

theorem visible_concat (ls : List (List Char)) (line : List Char) :
    visible (line :: ls).reverse = visible ls.reverse ++ visible [line] := by
  rw [List.reverse_cons, Text.visible_append]

/-- An indented line shows without the blanks in front. -/
theorem visible_indented (blanks : List Char) {line line' : List Char} (hended : Ended (trim line) line')
    (hne : trim line ≠ []) (hblanks : ∀ d ∈ blanks, isBlank d = true) (level : Nat) :
    visible [indented style level (blanks ++ line')] = [line'] := by
  have hindent : ∀ d ∈ (if style.useTabs then List.replicate level '\t'
      else List.replicate (level * style.indentWidth) ' '), d = ' ' ∨ d = '\t' := by
    intro d hd
    split at hd
    · exact .inr (List.eq_of_mem_replicate hd)
    · exact .inl (List.eq_of_mem_replicate hd)
  have htrim : trim (indented style level (blanks ++ line')) = line' := by
    rw [indented, Text.trim_append_blank (blank_of_indent hindent),
      Text.trim_append_blank hblanks, hended.trim_eq hne]
  rw [Text.visible_singleton (htrim.symm ▸ hended.ne_nil hne), htrim]

theorem startsWith_slash {d : Char} (more : List Char) (h : d ≠ '/') :
    startsWith "//" (d :: more) = false ∧ startsWith "/*" (d :: more) = false := by
  have hd : ('/' == d) = false := beq_false_of_ne h.symm
  constructor
  · change ('/' == d && _) = false
    rw [hd, Bool.false_and]
  · change ('/' == d && _) = false
    rw [hd, Bool.false_and]

/-- A line outside of comments is scanned. -/
theorem step_code {s : State} {number : Nat} {d : Char} {more : List Char} {scan : Scan}
    (hd : d ≠ '/') (hcomment : s.inComment = false)
    (hscan : scanLine number s.stack (d :: more) = .ok scan) :
    step style s number (d :: more) =
      .ok ({ s with stack := scan.stack, isAlias := lineIsAlias s (d :: more) }.write style
        (scan.level.getD (depth scan.stack))
        (codeText style scan.stack (lineIsAlias s (d :: more)) (d :: more))) :=
  (Takes.code (List.cons_ne_nil d more) hcomment (startsWith_slash more hd).1
    (startsWith_slash more hd).2 hscan).step

/-- A blank line shows nothing and changes nothing else. -/
theorem exists_step_blank (style : Style) (s : State) (number : Nat) :
    ∃ s', step style s number [] = .ok s' ∧ s'.stack = s.stack ∧ s'.inComment = s.inComment ∧
      s'.isAlias = s.isAlias ∧ visible s'.written.reverse = visible s.written.reverse := by
  by_cases hshown : ∀ previous ∈ s.written.head?, previous = []
  · exact ⟨s, (Takes.skip rfl hshown).step, rfl, rfl, rfl, rfl⟩
  · obtain ⟨previous, hprevious, hne⟩ : ∃ previous ∈ s.written.head?, previous ≠ [] := by
      simpa using hshown
    refine ⟨_, (Takes.blank rfl hprevious hne).step, rfl, rfl, rfl, ?_⟩
    rw [visible_concat, Text.visible_blank Text.trim_nil, List.append_nil]

/-! ## Places in a text -/

/-- All lines that are finished are laid out as their marks say, behind the lines `before`. -/
structure Kept (style : Style) (before : List (List Char)) (c : Cursor) : Prop where
  written : visible c.state.written.reverse = before ++ c.finished.map (·.laidOut style)
  lines : ∀ l ∈ c.finished, l.Open

/-- A layout at the start of a line, inside a comment or not, with what the open delimiters hold and
whether the statement is an alias. -/
structure Fresh (style : Style) (before : List (List Char)) (comment : Bool) (c : Cursor)
    (B : List Bracket) (a : Bool) : Prop where
  line : c.line = []
  comment : c.state.inComment = comment
  brackets : c.state.stack.map (·.bracket) = B
  isAlias : c.state.isAlias = a
  kept : Kept style before c

/-- What the front of a line decides for the whole of it: it starts no comment, and belongs to an
alias or not. -/
structure Front (s : State) (front : List Char) (a : Bool) : Prop where
  head : ∃ d more, front = d :: more ∧ isBlank d = false ∧ d ≠ '/'
  last : ∃ init d, front = init ++ [d] ∧ isBlank d = false
  isAlias : ∀ more, lineIsAlias s (front ++ more) = a

/-- Nothing in a line opens a brace at the outermost level that would hold an enum: the line is inside
of one, or its front starts none. -/
def Guarded (B : List Bracket) (front : List Char) : Prop :=
  .enum ∈ B ∨ ∀ more, isEnumHead (front ++ more) = false

/-- A layout inside a line. -/
structure Within (style : Style) (before : List (List Char)) (c : Cursor) (B : List Bracket)
    (a : Bool) : Prop where
  comment : c.state.inComment = false
  kept : Kept style before c
  front : ∃ front, front <+: c.line ∧ Front c.state front a ∧ Guarded B front
  reads : ∀ head, .enum ∈ B ∨ head = false →
    Reads c.number head (.outside (c.state.stack.map (·.bracket))) c.line (.outside B)

/-- A text in a line. -/
theorem Within.feeds_plain (h : Within style before c B a) {s : String} (hline : '\n' ∉ s.toList)
    (henum : .enum ∈ B' ↔ .enum ∈ B) (hreads : ∀ number head, (B = [] → head = false) →
      Reads number head (.outside B) s.toList (.outside B')) :
    Feeds style c (Marked.plain s) fun c' =>
      c'.line = c.line ++ s.toList ∧ Within style before c' B' a := by
  refine ⟨_, feed_plain hline, rfl, h.comment, ⟨h.kept.written, h.kept.lines⟩, ?_,
    fun head hhead => ?_⟩
  · obtain ⟨front, ⟨rest, hrest⟩, hfront, hguarded⟩ := h.front
    exact ⟨front, ⟨rest ++ s.toList, by rw [← hrest, List.append_assoc]⟩, hfront,
      hguarded.imp_left henum.2⟩
  · rw [henum] at hhead
    refine (h.reads head hhead).append (hreads _ head fun hB => hhead.resolve_left fun hmem => ?_)
    exact List.not_mem_nil (hB ▸ hmem)

/-- The front of a line. -/
theorem Fresh.feeds_plain (h : Fresh style before false c B a) {s : String} {b : Bool}
    (hline : '\n' ∉ s.toList) {front : List Char} (hfront : front <+: s.toList)
    (hopens : Front c.state front b) (hguarded : Guarded B' front)
    (hreads : ∀ number head, .enum ∈ B' ∨ head = false →
      Reads number head (.outside B) s.toList (.outside B')) :
    Feeds style c (Marked.plain s) fun c' => c'.line = s.toList ∧ Within style before c' B' b := by
  refine ⟨_, feed_plain hline, by rw [h.line]; rfl, h.comment, ⟨h.kept.written, h.kept.lines⟩,
    ⟨front, by rw [h.line]; exact hfront, hopens, hguarded⟩, fun head hhead => ?_⟩
  rw [h.line, h.brackets]
  exact hreads _ head hhead

/-! ## Ends of lines -/

/-- The characters that no semicolon follows. -/
def endsOpen (d : Char) : Bool := "\x7b([,;".toList.contains d

/-- The last character of a text is neither blank nor one that no semicolon follows. -/
def Tidy (cs : List Char) : Prop := ∀ d ∈ cs.getLast?, isBlank d = false ∧ endsOpen d = false

/-- A semicolon may follow a line. -/
def Closed (line : List Char) : Prop := ∀ d ∈ (trim line).getLast?, endsOpen d = false

theorem closed_concat {d : Char} (hblank : isBlank d = false) (hopen : endsOpen d = false)
    (line : List Char) : Closed (line ++ [d]) := by
  intro e he
  rw [Text.trim_concat hblank] at he
  obtain rfl := Option.some.inj ((List.getLast?_concat ..).symm.trans he)
  exact hopen

theorem Closed.append {line : List Char} (h : Closed line) (hcs : Tidy cs) :
    Closed (line ++ cs) := by
  rcases List.eq_nil_or_concat cs with rfl | ⟨init, d, rfl⟩
  · rwa [List.append_nil]
  · obtain ⟨hblank, hopen⟩ := hcs d (by simp)
    rw [List.concat_eq_append, ← List.append_assoc]
    exact closed_concat hblank hopen _

theorem Closed.space {line : List Char} (h : Closed line) : Closed (line ++ [' ']) := by
  rw [Closed, Text.trim_append_of_blank fun d hd => by rw [List.mem_singleton.1 hd]; rfl]
  exact h

theorem Closed.not_semicolon {line : List Char} (h : Closed line) :
    (trim line).getLast? ≠ some ';' := fun hlast => by
  cases h ';' hlast

/-- Whether a closed line ends in a semicolon. -/
def wantsSemicolon : List Bracket → Bool → Bool
  | bracket :: _, _ => bracket == .object
  | [], a => a

theorem needsSemicolon_of_closed {line : List Char} (h : Closed line) {stack : List Frame}
    (hstack : stack.map (·.bracket) = B) :
    needsSemicolon stack a (trim line) = wantsSemicolon B a := by
  have hlast : ((trim line).getLast?.any endsOpen) = false := by
    cases hd : (trim line).getLast? with
    | none => rfl
    | some d => exact h d hd
  have hfirst : needsSemicolon stack a (trim line) = if (trim line).getLast?.any endsOpen then false
      else wantsSemicolon (stack.map (·.bracket)) a := by
    cases stack <;> rfl
  rw [hfirst, hlast, hstack]
  rfl

theorem needsSemicolon_of_open {line : List Char} {d : Char} (hlast : (trim line).getLast? = some d)
    (hopen : endsOpen d = true) (stack : List Frame) :
    needsSemicolon stack a (trim line) = false := by
  unfold needsSemicolon
  rw [hlast]
  exact if_pos hopen

/-- Nothing is taken off a line in front. -/
theorem Front.exists_trim {s : State} {front line : List Char} (h : Front s front a)
    (hfront : front <+: line) : ∃ blanks, line = trim line ++ blanks ∧
      (∀ d ∈ blanks, isBlank d = true) ∧ front <+: trim line := by
  obtain ⟨d, more, rfl, hd, -⟩ := h.head
  obtain ⟨rest, rfl⟩ := hfront
  obtain ⟨blanks, hline, hblanks⟩ := @Text.exists_trim_append (d :: more ++ rest)
    fun e he => Option.some.inj he ▸ hd
  refine ⟨blanks, hline, hblanks, ?_⟩
  obtain ⟨init, last, hlast, hblank⟩ := h.last
  rcases List.append_eq_append_iff.1 hline with ⟨more', htrim, -⟩ | ⟨cut, hcut, hblanks'⟩
  · exact ⟨more', htrim.symm⟩
  · rcases List.eq_nil_or_concat cut with rfl | ⟨cut', e, rfl⟩
    · exact ⟨[], (List.append_nil _).trans (hcut.trans (List.append_nil _))⟩
    · -- the last character of the front is not blank
      have he : e = last := by
        have hends := hcut.symm.trans hlast
        rw [List.concat_eq_append, ← List.append_assoc] at hends
        exact (List.append_inj' hends rfl).2 |> List.singleton_inj.1
      have hmem : e ∈ blanks := by rw [hblanks']; simp
      rw [← he, hblanks e hmem] at hblank
      cases hblank

/-- A line that is read can be finished with any mark that fits. -/
theorem exists_step_of_reads {front : List Char} (hcomment : c.state.inComment = false)
    (hkept : Kept style before c) (hfront : front <+: c.line) (hopens : Front c.state front a)
    (hreads : Reads c.number (isEnumHead (trim c.line))
      (.outside (c.state.stack.map (·.bracket))) c.line (.outside B)) {e : Option Ending}
    (hends : ∀ stack : List Frame, stack.map (·.bracket) = B →
      needsSemicolon stack a (trim c.line) = e.any Ending.terminated)
    (hopen : e ≠ none → (trim c.line).getLast? ≠ some ';') :
    ∃ s, step style c.state c.number (trim c.line) = .ok s ∧
      Fresh style before false ⟨s, c.number + 1, [], c.finished ++ Marked.shown c.line e⟩ B a := by
  obtain ⟨blanks, hline, hblanks, more, htrim⟩ := hopens.exists_trim hfront
  obtain ⟨d, rest, hd, -, hslash⟩ := hopens.head
  have hisAlias : lineIsAlias c.state (trim c.line) = a := htrim ▸ hopens.isAlias more
  have hcons : trim c.line = d :: (rest ++ more) := by rw [← htrim, hd]; rfl
  -- the scan of the line that is trimmed
  obtain ⟨scan, hscan, hplace⟩ : ∃ scan, scanLine c.number c.state.stack (trim c.line) = .ok scan ∧
      scan.place = .outside B := by
    obtain ⟨scan', hread, hplace'⟩ := hreads ⟨c.state.stack, none, none, false⟩ rfl
    obtain ⟨scan, hread, hplace⟩ := exists_place_of_blanks
      ⟨fun _ => rfl, fun q hq => by cases hq⟩ hblanks hline hread hplace'
    have hquote : scan.quote = none := congrArg Place.quote hplace
    refine ⟨scan, ?_, hplace⟩
    unfold scanLine
    rw [hread]
    simp only [bind, Except.bind, hquote]
    rfl
  have hbrackets : scan.stack.map (·.bracket) = B := congrArg Place.brackets hplace
  have hstep := @step_code style c.state c.number d _ scan hslash hcomment (hcons ▸ hscan)
  rw [← hcons, hisAlias, codeText, hends _ hbrackets] at hstep
  have hne : trim c.line ≠ [] := hcons ▸ List.cons_ne_nil _ _
  have hshown := Marked.shown_of_ne_nil hne e
  refine ⟨_, hstep, rfl, hcomment, hbrackets, rfl, ?_, fun l hl => ?_⟩
  · rw [hshown, List.map_append, ← List.append_assoc, ← hkept.written]
    exact (visible_concat _ _).trans
      (congrArg _ (visible_indented [] (.ite (style.semi && e.any Ending.terminated))
        hne nofun _))
  · rcases List.mem_append.1 hl with hl | hl
    · exact hkept.lines l hl
    · rw [hshown] at hl
      obtain rfl := List.mem_singleton.1 hl
      exact hopen

theorem Within.exists_step (h : Within style before c B a) {e : Option Ending}
    (hends : ∀ stack : List Frame, stack.map (·.bracket) = B →
      needsSemicolon stack a (trim c.line) = e.any Ending.terminated)
    (hopen : e ≠ none → (trim c.line).getLast? ≠ some ';') :
    ∃ s, step style c.state c.number (trim c.line) = .ok s ∧
      Fresh style before false ⟨s, c.number + 1, [], c.finished ++ Marked.shown c.line e⟩ B a := by
  obtain ⟨front, hfront, hopens, hguarded⟩ := h.front
  refine exists_step_of_reads h.comment h.kept hfront hopens (h.reads _ ?_) hends hopen
  obtain ⟨-, -, -, more, htrim⟩ := hopens.exists_trim hfront
  exact hguarded.imp_right fun hplain => htrim ▸ hplain more

theorem Within.feeds_newline (h : Within style before c B a) {e : Option Ending}
    (hends : ∀ stack : List Frame, stack.map (·.bracket) = B →
      needsSemicolon stack a (trim c.line) = e.any Ending.terminated)
    (hopen : e ≠ none → (trim c.line).getLast? ≠ some ';') :
    Feeds style c (Marked.newline e) fun c' => Fresh style before false c' B a := by
  obtain ⟨s, hstep, hfresh⟩ := h.exists_step hends hopen
  exact ⟨_, feed_newline hstep, hfresh⟩

/-- A blank line, whatever its mark. -/
theorem Fresh.feeds_blank (h : Fresh style before false c B a) (e : Option Ending) :
    Feeds style c (Marked.newline e) fun c' => Fresh style before false c' B a := by
  obtain ⟨s, hstep, hstack, hcomment, hisAlias, hshown⟩ :=
    exists_step_blank style c.state c.number
  have htrim : trim c.line = [] := by rw [h.line]; rfl
  have hnone : c.finished ++ Marked.shown c.line e = c.finished := by
    rw [Marked.shown, htrim]
    exact List.append_nil _
  refine ⟨_, feed_newline (htrim ▸ hstep), rfl, hcomment.trans h.comment, ?_,
    hisAlias.trans h.isAlias, ?_, ?_⟩
  · rw [hstack]
    exact h.brackets
  · rw [hnone]
    exact hshown.trans h.kept.written
  · rw [hnone]
    exact h.kept.lines

/-- A line of a comment. -/
theorem Fresh.feeds_comment {comment comment' : Bool} (h : Fresh style before comment c B a)
    {line : List Char} (hline : '\n' ∉ line) (hne : trim line ≠ [])
    (hopen : comment = true ∨
      startsWith "//" (trim line) = false ∧ startsWith "/*" (trim line) = true)
    (hend : (!Text.contains "*/".toList (trim line)) = comment') :
    Feeds style c (Marked.plain (String.ofList line) ++ Marked.newline none) fun c' =>
      Fresh style before comment' c' B a := by
  have hplain : Feeds style c (Marked.plain (String.ofList line)) fun c' =>
      c' = { c with line := line } := by
    refine ⟨_, feed_plain (by rwa [String.toList_ofList]), ?_⟩
    rw [h.line, String.toList_ofList, List.nil_append]
  refine hplain.append ?_
  rintro _ rfl
  have hstep := (@Takes.comment style c.state c.number _ hne (h.comment ▸ hopen)).step
  have hshown := Marked.shown_of_ne_nil hne none
  refine ⟨_, feed_newline hstep, rfl, hend, h.brackets, h.isAlias, ?_, fun l hl => ?_⟩
  · have hlaidOut : MarkedLine.laidOut style ⟨trim line, none⟩ = trim line := by
      simp [MarkedLine.laidOut]
    rw [hshown, List.map_append, ← List.append_assoc, ← h.kept.written, List.map_singleton,
      hlaidOut]
    refine (visible_concat _ _).trans (congrArg _ ?_)
    unfold commentText
    split
    · exact visible_indented [' '] (.inl rfl) hne (fun d hd => by rw [List.mem_singleton.1 hd]; rfl) _
    · exact visible_indented [] (.inl rfl) hne nofun _
  · rcases List.mem_append.1 hl with hl | hl
    · exact h.kept.lines l hl
    · rw [hshown] at hl
      obtain rfl := List.mem_singleton.1 hl
      exact absurd rfl

end Layout

end Typewright
