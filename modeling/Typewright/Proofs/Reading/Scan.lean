import Mathlib.Data.List.Induction
import Typewright.Proofs.Text.Content

/-!
# What stands outside of brackets

The text of a type is read from the left, with the brackets that are open, and with strings and
comments passed over; what stands behind `//` is read as well. An operator counts where no bracket is
open: `outer` lists what a text shows there, and `split` cuts a text there. A text that leaves no
bracket, string or comment open shows the same wherever it stands (`Reads.append`), and nothing inside
of brackets (`Balanced.enclosed`).
-/

namespace Typewright.Reading

/-- What a string stands in. -/
inductive Quote where
  | double
  | single
  | back
deriving DecidableEq, Repr

def Quote.char : Quote → Char
  | .double => '"'
  | .single => '\x27'
  | .back => '\x60'

def quote? (c : Char) : Option Quote :=
  if c == '"' then some .double
  else if c == '\x27' then some .single
  else if c == '\x60' then some .back
  else none

/-- What a character is read as. -/
inductive Mode where
  | code
  /-- Behind a slash, which may begin a comment. -/
  | slash
  /-- Behind an equals sign, which may begin an arrow. -/
  | equals
  | string (quote : Quote)
  /-- Behind a backslash in a string. -/
  | escape (quote : Quote)
  | comment
  /-- Behind a star in a comment, which may end it. -/
  | star
deriving DecidableEq, Repr

/-- Where a text is read: the characters that close the open brackets, the innermost first. -/
structure Place where
  closers : List Char := []
  mode : Mode := .code
deriving DecidableEq, Repr

/-- What closes an opening bracket. -/
def closer? (c : Char) : Option Char :=
  if c == '(' then some ')'
  else if c == '[' then some ']'
  else if c == '{' then some '}'
  else if c == '<' then some '>'
  else none

def isCloser (c : Char) : Bool := c == ')' || c == ']' || c == '}' || c == '>'

/-- The brackets that are open behind a character; one that closes must close the innermost. -/
def bracketStep (closers : List Char) (c : Char) : Option (List Char) :=
  match closer? c with
  | some closer => some (closer :: closers)
  | none =>
    if isCloser c then
      match closers with
      | closer :: rest => if closer == c then some rest else none
      | [] => none
    else some closers

/-- A character outside of strings and comments. -/
def codeStep (closers : List Char) (c : Char) : Option Place :=
  match quote? c with
  | some quote => some ⟨closers, .string quote⟩
  | none =>
    if c == '/' then some ⟨closers, .slash⟩
    else if c == '=' then some ⟨closers, .equals⟩
    else (bracketStep closers c).map fun closers => ⟨closers, .code⟩

def step (p : Place) (c : Char) : Option Place :=
  match p.mode with
  | .code => codeStep p.closers c
  | .slash => if c == '*' then some { p with mode := .comment } else codeStep p.closers c
  | .equals => if c == '>' then some { p with mode := .code } else codeStep p.closers c
  | .string quote =>
    some { p with mode := if c == quote.char then .code else if c == '\\' then .escape quote
      else .string quote }
  | .escape quote => some { p with mode := .string quote }
  | .comment => some { p with mode := if c == '*' then .star else .comment }
  | .star =>
    some { p with mode := if c == '/' then .code else if c == '*' then .star else .comment }

def run (p : Place) (cs : List Char) : Option Place := cs.foldlM step p

/-- A text that closes what it opens. -/
def Balanced (cs : List Char) : Prop := run {} cs = some {}

instance (cs : List Char) : Decidable (Balanced cs) :=
  inferInstanceAs (Decidable (run {} cs = some {}))

/-- Outside of brackets, strings and comments. -/
def Place.outer (p : Place) : Bool :=
  p.closers.isEmpty && (p.mode == .code || p.mode == .slash || p.mode == .equals)

/-- What is read outside of brackets, strings and comments. -/
def outer (p : Place) : List Char → List Char
  | [] => []
  | c :: cs =>
    let rest := (step p c).elim [] fun p => outer p cs
    if p.outer then c :: rest else rest

/-- The pieces of a text between the characters outside of brackets that satisfy `sep`. -/
def split (sep : Char → Bool) (p : Place) : List Char → List (List Char)
  | [] => [[]]
  | c :: cs =>
    match step p c with
    | none => [c :: cs]
    | some next =>
      if p.outer && sep c then [] :: split sep next cs
      else
        match split sep next cs with
        | [] => [[c]]
        | piece :: more => (c :: piece) :: more

variable {p p' p'' : Place} {closers closers' B : List Char} {c : Char} {cs ds o o' : List Char}

/-- A text is read from one place to another and shows `o` outside of brackets, strings and
comments. -/
structure Reads (p : Place) (cs o : List Char) (p' : Place) : Prop where
  run : run p cs = some p'
  outer : outer p cs = o

theorem Reads.nil : Reads p [] [] p := ⟨rfl, rfl⟩

theorem reads_char (h : step p c = some p') : Reads p [c] (if p.outer then [c] else []) p' where
  run := by
    rw [Reading.run, List.foldlM_cons, h]
    rfl
  outer := by
    rw [Reading.outer, h]
    rfl

theorem reads_hidden (h : step p c = some p') (hp : p.outer = false) : Reads p [c] [] p' := by
  have hread := reads_char h
  rwa [hp] at hread

theorem Reads.append (h : Reads p cs o p') (h' : Reads p' ds o' p'') :
    Reads p (cs ++ ds) (o ++ o') p'' where
  run := by
    have hrun := h.run
    unfold Reading.run at hrun ⊢
    rw [List.foldlM_append, hrun]
    exact h'.run
  outer := by
    obtain ⟨hrun, houter⟩ := h
    induction cs generalizing p o with
    | nil =>
        obtain rfl := Option.some.inj hrun
        rw [← houter]
        exact h'.outer
    | cons c rest ih =>
        rw [Reading.run, List.foldlM_cons] at hrun
        obtain ⟨next, hstep, hrest⟩ := Option.bind_eq_some_iff.1 hrun
        rw [Reading.outer, hstep] at houter
        rw [List.cons_append, Reading.outer, hstep, ← houter]
        simp only [Option.elim_some, ih hrest rfl]
        split
        · rfl
        · rfl

theorem Reads.cons (hstep : step p c = some p') (h : Reads p' cs o p'') :
    Reads p (c :: cs) ((if p.outer then [c] else []) ++ o) p'' := (reads_char hstep).append h

/-- A text is read character by character. -/
theorem Reads.exists_step (h : Reads p (c :: cs) o p'') : ∃ next o', step p c = some next ∧
    Reads next cs o' p'' ∧ o = (if p.outer then [c] else []) ++ o' := by
  have hrun := h.run
  rw [Reading.run, List.foldlM_cons] at hrun
  obtain ⟨next, hstep, hrest⟩ := Option.bind_eq_some_iff.1 hrun
  have hread : Reads next cs (Reading.outer next cs) p'' := ⟨hrest, rfl⟩
  exact ⟨next, _, hstep, hread, h.outer.symm.trans (hread.cons hstep).outer⟩

/-! ## Inside of more brackets -/

theorem bracketStep_append (h : bracketStep closers c = some closers') (B : List Char) :
    bracketStep (closers ++ B) c = some (closers' ++ B) := by
  unfold bracketStep at h ⊢
  cases hopen : closer? c with
  | some closer =>
      rw [hopen] at h
      obtain rfl := Option.some.inj h
      rfl
  | none =>
      rw [hopen] at h
      dsimp only at h ⊢
      by_cases hc : isCloser c = true
      · rw [if_pos hc] at h ⊢
        cases closers with
        | nil => cases h
        | cons closer rest =>
            rw [List.cons_append]
            dsimp only at h ⊢
            split_ifs at h ⊢
            obtain rfl := Option.some.inj h
            rfl
      · rw [if_neg hc] at h ⊢
        obtain rfl := Option.some.inj h
        rfl

theorem codeStep_append (h : codeStep closers c = some p) (B : List Char) :
    codeStep (closers ++ B) c = some { p with closers := p.closers ++ B } := by
  unfold codeStep at h ⊢
  cases hquote : quote? c with
  | some quote =>
      rw [hquote] at h
      obtain rfl := Option.some.inj h
      rfl
  | none =>
      rw [hquote] at h
      dsimp only at h ⊢
      split_ifs at h ⊢
      · obtain rfl := Option.some.inj h
        rfl
      · obtain rfl := Option.some.inj h
        rfl
      · obtain ⟨closers', hstep, rfl⟩ := Option.map_eq_some_iff.1 h
        rw [bracketStep_append hstep B]
        rfl

/-- More open brackets around a text make no difference. -/
theorem step_append (h : step p c = some p') (B : List Char) :
    step { p with closers := p.closers ++ B } c = some { p' with closers := p'.closers ++ B } := by
  obtain ⟨closers, mode⟩ := p
  cases mode with
  | code => exact codeStep_append h B
  | slash =>
      unfold step at h ⊢
      dsimp only at h ⊢
      split_ifs at h ⊢
      · obtain rfl := Option.some.inj h
        rfl
      · exact codeStep_append h B
  | equals =>
      unfold step at h ⊢
      dsimp only at h ⊢
      split_ifs at h ⊢
      · obtain rfl := Option.some.inj h
        rfl
      · exact codeStep_append h B
  | _ =>
      obtain rfl := Option.some.inj h
      rfl

/-- Inside of more brackets a text is read in the same way, and shows nothing. -/
theorem Reads.inside (h : Reads p cs o p') (hB : B ≠ []) :
    Reads { p with closers := p.closers ++ B } cs [] { p' with closers := p'.closers ++ B } := by
  induction cs generalizing p o with
  | nil =>
      obtain rfl := Option.some.inj h.run
      exact .nil
  | cons c rest ih =>
      obtain ⟨next, o', hstep, hrest, -⟩ := h.exists_step
      have hinside : ({ p with closers := p.closers ++ B } : Place).outer = false := by
        rw [Place.outer, List.isEmpty_eq_false_iff.2 (List.append_ne_nil_of_right_ne_nil _ hB)]
        rfl
      have hread := (ih hrest).cons (step_append hstep B)
      rw [hinside] at hread
      exact hread

/-! ## Texts that close what they open -/

/-- A text closes what it opens and shows `o` outside of brackets, strings and comments. -/
def Shows (cs o : List Char) : Prop := Reads {} cs o {}

theorem Balanced.shows (h : Balanced cs) : Shows cs (outer {} cs) := ⟨h, rfl⟩

theorem Shows.balanced (h : Shows cs o) : Balanced cs := h.run

theorem Balanced.append (h : Balanced cs) (h' : Balanced ds) : Balanced (cs ++ ds) :=
  (h.shows.append h'.shows).run

/-- What opens a bracket is read as code, and what closes it. -/
theorem codeStep_brackets {opener closer : Char} (h : closer? opener = some closer) (B : List Char) :
    codeStep B opener = some ⟨closer :: B, .code⟩ ∧ codeStep (closer :: B) closer = some ⟨B, .code⟩ := by
  unfold closer? at h
  split_ifs at h with hparen hsquare hbrace hangle
  · rw [← Option.some.inj h, beq_iff_eq.1 hparen]
    exact ⟨rfl, rfl⟩
  · rw [← Option.some.inj h, beq_iff_eq.1 hsquare]
    exact ⟨rfl, rfl⟩
  · rw [← Option.some.inj h, beq_iff_eq.1 hbrace]
    exact ⟨rfl, rfl⟩
  · rw [← Option.some.inj h, beq_iff_eq.1 hangle]
    exact ⟨rfl, rfl⟩

/-- A text in brackets shows only that a bracket opens. -/
theorem Balanced.enclosed (h : Balanced cs) {opener closer : Char}
    (hopen : closer? opener = some closer) : Shows (opener :: cs ++ [closer]) [opener] := by
  obtain ⟨hfirst, hlast⟩ := codeStep_brackets hopen []
  have hfront : Reads {} [opener] [opener] ⟨[closer], .code⟩ := reads_char hfirst
  have hinside : Reads ⟨[closer], .code⟩ cs [] ⟨[closer], .code⟩ :=
    h.shows.inside (List.cons_ne_nil _ _)
  have hback : Reads ⟨[closer], .code⟩ [closer] [] {} := reads_char hlast
  exact (hfront.append hinside).append hback

/-- The characters that open, close or begin something. -/
def specials : List Char := "\"'\x60/=([\x7b<)]\x7d>".toList

def isPlain (c : Char) : Bool := !specials.contains c

theorem codeStep_plain (h : isPlain c = true) (B : List Char) : codeStep B c = some ⟨B, .code⟩ := by
  have hne : ∀ d ∈ specials, c ≠ d := by
    rintro d hd rfl
    simp [isPlain, hd] at h
  have hquote : quote? c = none := by
    simp [quote?, hne '"' (by decide), hne '\x27' (by decide), hne '\x60' (by decide)]
  have hopen : closer? c = none := by
    simp [closer?, hne '(' (by decide), hne '[' (by decide), hne '{' (by decide),
      hne '<' (by decide)]
  have hclose : isCloser c = false := by
    simp [isCloser, hne ')' (by decide), hne ']' (by decide), hne '}' (by decide),
      hne '>' (by decide)]
  simp [codeStep, bracketStep, hquote, hopen, hclose, hne '/' (by decide), hne '=' (by decide)]

/-- A plain text is shown as it is. -/
theorem shows_plain (h : ∀ c ∈ cs, isPlain c = true) : Shows cs cs := by
  induction cs with
  | nil => exact .nil
  | cons c rest ih =>
      have hstep : step {} c = some {} := codeStep_plain (h c List.mem_cons_self) []
      exact (ih fun d hd => h d (List.mem_cons_of_mem _ hd)).cons hstep

/-! ## Strings and comments -/

/-- What is no quote and no backslash is passed over in a string. -/
theorem reads_string {quote : Quote} (hquote : c ≠ quote.char) (hslash : c ≠ '\\') :
    Reads ⟨B, .string quote⟩ [c] [] ⟨B, .string quote⟩ := by
  refine reads_hidden ?_ (Bool.and_false _)
  simp only [step, beq_iff_eq, hquote, hslash, if_false]

/-- Whatever follows a backslash is passed over. -/
theorem reads_escape (quote : Quote) (c : Char) :
    Reads ⟨B, .string quote⟩ ['\\', c] [] ⟨B, .string quote⟩ := by
  have hslash : Reads ⟨B, .string quote⟩ ['\\'] [] ⟨B, .escape quote⟩ := by
    refine reads_hidden ?_ (Bool.and_false _)
    cases quote <;> rfl
  have hnext : Reads ⟨B, .escape quote⟩ [c] [] ⟨B, .string quote⟩ :=
    reads_hidden rfl (Bool.and_false _)
  exact hslash.append hnext

/-- Behind the start of a comment nothing is read but its end. -/
theorem reads_comment (h : ¬ ['*', '/'] <:+: cs) :
    Reads ⟨B, .comment⟩ cs [] ⟨B, if cs.getLast? = some '*' then .star else .comment⟩ := by
  induction cs using List.reverseRecOn with
  | nil => exact .nil
  | append_singleton init c ih =>
      have hinit := ih fun hmark => h (hmark.trans (List.prefix_append _ _).isInfix)
      refine @Reads.append _ _ _ _ _ _ [] hinit ?_
      rw [List.getLast?_concat]
      split
      · -- a slash would end the comment
        rename_i hstar
        obtain ⟨front, rfl⟩ := List.getLast?_eq_some_iff.1 hstar
        have hslash : c ≠ '/' := by
          rintro rfl
          exact h ⟨front, [], by simp⟩
        refine reads_hidden ?_ (Bool.and_false _)
        simp only [step, beq_iff_eq, hslash, if_false, Option.some.injEq]
      · refine reads_hidden ?_ (Bool.and_false _)
        simp only [step, beq_iff_eq, Option.some.injEq]

/-- A comment that has its end mark only at its end. -/
theorem shows_comment (h : ¬ ['*', '/'] <:+: cs ++ ['*']) :
    Shows ("/*".toList ++ cs ++ "*/".toList) "/*".toList := by
  have hslash : Reads {} ['/'] ['/'] ⟨[], .slash⟩ := reads_char rfl
  have hstar : Reads ⟨[], .slash⟩ ['*'] ['*'] ⟨[], .comment⟩ := reads_char rfl
  have hbody := reads_comment (B := []) h
  rw [List.getLast?_concat, if_pos rfl] at hbody
  have hend : Reads ⟨[], .star⟩ ['/'] [] {} := reads_hidden rfl rfl
  have hall := ((hslash.append hstar).append hbody).append hend
  simpa [Shows] using hall

end Typewright.Reading
