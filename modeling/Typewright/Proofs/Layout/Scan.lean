import Typewright.Layout
import Typewright.Proofs.Graph.Load
import Typewright.Proofs.Json.Characters
import Typewright.Proofs.Text.Content

/-!
# What the scan of a line makes of a text

A scan reads the pieces of a line one after the other (`Reads.append`). A balanced text leaves open
what is open: a word does, a string whatever it holds, and so the text of every JSON value
(`balanced_text`).
-/

namespace Typewright.Layout

/-- Where a scan stands: what the open delimiters hold, the innermost first, and the quote of an
open string with whether a backslash is in front. -/
structure Place where
  brackets : List Bracket
  quote : Option Char := none
  escaped : Bool := false

def Scan.place (s : Scan) : Place := ⟨s.stack.map (·.bracket), s.quote, s.escaped⟩

/-- Outside of strings. -/
def Place.outside (B : List Bracket) : Place := ⟨B, none, false⟩

/-- Inside a string. -/
def Place.inside (B : List Bracket) (quote : Char) : Place := ⟨B, some quote, false⟩

variable {number : Nat} {head : Bool} {s s' : Scan} {p p' p'' : Place} {B : List Bracket}
  {c quote : Char} {cs ds : List Char}

/-- A scan reads a text from one place to another. -/
def Reads (number : Nat) (head : Bool) (p : Place) (cs : List Char) (p' : Place) : Prop :=
  ∀ s : Scan, s.place = p → ∃ s', cs.foldlM (scanChar number head) s = .ok s' ∧ s'.place = p'

theorem Reads.nil : Reads number head p [] p := fun s hs => ⟨s, rfl, hs⟩

theorem Reads.append (h : Reads number head p cs p') (h' : Reads number head p' ds p'') :
    Reads number head p (cs ++ ds) p'' := by
  intro s hs
  obtain ⟨s', hread, hs'⟩ := h s hs
  obtain ⟨s'', hread', hs''⟩ := h' s' hs'
  exact ⟨s'', by rw [List.foldlM_append, hread]; exact hread', hs''⟩

/-! ## One character -/

/-- A character is read if it is read by the scans that know their level. -/
theorem reads_char (h : ∀ s : Scan, s.place = p → (s.level.isNone && !isCloser c) = false →
    ∃ s', scanChar number head s c = .ok s' ∧ s'.place = p') : Reads number head p [c] p' := by
  intro s hs
  have hone : ∀ s', scanChar number head s c = .ok s' →
      [c].foldlM (scanChar number head) s = .ok s' := fun s' hs' => by
    rw [List.foldlM_cons, hs']
    rfl
  by_cases hlevel : (s.level.isNone && !isCloser c) = true
  · -- the level is noted first, and nothing else depends on it
    obtain ⟨s', hread, hs'⟩ := h { s with level := some (depth s.stack) } hs rfl
    refine ⟨s', hone s' ?_, hs'⟩
    rw [← hread]
    simp only [scanChar, hlevel, if_true, Option.isNone_some, Bool.false_and, Bool.false_eq_true,
      if_false]
  · obtain ⟨s', hread, hs'⟩ := h s hs (Bool.eq_false_iff.2 hlevel)
    exact ⟨s', hone s' hread, hs'⟩

/-- The characters that a scan looks at outside of strings. -/
def isDelimiter (c : Char) : Bool :=
  c == '"' || c == '\x27' || c == '\x60' || c == '{' || c == '(' || c == '[' || isCloser c

theorem reads_plain (h : isDelimiter c = false) :
    Reads number head (.outside B) [c] (.outside B) := by
  refine reads_char fun s hs hlevel => ⟨s, ?_, hs⟩
  have hquote : s.quote = none := congrArg Place.quote hs
  simp only [isDelimiter, Bool.or_eq_false_iff] at h
  simp only [scanChar, hlevel, hquote, Bool.false_eq_true, if_false]
  simp only [h, Bool.or_self, Bool.false_eq_true, if_false]

/-- What an opening delimiter opens. -/
def opened (c : Char) (enum : Bool) : Option Bracket :=
  if c == '{' then some (if enum then .enum else .object)
  else if c == '(' then some .paren
  else if c == '[' then some .square
  else none

theorem ne_enum_of_opened {bracket : Bracket} (h : opened c false = some bracket) :
    bracket ≠ .enum := by
  rintro rfl
  unfold opened at h
  grind

/-- An opening delimiter; at the outermost level it matters whether the line starts an enum. -/
theorem reads_open {bracket : Bracket} (h : opened c (B.isEmpty && head) = some bracket) :
    Reads number head (.outside B) [c] (.outside (bracket :: B)) := by
  refine reads_char fun s hs hlevel => ⟨{ s with stack := ⟨bracket, number⟩ :: s.stack }, ?_, ?_⟩
  · have hquote : s.quote = none := congrArg Place.quote hs
    have hempty : s.stack.isEmpty = B.isEmpty := by
      rw [← show s.stack.map (·.bracket) = B from congrArg Place.brackets hs, List.isEmpty_map]
    rw [← hempty] at h
    have hcases : c = '{' ∨ c = '(' ∨ c = '[' := by
      unfold opened at h
      grind
    simp only [scanChar, hlevel, hquote, Bool.false_eq_true, if_false]
    rcases hcases with rfl | rfl | rfl
    · rw [← Option.some.inj h]
      rfl
    · rw [← Option.some.inj h]
      rfl
    · rw [← Option.some.inj h]
      rfl
  · exact congrArg (fun p : Place => { p with brackets := bracket :: p.brackets }) hs

/-- An opening delimiter in a line that may not start an enum. -/
theorem reads_opener {bracket : Bracket} (h : opened c false = some bracket)
    (hB : B = [] → head = false) : Reads number head (.outside B) [c] (.outside (bracket :: B)) := by
  refine reads_open ?_
  cases B with
  | nil => rwa [hB rfl]
  | cons b rest => exact h

/-- The delimiter that closes the innermost one. -/
theorem reads_closer (bracket : Bracket) :
    Reads number head (.outside (bracket :: B)) [bracket.closer] (.outside B) := by
  refine reads_char fun s hs hlevel => ?_
  have hbrackets : s.stack.map (·.bracket) = bracket :: B := congrArg Place.brackets hs
  have hquote : s.quote = none := congrArg Place.quote hs
  cases hstack : s.stack with
  | nil => simp [hstack] at hbrackets
  | cons frame rest =>
      rw [hstack, List.map_cons, List.cons.injEq] at hbrackets
      refine ⟨{ s with stack := rest }, ?_, ?_⟩
      · have hclose : close number (frame :: rest) bracket.closer = .ok rest := by
          simp [close, hbrackets.1]
        simp only [scanChar, hlevel, hquote, hstack, Bool.false_eq_true, if_false, hclose]
        cases bracket <;> rfl
      · rw [Scan.place, hstack] at hs
        exact congrArg (fun p : Place => { p with brackets := p.brackets.tail }) hs

/-! ## Strings -/

theorem reads_quote (h : c = '"' ∨ c = '\x27' ∨ c = '\x60') :
    Reads number head (.outside B) [c] (.inside B c) := by
  refine reads_char fun s hs hlevel => ⟨{ s with quote := some c }, ?_, ?_⟩
  · have hquote : s.quote = none := congrArg Place.quote hs
    have hc : (c == '"' || c == '\x27' || c == '\x60') = true := by simpa [or_assoc] using h
    simp only [scanChar, hlevel, hquote, hc, if_true, Bool.false_eq_true, if_false]
  · exact congrArg (fun p : Place => { p with quote := some c }) hs

/-- What is no quote and no backslash is passed over in a string. -/
theorem reads_inside (hquote : c ≠ quote) (hslash : c ≠ '\\') :
    Reads number head (.inside B quote) [c] (.inside B quote) := by
  refine reads_char fun s hs hlevel => ⟨s, ?_, hs⟩
  have hopen : s.quote = some quote := congrArg Place.quote hs
  have hescaped : s.escaped = false := congrArg Place.escaped hs
  simp only [scanChar, hlevel, hopen, hescaped, Bool.false_eq_true, if_false, beq_iff_eq, hquote,
    hslash]

/-- Whatever follows a backslash is passed over. -/
theorem reads_behind_slash : Reads number head ⟨B, some quote, true⟩ [c] (.inside B quote) := by
  refine reads_char fun s hs hlevel => ⟨{ s with escaped := false }, ?_, ?_⟩
  · have hopen : s.quote = some quote := congrArg Place.quote hs
    have hescaped : s.escaped = true := congrArg Place.escaped hs
    simp only [scanChar, hlevel, hopen, hescaped, Bool.false_eq_true, if_false, if_true]
  · exact congrArg (fun p : Place => { p with escaped := false }) hs

theorem reads_escaped : Reads number head (.inside B quote) ['\\', c] (.inside B quote) := by
  have hslash : Reads number head (.inside B quote) ['\\'] ⟨B, some quote, true⟩ := by
    refine reads_char fun s hs hlevel => ⟨{ s with escaped := true }, ?_, ?_⟩
    · have hopen : s.quote = some quote := congrArg Place.quote hs
      have hescaped : s.escaped = false := congrArg Place.escaped hs
      simp only [scanChar, hlevel, hopen, hescaped, Bool.false_eq_true, if_false, beq_self_eq_true,
        if_true]
    · exact congrArg (fun p : Place => { p with escaped := true }) hs
  exact hslash.append reads_behind_slash

theorem reads_unquote (hslash : quote ≠ '\\') :
    Reads number head (.inside B quote) [quote] (.outside B) := by
  refine reads_char fun s hs hlevel => ⟨{ s with quote := none }, ?_, ?_⟩
  · have hopen : s.quote = some quote := congrArg Place.quote hs
    have hescaped : s.escaped = false := congrArg Place.escaped hs
    simp only [scanChar, hlevel, hopen, hescaped, Bool.false_eq_true, if_false, beq_iff_eq, hslash,
      if_true]
  · exact congrArg (fun p : Place => { p with quote := none }) hs

/-! ## Balanced texts -/

/-- A text within a line that leaves open what is open. At the outermost level a line that starts
an enum may not open a brace in it. -/
structure Balanced (cs : List Char) : Prop where
  reads : ∀ (number : Nat) (head : Bool) (B : List Bracket), (B = [] → head = false) →
    Reads number head (.outside B) cs (.outside B)
  line : '\n' ∉ cs

theorem Balanced.nil : Balanced [] := ⟨fun _ _ _ _ => .nil, List.not_mem_nil⟩

theorem Balanced.append (h : Balanced cs) (h' : Balanced ds) : Balanced (cs ++ ds) where
  reads number head B hB := (h.reads number head B hB).append (h'.reads number head B hB)
  line hmem := (List.mem_append.1 hmem).elim h.line h'.line

/-- Words open, close and quote nothing, also at the front of an enum. -/
theorem reads_word (h : ∀ c ∈ cs, isDelimiter c = false) :
    Reads number head (.outside B) cs (.outside B) := by
  induction cs with
  | nil => exact .nil
  | cons c rest ih =>
      exact (reads_plain (h c List.mem_cons_self)).append
        (ih fun d hd => h d (List.mem_cons_of_mem _ hd))

/-- A text without delimiters within a line. -/
def Flat (cs : List Char) : Prop := ∀ c ∈ cs, isDelimiter c = false ∧ c ≠ '\n'

instance (cs : List Char) : Decidable (Flat cs) :=
  List.decidableBAll (fun c => isDelimiter c = false ∧ c ≠ '\n') cs

theorem Flat.append (h : Flat cs) (h' : Flat ds) : Flat (cs ++ ds) :=
  fun c hc => (List.mem_append.1 hc).elim (h c) (h' c)

theorem Flat.balanced (h : Flat cs) : Balanced cs :=
  ⟨fun _ _ _ _ => reads_word fun c hc => (h c hc).1, fun hmem => (h _ hmem).2 rfl⟩

/-- A balanced text between two delimiters that match. -/
theorem Balanced.enclosed (h : Balanced cs) {opener : Char} {bracket : Bracket}
    (hopen : opened opener false = some bracket) :
    Balanced (opener :: cs ++ [bracket.closer]) where
  reads number head B hB :=
    ((reads_opener hopen hB).append (h.reads number head (bracket :: B) nofun)).append
      (reads_closer bracket)
  line hmem := by
    rcases List.mem_append.1 hmem with hmem | hmem
    · rcases List.mem_cons.1 hmem with rfl | hmem
      · cases hopen
      · exact h.line hmem
    · have hcloser : '\n' ≠ bracket.closer := by cases bracket <;> decide
      exact hcloser (List.mem_singleton.1 hmem)

/-! ## JSON values -/

open Json (escapeChar)

/-- The written form of a character is passed over in a string. -/
theorem reads_escapeChar (c : Char) :
    Reads number head (.inside B '"') (escapeChar c) (.inside B '"') := by
  rcases Json.escapeChar_cases c with ⟨heq, hquote, hslash, -⟩ | ⟨d, more, heq, -, hmore⟩
  · exact heq ▸ reads_inside hquote hslash
  · have hdigits : ∀ e ∈ "0123456789abcdef".toList, e ≠ '"' ∧ e ≠ '\\' := by decide
    have hall : ∀ cs : List Char, (∀ e ∈ cs, e ∈ "0123456789abcdef".toList) →
        Reads number head (.inside B '"') cs (.inside B '"') := by
      intro cs
      induction cs with
      | nil => exact fun _ => .nil
      | cons e rest ih =>
          intro hcs
          obtain ⟨hquote, hslash⟩ := hdigits e (hcs e List.mem_cons_self)
          exact (reads_inside hquote hslash).append (ih fun e he => hcs e (List.mem_cons_of_mem _ he))
    rw [heq]
    exact reads_escaped.append (hall more hmore)

theorem not_mem_escapeChar (c : Char) : '\n' ∉ escapeChar c := by
  rcases Json.escapeChar_cases c with ⟨heq, -, -, hline⟩ | ⟨d, more, heq, hd, hmore⟩
  · exact heq ▸ fun hmem => hline (List.mem_singleton.1 hmem).symm
  · rw [heq, List.mem_cons, List.mem_cons]
    rintro (hmem | rfl | hmem)
    · cases hmem
    · exact hd rfl
    · exact absurd (hmore _ hmem) (by decide)

/-- A string is balanced whatever it holds. -/
theorem balanced_quote (s : String) : Balanced (Json.quote s).toList := by
  have hbody : ∀ (number : Nat) (head : Bool) (B : List Bracket) (cs : List Char),
      Reads number head (.inside B '"') (cs.flatMap escapeChar) (.inside B '"') := by
    intro number head B cs
    induction cs with
    | nil => exact .nil
    | cons c rest ih => exact (reads_escapeChar c).append ih
  rw [Json.quote, String.toList_ofList]
  refine ⟨fun number head B _ => ?_, fun hmem => ?_⟩
  · exact ((reads_quote (.inl rfl)).append (hbody number head B s.toList)).append
      (reads_unquote (by decide))
  · simp only [List.cons_append, List.mem_cons, List.mem_append, List.mem_flatMap,
      List.not_mem_nil, or_false] at hmem
    rcases hmem with hmem | ⟨c, -, hmem⟩ | hmem
    · cases hmem
    · exact not_mem_escapeChar c hmem
    · cases hmem

theorem balanced_numerals (h : ∀ c ∈ cs, c ∈ Number.numerals) : Balanced cs := by
  have hall : Flat Number.numerals := by decide
  exact Flat.balanced fun c hc => hall c (h c hc)

theorem compositional_balanced : Json.Compositional Balanced where
  nil := .nil
  append := .append
  word cs hcs := by
    simp only [List.mem_cons, List.not_mem_nil, or_false] at hcs
    rcases hcs with rfl | rfl | rfl | rfl | rfl <;> exact Flat.balanced (by decide)
  number n := balanced_numerals (Number.mem_numerals_text n)
  string := balanced_quote
  array h := h.enclosed (show opened '[' false = some .square from rfl)
  object h := h.enclosed (show opened '{' false = some .object from rfl)

theorem balanced_text (v : Json) : Balanced v.text.toList := compositional_balanced.text v

/-! ## Blanks behind a text -/

open Text (isBlank)

/-- A quote is not blank, and nothing is escaped outside of strings. -/
def Scan.Sound (s : Scan) : Prop :=
  (s.quote = none → s.escaped = false) ∧ ∀ q ∈ s.quote, isBlank q = false

theorem Scan.Sound.scanChar (h : s.Sound) (hread : scanChar number head s c = .ok s') :
    s'.Sound := by
  unfold Layout.scanChar at hread
  dsimp only at hread
  generalize hs₁ : (if (s.level.isNone && !isCloser c) = true then
    { s with level := some (depth s.stack) } else s) = s₁ at hread
  have h₁ : s₁.Sound := by
    rw [← hs₁]
    split
    · exact h
    · exact h
  split at hread
  · rename_i quote hquote
    split_ifs at hread with hescaped
    · obtain rfl := Except.ok.inj hread
      exact ⟨fun _ => rfl, h₁.2⟩
    · obtain rfl := Except.ok.inj hread
      refine ⟨fun hnone => ?_, h₁.2⟩
      rw [hquote] at hnone
      cases hnone
    · obtain rfl := Except.ok.inj hread
      exact ⟨fun _ => Bool.eq_false_iff.2 hescaped, nofun⟩
    · obtain rfl := Except.ok.inj hread
      exact h₁
  · split_ifs at hread with hc
    · obtain rfl := Except.ok.inj hread
      refine ⟨nofun, fun q hq => ?_⟩
      obtain rfl := Option.some.inj hq
      simp only [Bool.or_eq_true, beq_iff_eq] at hc
      rcases hc with (rfl | rfl) | rfl <;> rfl
    iterate 4
      · obtain rfl := Except.ok.inj hread
        exact h₁
    · cases hclose : close number s₁.stack c with
      | error e => rw [hclose] at hread; cases hread
      | ok stack =>
          rw [hclose] at hread
          obtain rfl := Except.ok.inj hread
          exact h₁
    · obtain rfl := Except.ok.inj hread
      exact h₁

theorem Scan.Sound.foldlM (h : s.Sound)
    (hread : cs.foldlM (Layout.scanChar number head) s = .ok s') :
    s'.Sound := by
  induction cs generalizing s with
  | nil =>
      obtain rfl := Except.ok.inj hread
      exact h
  | cons c rest ih =>
      rw [List.foldlM_cons] at hread
      obtain ⟨s₁, hfirst, hrest⟩ := Loading.ok_of_bind hread
      exact ih (h.scanChar hfirst) hrest

/-- A scan that is outside of strings behind a blank was there in front of it. -/
theorem place_of_blank (h : s.Sound) (hc : isBlank c = true)
    (hread : Layout.scanChar number head s c = .ok s') (hs' : s'.place = .outside B) :
    s.place = .outside B := by
  have hdelimiter : isDelimiter c = false := by
    refine Bool.eq_false_iff.2 fun hdelimiter => ?_
    simp only [isDelimiter, isCloser, Bool.or_eq_true, beq_iff_eq] at hdelimiter
    rcases hdelimiter with (((((rfl | rfl) | rfl) | rfl) | rfl) | rfl) | (rfl | rfl) | rfl <;>
      cases hc
  have hone : [c].foldlM (Layout.scanChar number head) s = .ok s' := by
    rw [List.foldlM_cons, hread]
    rfl
  have hunique : ∀ {p p' : Place}, s.place = p → Reads number head p [c] p' → s'.place = p' := by
    intro p p' hs hreads
    obtain ⟨t, ht, hp'⟩ := hreads s hs
    obtain rfl := Except.ok.inj (ht.symm.trans hone)
    exact hp'
  cases hquote : s.quote with
  | none =>
      have hs : s.place = .outside (s.stack.map (·.bracket)) := by
        rw [Scan.place, hquote, h.1 hquote]
        rfl
      rw [hs, ← hs', hunique hs (reads_plain hdelimiter)]
  | some quote =>
      -- a string is still open behind a blank
      have hinside : s'.place = .inside (s.stack.map (·.bracket)) quote := by
        cases hescaped : s.escaped with
        | true => exact hunique (by rw [Scan.place, hquote, hescaped]) reads_behind_slash
        | false =>
            refine hunique (by rw [Scan.place, hquote, hescaped]; rfl) (reads_inside ?_ ?_)
            · rintro rfl
              rw [h.2 c hquote] at hc
              cases hc
            · rintro rfl
              cases hc
      cases (congrArg Place.quote (hs'.symm.trans hinside) : none = some quote)

/-- A scan that is outside of strings behind blanks was there in front of them. -/
theorem exists_place_of_blanks (h : s.Sound) (hds : ∀ d ∈ ds, isBlank d = true)
    {line : List Char} (hline : line = cs ++ ds)
    (hread : line.foldlM (scanChar number head) s = .ok s') (hs' : s'.place = .outside B) :
    ∃ t, cs.foldlM (scanChar number head) s = .ok t ∧ t.place = .outside B := by
  rw [hline, List.foldlM_append] at hread
  obtain ⟨t, hcs, hread'⟩ := Loading.ok_of_bind hread
  refine ⟨t, hcs, ?_⟩
  have ht : t.Sound := h.foldlM hcs
  clear hread hcs hline
  induction ds generalizing t with
  | nil =>
      obtain rfl := Except.ok.inj hread'
      exact hs'
  | cons d rest ih =>
      rw [List.foldlM_cons] at hread'
      obtain ⟨t₁, hfirst, hrest⟩ := Loading.ok_of_bind hread'
      have ht₁ := ih (fun e he => hds e (List.mem_cons_of_mem _ he)) t₁ hrest (ht.scanChar hfirst)
      exact place_of_blank ht (hds d List.mem_cons_self) hfirst ht₁

end Typewright.Layout
