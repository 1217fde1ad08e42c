import Mathlib.Data.List.Basic
import Typewright.Identifier.Basic

/-!
# Clean identifiers

A clean identifier is one that `sanitize` leaves as it is: it starts with no lower-case letter, and
none follows an underscore, a digit or a dollar sign. Every identifier that `sanitize` makes is
clean, and so is one with a counter behind it. So the names that `fresh` gives out are written as
they are, and no two of them are equal.
-/

namespace Typewright.Identifier

/-! ## Characters -/

/-- A character after which a letter is raised. -/
def raises (c : Char) : Bool := c == '_' || isDigit c || c == '$'

theorem exists_of_isLower {c : Char} (h : isLower c = true) : ∃ n < 26, c = .ofNat (97 + n) := by
  simp only [isLower, Bool.and_eq_true, decide_eq_true_eq, Char.le_def, UInt32.le_iff_toNat_le] at h
  have hlo : 97 ≤ c.toNat := h.1
  have hhi : c.toNat ≤ 122 := h.2
  refine ⟨c.toNat - 97, by omega, ?_⟩
  rw [show 97 + (c.toNat - 97) = c.toNat by omega, Char.ofNat_toNat]

theorem toNat_lt_of_isPart {c : Char} (h : isPart c = true) : c.toNat < 128 := by
  simp only [isPart, isStart, isLetter, isLower, isUpper, isDigit, Bool.or_eq_true,
    Bool.and_eq_true, decide_eq_true_eq, beq_iff_eq, Char.le_def, UInt32.le_iff_toNat_le] at h
  rcases h with (((h | h) | rfl) | rfl) | h
  · exact Nat.lt_of_le_of_lt (show c.toNat ≤ 122 from h.2) (by decide)
  · exact Nat.lt_of_le_of_lt (show c.toNat ≤ 90 from h.2) (by decide)
  · decide
  · decide
  · exact Nat.lt_of_le_of_lt (show c.toNat ≤ 57 from h.2) (by decide)

theorem raise_letters : ∀ n < 26, isUpper (raise (.ofNat (97 + n))) = true ∧
    isLower (raise (.ofNat (97 + n))) = false ∧ raises (raise (.ofNat (97 + n))) = false := by
  decide

theorem raise_of_not_lower {c : Char} (h : isLower c = false) : raise c = c := by
  simp [raise, h]

theorem isLower_raise (c : Char) : isLower (raise c) = false := by
  cases h : isLower c with
  | true =>
      obtain ⟨n, hn, rfl⟩ := exists_of_isLower h
      exact (raise_letters n hn).2.1
  | false => rw [raise_of_not_lower h, h]

/-- A character that raises what follows is not raised itself. -/
theorem raise_eq_of_raises {c : Char} (h : raises (raise c) = true) : raise c = c := by
  cases hl : isLower c with
  | true =>
      obtain ⟨n, hn, rfl⟩ := exists_of_isLower hl
      rw [(raise_letters n hn).2.2] at h
      cases h
  | false => exact raise_of_not_lower hl

theorem isStart_raise {c : Char} (h : isStart c = true) : isStart (raise c) = true := by
  cases hl : isLower c with
  | true =>
      obtain ⟨n, hn, rfl⟩ := exists_of_isLower hl
      simp [isStart, isLetter, (raise_letters n hn).1]
  | false => rwa [raise_of_not_lower hl]

theorem isPart_raise {c : Char} (h : isPart c = true) : isPart (raise c) = true := by
  cases hl : isLower c with
  | true =>
      obtain ⟨n, hn, rfl⟩ := exists_of_isLower hl
      simp [isPart, isStart, isLetter, (raise_letters n hn).1]
  | false => rwa [raise_of_not_lower hl]

theorem foldLetter_parts : ∀ n < 128, isPart (.ofNat n) = true →
    foldLetter (.ofNat n) = [.ofNat n] := by
  decide +kernel

theorem foldLetter_of_isPart {c : Char} (h : isPart c = true) : foldLetter c = [c] := by
  have hc := Char.ofNat_toNat c
  rw [← hc] at h ⊢
  exact foldLetter_parts _ (by simpa using toNat_lt_of_isPart (hc ▸ h)) h

theorem isPart_of_isStart {c : Char} (h : isStart c = true) : isPart c = true := by simp [isPart, h]

theorem ne_space_of_isPart {c : Char} (h : isPart c = true) : (c == ' ') = false := by
  rw [beq_eq_false_iff_ne]
  rintro rfl
  revert h
  decide

/-! ## Clean texts -/

/-- No lower-case letter follows a character with the property `p`; `before` is the character in
front. -/
def Follows (p : Char → Bool) (before : Char) : List Char → Prop
  | [] => True
  | c :: rest => (p before = true → isLower c = false) ∧ Follows p c rest

/-- An identifier with nothing to raise, also at its start. -/
structure Clean (cs : List Char) : Prop where
  bare : isBare cs = true
  follows : Follows raises '_' cs

theorem isPart_of_isBare {cs : List Char} (h : isBare cs = true) : ∀ c ∈ cs, isPart c = true := by
  cases cs with
  | nil => cases h
  | cons c rest =>
      simp only [isBare, Bool.and_eq_true, List.all_eq_true] at h
      intro d hd
      rcases List.mem_cons.1 hd with rfl | hd
      · exact isPart_of_isStart h.1
      · exact h.2 d hd

/-- Digits may stand behind a clean identifier. -/
theorem Follows.append {before : Char} {cs ds : List Char} (h : Follows raises before cs)
    (hd : ∀ d ∈ ds, isDigit d = true) : Follows raises before (cs ++ ds) := by
  have lower_of_digit : ∀ d, isDigit d = true → isLower d = false := by
    intro d hd
    cases hl : isLower d with
    | false => rfl
    | true =>
        obtain ⟨n, hn, rfl⟩ := exists_of_isLower hl
        have : ∀ n < 26, isDigit (.ofNat (97 + n)) = false := by decide
        rw [this n hn] at hd
        cases hd
  induction cs generalizing before with
  | cons c rest ih => exact ⟨h.1, ih h.2⟩
  | nil =>
      clear h
      induction ds generalizing before with
      | nil => trivial
      | cons d rest ih =>
          exact ⟨fun _ => lower_of_digit d (hd d List.mem_cons_self),
            ih fun e he => hd e (List.mem_cons_of_mem _ he)⟩

theorem Clean.append {cs ds : List Char} (h : Clean cs) (hd : ∀ d ∈ ds, isDigit d = true) :
    Clean (cs ++ ds) where
  bare := by
    obtain ⟨hbare, -⟩ := h
    cases cs with
    | nil => cases hbare
    | cons c rest =>
        simp only [isBare, List.cons_append, Bool.and_eq_true, List.all_eq_true] at hbare ⊢
        refine ⟨hbare.1, fun d hmem => ?_⟩
        rcases List.mem_append.1 hmem with hmem | hmem
        · exact hbare.2 d hmem
        · simp [isPart, hd d hmem]
  follows := h.follows.append hd

/-! ## Clean identifiers stay as they are -/

theorem blankInvalid_eq {cs : List Char} (h : ∀ c ∈ cs, isPart c = true) : blankInvalid cs = cs := by
  conv_rhs => rw [← List.map_id cs]
  exact List.map_congr_left fun c hc => by simp [h c hc]

theorem joinSnake_eq {before : Char} {cs : List Char} (h : Follows raises before cs) :
    joinSnake cs = cs := by
  fun_induction joinSnake cs generalizing before with
  | case1 => rfl
  | case2 c rest hl ih =>
      have := h.2.1 (by decide)
      rw [hl] at this
      cases this
  | case3 c rest _ ih => rw [ih h.2]
  | case4 c rest _ ih => rw [ih h.2]

theorem raiseAfterDigit_eq {before before' : Char} {cs : List Char}
    (h : Follows raises before cs) (hb : raises before' = true → before' = before) :
    raiseAfterDigit before' cs = cs := by
  induction cs generalizing before before' with
  | nil => rfl
  | cons c rest ih =>
      rw [raiseAfterDigit, ih h.2 fun _ => rfl]
      congr 1
      split
      · rename_i hd
        have hr : raises before' = true := by
          simp only [raises, Bool.or_eq_true] at hd ⊢
          exact hd.elim (fun h => .inl (.inr h)) .inr
        exact raise_of_not_lower (h.1 (hb hr ▸ hr))
      · rfl

theorem joinSpaced_eq {cs : List Char} (h : ∀ c ∈ cs, isPart c = true) : joinSpaced false cs = cs := by
  induction cs with
  | nil => rfl
  | cons c rest ih =>
      rw [joinSpaced, ne_space_of_isPart (h c List.mem_cons_self),
        ih fun d hd => h d (List.mem_cons_of_mem _ hd)]
      rfl

/-- A clean identifier needs no change. -/
theorem sanitizeChars_of_clean {cs : List Char} (h : Clean cs) : sanitizeChars cs = cs := by
  have hall := isPart_of_isBare h.bare
  have hfold : cs.flatMap foldLetter = cs := by
    conv_rhs => rw [← List.flatMap_singleton' cs]
    exact List.flatMap_congr fun c hc => foldLetter_of_isPart (hall c hc)
  obtain ⟨hbare, hf⟩ := h
  cases cs with
  | nil => cases hbare
  | cons c rest =>
      have hl : isLower c = false := hf.1 (by decide)
      have hs : isStart c = true := (Bool.and_eq_true_iff.1 hbare).1
      have hstart : trimStart (c :: rest) = c :: rest := by simp [trimStart, hs]
      have hlead : raiseLeading (c :: rest) = c :: rest := by
        unfold raiseLeading
        split
        · rename_i d ds heq
          obtain ⟨rfl, rfl⟩ := List.cons.inj heq
          rw [raise_of_not_lower (hf.2.1 (by decide))]
        · rfl
      have hdigit : raiseAfterDigit ' ' (c :: rest) = c :: rest :=
        raiseAfterDigit_eq hf fun hr => by cases hr
      simp only [sanitizeChars, hfold, hstart, blankInvalid_eq hall, hlead, joinSnake_eq hf,
        hdigit, joinSpaced_eq hall, raiseFirst,
        raise_of_not_lower hl]

theorem sanitize_of_clean {s : String} (h : Clean s.toList) : sanitize s = s := by
  rw [sanitize, sanitizeChars_of_clean h, String.ofList_toList]

/-! ## The passes clean a text -/

/-- The first character that is no space may start an identifier. -/
def Starts : List Char → Prop
  | [] => True
  | c :: rest => (c = ' ' ∧ Starts rest) ∨ isStart c = true

theorem starts_trimStart (cs : List Char) : Starts (trimStart cs) := by
  cases cs with
  | nil => trivial
  | cons c rest =>
      simp only [trimStart]
      split
      · exact .inr ‹_›
      · refine .inl ⟨rfl, ?_⟩
        cases h : rest.dropWhile (!isStart ·) with
        | nil => trivial
        | cons d ds =>
            have hd := List.head_dropWhile_not (!isStart ·) (l := rest) (by simp [h])
            simp only [h, List.head_cons, Bool.not_eq_false'] at hd
            exact .inr hd

theorem Starts.blankInvalid {cs : List Char} (h : Starts cs) : Starts (blankInvalid cs) := by
  induction cs with
  | nil => trivial
  | cons c rest ih =>
      rcases h with ⟨rfl, h⟩ | h
      · exact .inl ⟨by decide, ih h⟩
      · exact .inr (by simp [isPart_of_isStart h, h])

theorem Starts.raiseLeading {cs : List Char} (h : Starts cs) : Starts (raiseLeading cs) := by
  unfold Identifier.raiseLeading
  split
  · exact .inr (by decide)
  · exact h

theorem Starts.joinSnake {cs : List Char} (h : Starts cs) : Starts (joinSnake cs) := by
  fun_induction Identifier.joinSnake cs with
  | case1 => trivial
  | case2 c rest hl ih => exact .inr (isStart_raise (by simp [isStart, isLetter, hl]))
  | case3 => exact .inr (by decide)
  | case4 c rest _ ih =>
      rcases h with ⟨rfl, h⟩ | h
      · exact .inl ⟨rfl, ih h⟩
      · exact .inr h

theorem Starts.raiseAfterDigit {cs : List Char} (h : Starts cs) {before : Char}
    (hb : (isDigit before || before == '$') = false) : Starts (raiseAfterDigit before cs) := by
  induction cs generalizing before with
  | nil => trivial
  | cons c rest ih =>
      rw [Identifier.raiseAfterDigit, hb]
      rcases h with ⟨rfl, h⟩ | h
      · exact .inl ⟨rfl, ih h (by decide)⟩
      · exact .inr h

theorem Starts.joinSpaced {cs : List Char} (h : Starts cs) {spaced : Bool} {c : Char}
    {rest : List Char} (heq : joinSpaced spaced cs = c :: rest) : isStart c = true := by
  induction cs generalizing spaced with
  | nil => cases heq
  | cons d ds ih =>
      rw [Identifier.joinSpaced] at heq
      split at heq
      · rename_i hd
        rw [beq_iff_eq] at hd
        rcases h with ⟨-, h⟩ | h
        · exact ih h heq
        · subst hd
          exact absurd h (by decide)
      · rename_i hd
        obtain ⟨rfl, -⟩ := List.cons.inj heq
        have hd : isStart d = true := h.resolve_left fun h => hd (by simp [h.1])
        split
        · exact isStart_raise hd
        · exact hd

theorem follows_joinSnake {before : Char} {cs : List Char}
    (h : before = '_' → ∀ c rest, cs = c :: rest → isLower c = false) :
    Follows (· == '_') before (joinSnake cs) := by
  fun_induction joinSnake cs generalizing before with
  | case1 => trivial
  | case2 c rest hl ih =>
      refine ⟨fun _ => isLower_raise c, ih fun heq => ?_⟩
      obtain ⟨n, hn, rfl⟩ := exists_of_isLower hl
      have := (raise_letters n hn).2.2
      rw [heq] at this
      cases this
  | case3 c rest hl ih =>
      refine ⟨fun _ => by decide, ih fun _ d ds heq => ?_⟩
      obtain ⟨rfl, -⟩ := List.cons.inj heq
      simpa using hl
  | case4 c rest hne ih =>
      refine ⟨fun hb => h (by simpa using hb) c rest rfl, ih fun heq d ds hr => ?_⟩
      exact (hne d ds heq hr).elim

theorem Follows.raiseAfterDigit {before before' : Char} {cs : List Char}
    (h : Follows (· == '_') before cs) (hb : raises before' = true → before' = before) :
    Follows raises before' (raiseAfterDigit before cs) := by
  induction cs generalizing before before' with
  | nil => trivial
  | cons c rest ih =>
      refine ⟨fun hr => ?_, ih h.2 fun hr => ?_⟩
      · split
        · exact isLower_raise c
        · rename_i hd
          refine h.1 ?_
          rw [hb hr] at hr
          simp only [raises, Bool.or_eq_true] at hr hd
          rcases hr with (hr | hr) | hr
          · exact hr
          · exact absurd (.inl hr) hd
          · exact absurd (.inr hr) hd
      · split at hr
        · rename_i hd
          rw [if_pos hd]
          exact raise_eq_of_raises hr
        · rename_i hd
          rw [if_neg hd]

theorem Follows.joinSpaced {before last : Char} {spaced : Bool} {cs : List Char}
    (h : Follows raises before cs) (hlast : spaced = false → raises last = true → last = before) :
    Follows raises last (joinSpaced spaced cs) := by
  induction cs generalizing before last spaced with
  | nil => trivial
  | cons c rest ih =>
      rw [Identifier.joinSpaced]
      split
      · exact ih h.2 fun hs => by cases hs
      · cases spaced with
        | true => exact ⟨fun _ => isLower_raise c, ih h.2 fun _ hr => raise_eq_of_raises hr⟩
        | false =>
            refine ⟨fun hr => h.1 ?_, ih h.2 fun _ _ => rfl⟩
            rwa [← hlast rfl hr]

/-- What may be left of a text besides parts of identifiers is spaces. -/
def Blanked (cs : List Char) : Prop := ∀ c ∈ cs, isPart c = true ∨ c = ' '

theorem blanked_blankInvalid (cs : List Char) : Blanked (blankInvalid cs) := by
  intro c hc
  obtain ⟨d, -, rfl⟩ := List.mem_map.1 hc
  split
  · exact .inl ‹_›
  · exact .inr rfl

theorem raise_part_or_space {c : Char} (h : isPart c = true ∨ c = ' ') :
    isPart (raise c) = true ∨ raise c = ' ' := by
  rcases h with h | rfl
  · exact .inl (isPart_raise h)
  · exact .inr (by decide)

theorem Blanked.raiseLeading {cs : List Char} (h : Blanked cs) : Blanked (raiseLeading cs) := by
  unfold Identifier.raiseLeading
  split
  · intro d hd
    rcases List.mem_cons.1 hd with rfl | hd
    · exact .inl (by decide)
    rcases List.mem_cons.1 hd with rfl | hd
    · exact raise_part_or_space (h _ (by simp))
    · exact h d (by simp [hd])
  · exact h

theorem Blanked.joinSnake {cs : List Char} (h : Blanked cs) : Blanked (joinSnake cs) := by
  fun_induction Identifier.joinSnake cs with
  | case1 => exact h
  | case2 c rest _ ih =>
      intro d hd
      rcases List.mem_cons.1 hd with rfl | hd
      · exact raise_part_or_space (h _ (by simp))
      · exact ih (fun e he => h e (by simp [he])) d hd
  | case3 c rest _ ih =>
      intro d hd
      rcases List.mem_cons.1 hd with rfl | hd
      · exact .inl (by decide)
      · exact ih (fun e he => h e (List.mem_cons_of_mem _ he)) d hd
  | case4 c rest _ ih =>
      intro d hd
      rcases List.mem_cons.1 hd with rfl | hd
      · exact h _ List.mem_cons_self
      · exact ih (fun e he => h e (List.mem_cons_of_mem _ he)) d hd

theorem Blanked.raiseAfterDigit {cs : List Char} (h : Blanked cs) (before : Char) :
    Blanked (raiseAfterDigit before cs) := by
  induction cs generalizing before with
  | nil => exact h
  | cons c rest ih =>
      intro d hd
      rcases List.mem_cons.1 hd with rfl | hd
      · split
        · exact raise_part_or_space (h _ List.mem_cons_self)
        · exact h _ List.mem_cons_self
      · exact ih (fun e he => h e (List.mem_cons_of_mem _ he)) c d hd

theorem Blanked.joinSpaced {cs : List Char} (h : Blanked cs) (spaced : Bool) :
    ∀ c ∈ joinSpaced spaced cs, isPart c = true := by
  induction cs generalizing spaced with
  | nil => simp [Identifier.joinSpaced]
  | cons c rest ih =>
      have hrest : Blanked rest := fun e he => h e (List.mem_cons_of_mem _ he)
      rw [Identifier.joinSpaced]
      split
      · exact ih hrest true
      · rename_i hc
        have hpart : isPart c = true :=
          (h c List.mem_cons_self).resolve_right fun heq => hc (by simp [heq])
        intro d hd
        rcases List.mem_cons.1 hd with rfl | hd
        · split
          · exact isPart_raise hpart
          · exact hpart
        · exact ih hrest false d hd

/-- What `sanitize` makes is clean, unless nothing is left. -/
theorem clean_sanitizeChars {cs : List Char} (h : sanitizeChars cs ≠ []) :
    Clean (sanitizeChars cs) := by
  revert h
  unfold sanitizeChars
  dsimp only
  generalize cs.flatMap foldLetter = cs
  have hstarts := (starts_trimStart cs).blankInvalid.raiseLeading.joinSnake
  have hblanked := (blanked_blankInvalid (trimStart cs)).raiseLeading.joinSnake
  have hsnake : Follows (· == '_') ' ' (joinSnake (raiseLeading (blankInvalid (trimStart cs)))) :=
    follows_joinSnake fun heq => by cases heq
  generalize joinSnake (raiseLeading (blankInvalid (trimStart cs))) = cs at *
  have hfollows : Follows raises ' ' (joinSpaced false (raiseAfterDigit ' ' cs)) :=
    (hsnake.raiseAfterDigit fun _ => rfl).joinSpaced fun _ _ => rfl
  have hparts := (hblanked.raiseAfterDigit ' ').joinSpaced false
  have hstart : ∀ c rest, joinSpaced false (raiseAfterDigit ' ' cs) = c :: rest → isStart c = true :=
    fun c rest heq => (hstarts.raiseAfterDigit (by decide)).joinSpaced heq
  generalize joinSpaced false (raiseAfterDigit ' ' cs) = cs at *
  intro h
  cases cs with
  | nil => exact (h rfl).elim
  | cons c rest =>
      refine ⟨?_, fun _ => isLower_raise c, ?_⟩
      · simp only [isBare, raiseFirst, Bool.and_eq_true, List.all_eq_true]
        exact ⟨isStart_raise (hstart c rest rfl), fun d hd => hparts d (List.mem_cons_of_mem _ hd)⟩
      · have hrest := hfollows.2
        cases rest with
        | nil => trivial
        | cons d ds =>
            refine ⟨fun hr => hrest.1 ?_, hrest.2⟩
            rwa [raise_eq_of_raises hr] at hr

/-! ## Fresh names -/

theorem toString_injective {m n : Nat} (h : toString m = toString n) : m = n := by
  have hdigits : Nat.toDigits 10 m = Nat.toDigits 10 n := by
    simpa [Nat.toString_eq_repr] using congrArg String.toList h
  simpa using congrArg (Nat.ofDigitChars 10 · 0) hdigits

theorem isDigit_of_mem_toString {n : Nat} {c : Char} (h : c ∈ (toString n).toList) :
    isDigit c = true := by
  have hd : c.isDigit = true :=
    Nat.isDigit_of_mem_toDigits (b := 10) (n := n) (by decide) (by decide)
      (by simpa [Nat.toString_eq_repr] using h)
  exact hd

theorem exists_freshFrom (base : String) (used : List String) (counter : Nat) :
    ∃ n, counter ≤ n ∧ freshFrom base used counter = base ++ toString n := by
  fun_induction freshFrom base used counter with
  | case1 used counter name _ ih =>
      obtain ⟨n, hle, heq⟩ := ih
      exact ⟨n, by omega, heq⟩
  | case2 used counter name _ => exact ⟨counter, Nat.le_refl _, rfl⟩

theorem freshFrom_not_mem (base : String) (used : List String) (counter : Nat) :
    freshFrom base used counter ∉ used := by
  fun_induction freshFrom base used counter with
  | case1 used counter name _ ih =>
      obtain ⟨n, hle, heq⟩ := exists_freshFrom base (used.erase name) (counter + 1)
      -- the result has a later counter, so it is not the name that was taken out
      have hne : freshFrom base (used.erase name) (counter + 1) ≠ name := by
        rw [heq]
        intro h
        have := toString_injective (String.append_right_inj base |>.1 h)
        omega
      exact fun hmem => ih ((List.mem_erase_of_ne hne).2 hmem)
  | case2 used counter name h => exact h

/-- The identifier that a fresh name starts with. -/
def freshBase (raw : String) : String :=
  if (sanitize raw).isEmpty then fallback else sanitize raw

theorem fresh_eq (raw : String) (used : List String) :
    fresh raw used =
      if freshBase raw ∈ used then freshFrom (freshBase raw) used 1 else freshBase raw := rfl

/-- The names that a text may be given: its identifier, alone or with a counter behind it. -/
inductive Candidate (raw : String) : String → Prop
  | plain : Candidate raw (freshBase raw)
  | counted {n : Nat} (hpos : 1 ≤ n) : Candidate raw (freshBase raw ++ toString n)

theorem candidate_fresh (raw : String) (used : List String) : Candidate raw (fresh raw used) := by
  rw [fresh_eq]
  split
  · obtain ⟨n, hpos, heq⟩ := exists_freshFrom (freshBase raw) used 1
    exact heq ▸ .counted hpos
  · exact .plain

/-- What a candidate begins with. -/
theorem Candidate.exists_rest {raw name : String} (h : Candidate raw name) :
    ∃ rest, name = freshBase raw ++ rest := by
  cases h with
  | plain => exact ⟨"", String.append_empty.symm⟩
  | counted _ => exact ⟨_, rfl⟩

/-- A fresh name is a new one. -/
theorem fresh_not_mem (raw : String) (used : List String) : fresh raw used ∉ used := by
  rw [fresh_eq]
  split
  · exact freshFrom_not_mem _ _ _
  · assumption

theorem clean_freshBase (raw : String) : Clean (freshBase raw).toList := by
  by_cases h : sanitizeChars raw.toList = []
  · have heq : freshBase raw = fallback := if_pos (by simp [sanitize, h])
    rw [heq]
    refine ⟨by decide, ?_⟩
    simp [fallback, Follows, raises, isLower, isDigit]
  · have heq : freshBase raw = sanitize raw := if_neg (by simp [sanitize, h])
    rw [heq, sanitize, String.toList_ofList]
    exact clean_sanitizeChars h

/-- A fresh name is clean. -/
theorem clean_fresh (raw : String) (used : List String) : Clean (fresh raw used).toList := by
  have h := candidate_fresh raw used
  generalize fresh raw used = name at h ⊢
  cases h with
  | plain => exact clean_freshBase raw
  | counted _ =>
      rw [String.toList_append]
      exact (clean_freshBase raw).append fun d hd => isDigit_of_mem_toString hd

end Typewright.Identifier
