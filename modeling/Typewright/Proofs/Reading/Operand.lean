import Typewright.Proofs.Reading.Shape

/-!
# Operands

An item closes what it opens and shows no separator outside of brackets, so it can stand between
separators. An operand shows no operator and no blank either: it can stand in front of `[]` and between
operators. Both are read there as they are read on their own.
-/

namespace Typewright.Reading

open Text (trim isBlank join)

variable {sep : Char → Bool} {p p' : Place} {c : Char} {cs ds o : List Char}

/-! ## Pieces -/

/-- A text that shows no separator is one piece. -/
theorem split_of_outer (h : ∀ c ∈ outer p cs, sep c = false) : split sep p cs = [cs] := by
  induction cs generalizing p with
  | nil => rfl
  | cons c rest ih =>
      rw [split]
      cases hstep : step p c with
      | none => rfl
      | some next =>
          rw [outer, hstep] at h
          simp only [Option.elim_some] at h
          have hsep : (p.outer && sep c) = false := by
            cases hp : p.outer with
            | false => rfl
            | true =>
                rw [hp, if_pos rfl] at h
                exact h c List.mem_cons_self
          have hrest := ih fun d hd => h d (by
            split
            · exact List.mem_cons_of_mem _ hd
            · exact hd)
          simp only [hsep, Bool.false_eq_true, if_false, hrest]

/-- A text that shows no separator belongs to the piece behind it. -/
theorem split_append (h : Reads p cs o p') (ho : ∀ c ∈ o, sep c = false) {piece : List Char}
    {more : List (List Char)} (hds : split sep p' ds = piece :: more) :
    split sep p (cs ++ ds) = (cs ++ piece) :: more := by
  induction cs generalizing p o with
  | nil =>
      obtain rfl := Option.some.inj h.run
      exact hds
  | cons c rest ih =>
      obtain ⟨next, o', hstep, hrest, rfl⟩ := h.exists_step
      have hsep : (p.outer && sep c) = false := by
        cases hp : p.outer with
        | false => rfl
        | true => exact ho c (by rw [hp]; exact List.mem_cons_self)
      have hsplit := ih hrest fun d hd => ho d (List.mem_append_right _ hd)
      rw [List.cons_append, split, hstep]
      simp only [hsep, Bool.false_eq_true, if_false, hsplit]
      rfl

/-- Blanks around a separator. -/
structure Margin (sep : Char → Bool) (cs : List Char) : Prop where
  blank : ∀ c ∈ cs, isBlank c = true
  plain : ∀ c ∈ cs, isPlain c = true
  free : ∀ c ∈ cs, sep c = false

theorem Margin.nil : Margin sep [] :=
  ⟨fun _ hc => absurd hc List.not_mem_nil, fun _ hc => absurd hc List.not_mem_nil,
    fun _ hc => absurd hc List.not_mem_nil⟩

theorem margin_blanks {mark : Char} (h : isBlank mark = false) (hcs : ∀ c ∈ cs, c = ' ') :
    Margin (· == mark) cs where
  blank c hc := by
    rw [hcs c hc]
    rfl
  plain c hc := by
    rw [hcs c hc]
    decide
  free c hc := by
    rw [hcs c hc]
    refine beq_false_of_ne ?_
    rintro rfl
    cases h

theorem margin_blank {mark : Char} (h : isBlank mark = false) : Margin (· == mark) [' '] :=
  margin_blanks h fun _ => List.mem_singleton.1

/-- Texts that are joined by a separator are its pieces. -/
theorem fields_join {before after : List Char} (hsep : sep c = true) (hc : isPlain c = true)
    (hbefore : Margin sep before) (hafter : Margin sep after) {parts : List (List Char)}
    (hne : parts ≠ [])
    (hparts : ∀ part ∈ parts, trim part = part ∧ ∃ o, Shows part o ∧ ∀ d ∈ o, sep d = false) :
    fields sep (join (before ++ c :: after) parts) = parts := by
  have hall : ∀ {parts : List (List Char)} {lead : List Char}, parts ≠ [] →
      (∀ part ∈ parts, trim part = part ∧ ∃ o, Shows part o ∧ ∀ d ∈ o, sep d = false) →
      Margin sep lead →
      (split sep {} (lead ++ join (before ++ c :: after) parts)).map trim = parts := by
    intro parts
    induction parts with
    | nil => exact fun hne => absurd rfl hne
    | cons part rest ih =>
        intro lead _ hparts hlead
        obtain ⟨htrim, o, hshows, ho⟩ := hparts part List.mem_cons_self
        have hfront := (shows_plain hlead.plain).append hshows
        have hfree : ∀ d ∈ lead ++ o, sep d = false := fun d hd =>
          (List.mem_append.1 hd).elim (hlead.free d) (ho d)
        have hone : trim (lead ++ part) = part := by
          rw [Text.trim_append_blank hlead.blank, htrim]
        cases rest with
        | nil =>
            rw [join, split_of_outer (hfront.outer.symm ▸ hfree), List.map_singleton, hone]
        | cons next more =>
            have hrest := ih (List.cons_ne_nil next more)
              (fun part hpart => hparts part (List.mem_cons_of_mem _ hpart)) hafter
            have hstep : step {} c = some {} := codeStep_plain hc []
            have hcut : split sep {} (c :: (after ++ join (before ++ c :: after) (next :: more))) =
                [] :: split sep {} (after ++ join (before ++ c :: after) (next :: more)) := by
              rw [split, hstep]
              simp only [hsep]
              rfl
            have hpiece := hfront.append (shows_plain hbefore.plain)
            have hsplit := split_append hpiece (fun d hd =>
              (List.mem_append.1 hd).elim (hfree d) (hbefore.free d)) hcut
            have hjoin : lead ++ join (before ++ c :: after) (part :: next :: more) =
                lead ++ part ++ before ++
                  c :: (after ++ join (before ++ c :: after) (next :: more)) := by
              rw [Text.join_cons _ (List.cons_ne_nil next more)]
              simp
            rw [hjoin, hsplit, List.map_cons, hrest, List.append_nil,
              Text.trim_append_of_blank hbefore.blank, hone]
  exact @hall parts [] hne hparts .nil

/-! ## Items and operands -/

def separators : List Char := ":\n;,".toList

/-- A text that can stand between separators: it closes what it opens, has no blanks around it, and
shows no separator outside of brackets. -/
structure Item (cs : List Char) : Prop where
  ne : cs ≠ []
  balanced : Balanced cs
  trim_eq : trim cs = cs
  free : ∀ c ∈ outer {} cs, c ∉ separators

theorem Item.tight (h : Item cs) : Text.Tight cs := h.trim_eq ▸ Text.tight_trim cs

theorem Item.exists_head (h : Item cs) : ∃ c rest, cs = c :: rest ∧ isBlank c = false := by
  obtain ⟨c, rest, heq⟩ := List.exists_cons_of_ne_nil h.ne
  exact ⟨c, rest, heq, Text.isBlank_of_trim (h.trim_eq.trans heq)⟩

/-- Blanks, separators and operators. -/
def isJoint (c : Char) : Bool := isBlank c || "|&,;:?=".toList.contains c

/-- A text that can be an operand: it closes what it opens, and outside of brackets it shows no
operator, separator or blank. -/
structure Operand (cs : List Char) : Prop where
  ne : cs ≠ []
  balanced : Balanced cs
  free : ∀ c ∈ outer {} cs, isJoint c = false

theorem operand_iff : Operand cs ↔ cs ≠ [] ∧ Balanced cs ∧ (outer {} cs).all (!isJoint ·) = true := by
  have hfree : (outer {} cs).all (!isJoint ·) = true ↔ ∀ c ∈ outer {} cs, isJoint c = false := by
    simp [List.all_eq_true]
  rw [hfree]
  exact ⟨fun h => ⟨h.ne, h.balanced, h.free⟩, fun h => ⟨h.1, h.2.1, h.2.2⟩⟩

instance (cs : List Char) : Decidable (Operand cs) := decidable_of_iff' _ operand_iff

theorem isPlain_of_isBlank (h : isBlank c = true) : isPlain c = true := by
  have hall : ∀ d ∈ specials, isBlank d = false := by decide
  by_contra hplain
  have hmem : c ∈ specials := by simpa [isPlain] using hplain
  rw [hall c hmem] at h
  cases h

/-- A blank is read behind the last bracket, string or comment only if it is outside of them. -/
theorem outer_of_step (h : step p c = some {}) (hc : isBlank c = true) : p.outer = true := by
  have hne : ∀ d, isBlank d = false → c ≠ d := by
    rintro d hd rfl
    rw [hd] at hc
    cases hc
  have hcode := codeStep_plain (isPlain_of_isBlank hc) p.closers
  obtain ⟨closers, mode⟩ := p
  have houtside : codeStep closers c = some {} → closers = [] := fun h =>
    (Place.mk.inj (Option.some.inj (hcode.symm.trans h))).1
  cases mode with
  | code =>
      rw [houtside h]
      rfl
  | slash =>
      simp only [step, beq_iff_eq, hne '*' rfl, if_false] at h
      rw [houtside h]
      rfl
  | equals =>
      simp only [step, beq_iff_eq, hne '>' rfl, if_false] at h
      rw [houtside h]
      rfl
  | string quote =>
      have hquote : c ≠ quote.char := hne _ (by cases quote <;> rfl)
      simp [step, hquote, hne '\\' rfl] at h
  | escape quote => simp [step] at h
  | comment => simp [step, hne '*' rfl] at h
  | star => simp [step, hne '*' rfl, hne '/' rfl] at h

/-- A blank at the end of a text is shown. -/
theorem Reads.mem_of_blank (h : Reads p (cs ++ [c]) o {}) (hc : isBlank c = true) : c ∈ o := by
  induction cs generalizing p o with
  | nil =>
      obtain ⟨next, o', hstep, hrest, rfl⟩ := h.exists_step
      obtain rfl : next = {} := Option.some.inj hrest.run
      rw [outer_of_step hstep hc]
      exact List.mem_cons_self
  | cons d rest ih =>
      obtain ⟨next, o', hstep, hrest, rfl⟩ := h.exists_step
      exact List.mem_append_right _ (ih hrest)

theorem isBlank_of_isJoint (h : isJoint c = false) : isBlank c = false := (Bool.or_eq_false_iff.1 h).1

theorem ne_of_isJoint {d : Char} (h : isJoint c = false) (hd : isJoint d = true) : c ≠ d := by
  rintro rfl
  rw [h] at hd
  cases hd

theorem Operand.trim_eq (h : Operand cs) : trim cs = cs := by
  have hshows := h.balanced.shows
  have hfirst : cs.dropWhile isBlank = cs := by
    cases cs with
    | nil => rfl
    | cons c rest =>
        obtain ⟨next, o, -, -, ho⟩ := Reads.exists_step hshows
        have hc := h.free c (ho ▸ List.mem_cons_self)
        exact List.dropWhile_cons_of_neg (by simp [isBlank_of_isJoint hc])
  obtain ⟨init, d, rfl⟩ : ∃ init d, cs = init ++ [d] :=
    ⟨_, _, (List.dropLast_append_getLast h.ne).symm⟩
  have hlast : isBlank d = false := by
    by_contra hblank
    have hd : isBlank d = true := by simpa using hblank
    rw [isBlank_of_isJoint (h.free d (hshows.mem_of_blank hd))] at hd
    cases hd
  rw [Text.trim_eq, hfirst, List.rdropWhile_concat_neg _ _ _ (by simp [hlast])]

theorem not_mem_separators (h : isJoint c = false) : c ∉ separators := by
  have hmarks : ∀ d ∈ separators, isJoint d = true := by decide
  intro hmem
  rw [hmarks c hmem] at h
  cases h

theorem Operand.item (h : Operand cs) : Item cs :=
  ⟨h.ne, h.balanced, h.trim_eq, fun c hc => not_mem_separators (h.free c hc)⟩

theorem Operand.exists_shown (h : Operand cs) : ∃ c o, outer {} cs = c :: o := by
  obtain ⟨c, rest, rfl⟩ := List.exists_cons_of_ne_nil h.ne
  obtain ⟨next, o, -, -, ho⟩ := Reads.exists_step h.balanced.shows
  exact ⟨c, o, ho⟩

theorem Operand.of_shows (h : Shows cs o) (ho : ∀ c ∈ o, isJoint c = false) (hne : cs ≠ []) :
    Operand cs := ⟨hne, h.balanced, h.outer.symm ▸ ho⟩

theorem fields_of_outer (h : ∀ c ∈ outer {} cs, sep c = false) : fields sep cs = [trim cs] := by
  rw [fields, split_of_outer h, List.map_singleton]

theorem single_of_outer (h : ∀ c ∈ outer {} cs, isJoint c = false) : Single cs where
  union := by
    rw [fields_of_outer fun c hc => beq_false_of_ne (ne_of_isJoint (h c hc) (by decide))]
    exact Nat.lt_succ_self 1
  intersection := by
    rw [fields_of_outer fun c hc => beq_false_of_ne (ne_of_isJoint (h c hc) (by decide))]
    exact Nat.lt_succ_self 1

/-! ## Brackets -/

theorem inner_enclosed (opener closer : Char) (cs : List Char) :
    inner (opener :: cs ++ [closer]) = cs := by
  rw [inner, List.cons_append, List.tail_cons, List.dropLast_concat]

theorem Balanced.single {opener closer : Char} (h : Balanced cs) (hopen : closer? opener = some closer)
    (hmark : isJoint opener = false) : Single (opener :: cs ++ [closer]) := by
  refine single_of_outer fun c hc => ?_
  rw [(h.enclosed hopen).outer, List.mem_singleton] at hc
  exact hc ▸ hmark

theorem read_round (h : Balanced cs) : read ('(' :: cs ++ [')']) = read (trim cs) := by
  rw [read_group (h.single rfl (by decide)) (h.enclosed rfl).outer, inner_enclosed]

theorem read_square (h : Balanced cs) :
    read ('[' :: cs ++ [']']) = .tuple ((items cs).map read) := by
  rw [read_tuple (h.single rfl (by decide)) (h.enclosed rfl).outer, inner_enclosed]

theorem read_brace (h : Balanced cs) :
    read ('{' :: cs ++ ['}']) = .object ((members cs).map fun m => (m.1, read m.2)) := by
  rw [read_object (h.single rfl (by decide)) (h.enclosed rfl).outer, inner_enclosed]

/-- The brackets of a list stand behind its element. -/
theorem Operand.brackets (h : Operand cs) :
    Shows (cs ++ "[]".toList) (outer {} cs ++ ['[']) ∧ read (cs ++ "[]".toList) = .array (read cs) := by
  have hempty : Balanced [] := rfl
  have hshows : Shows (cs ++ "[]".toList) (outer {} cs ++ ['[']) :=
    h.balanced.shows.append (hempty.enclosed (show closer? '[' = some ']' from rfl))
  refine ⟨hshows, read_array (single_of_outer fun c hc => ?_) fun c hc => ?_⟩
  · rw [hshows.outer] at hc
    rcases List.mem_append.1 hc with hc | hc
    · exact h.free c hc
    · exact List.mem_singleton.1 hc ▸ by decide
  · obtain ⟨d, o, ho⟩ := h.exists_shown
    rw [hshows.outer, ho] at hc
    simp at hc

/-! ## Lists of operands -/

/-- What a joined text shows is shown by a separator or a part. -/
theorem shows_join (separator : List Char) (hseparator : Balanced separator)
    {parts : List (List Char)} (h : ∀ part ∈ parts, Balanced part) :
    ∃ o, Shows (join separator parts) o ∧
      ∀ c ∈ o, c ∈ outer {} separator ∨ ∃ part ∈ parts, c ∈ outer {} part := by
  induction parts with
  | nil => exact ⟨[], .nil, nofun⟩
  | cons part rest ih =>
      have hpart := (h part List.mem_cons_self).shows
      cases rest with
      | nil => exact ⟨_, hpart, fun c hc => .inr ⟨part, List.mem_cons_self, hc⟩⟩
      | cons next more =>
          obtain ⟨o, hshows, ho⟩ := ih fun part hpart => h part (List.mem_cons_of_mem _ hpart)
          rw [Text.join_cons _ (List.cons_ne_nil next more)]
          refine ⟨_, (hpart.append hseparator.shows).append hshows, fun c hc => ?_⟩
          rcases List.mem_append.1 hc with hc | hc
          · rcases List.mem_append.1 hc with hc | hc
            · exact .inr ⟨part, List.mem_cons_self, hc⟩
            · exact .inl hc
          · exact (ho c hc).imp_right fun ⟨part, hpart, hc⟩ =>
              ⟨part, List.mem_cons_of_mem _ hpart, hc⟩

section Joined

variable {parts : List (List Char)}

theorem exists_join_head (separator : List Char) (hparts : ∀ part ∈ parts, Item part)
    (hne : parts ≠ []) : ∃ c rest, join separator parts = c :: rest ∧ isBlank c = false := by
  cases parts with
  | nil => exact absurd rfl hne
  | cons part more =>
      obtain ⟨c, rest, rfl, hc⟩ := (hparts part List.mem_cons_self).exists_head
      cases more with
      | nil => exact ⟨c, rest, rfl, hc⟩
      | cons next more =>
          rw [Text.join_cons _ (List.cons_ne_nil next more)]
          exact ⟨c, _, rfl, hc⟩

theorem tight_join (separator : List Char) (hparts : ∀ part ∈ parts, Item part) :
    Text.Tight (join separator parts) := by
  induction parts with
  | nil => exact Text.tight_nil
  | cons part rest ih =>
      cases rest with
      | nil => exact (hparts part List.mem_cons_self).tight
      | cons next more =>
          have hrest := fun part hpart => hparts part (List.mem_cons_of_mem _ hpart)
          obtain ⟨c, tail, heq, -⟩ := exists_join_head separator hrest (List.cons_ne_nil next more)
          rw [Text.join_cons _ (List.cons_ne_nil next more)]
          exact (ih hrest).append (heq ▸ List.cons_ne_nil c tail)

theorem trim_join (separator : List Char) (hparts : ∀ part ∈ parts, Item part) :
    trim (join separator parts) = join separator parts := by
  by_cases hne : parts = []
  · subst hne
    rfl
  · obtain ⟨c, rest, heq, hc⟩ := exists_join_head separator hparts hne
    refine Text.trim_eq_self (fun d hd => ?_) (tight_join separator hparts)
    rw [heq] at hd
    exact Option.some.inj hd ▸ hc

/-- Items that do not show a mark are the pieces of the text that joins them by it. -/
theorem fields_items (before after : List Char) {mark : Char} (hplain : isPlain mark = true)
    (hbefore : Margin (· == mark) before) (hafter : Margin (· == mark) after)
    (hparts : ∀ part ∈ parts, Item part) (hfree : ∀ part ∈ parts, ∀ c ∈ outer {} part, c ≠ mark)
    (hne : parts ≠ []) : fields (· == mark) (join (before ++ mark :: after) parts) = parts :=
  @fields_join (· == mark) mark before after (beq_self_eq_true mark) hplain hbefore hafter _ hne
    fun part hpart =>
      ⟨(hparts part hpart).trim_eq, _, (hparts part hpart).balanced.shows, fun d hd =>
        beq_false_of_ne (hfree part hpart d hd)⟩

theorem read_tupleText {after : List Char} (hafter : Margin (· == ',') after)
    (hparts : ∀ part ∈ parts, Item part) :
    read ('[' :: join (',' :: after) parts ++ [']']) = .tuple (parts.map read) := by
  have hcomma : Balanced (',' :: after) :=
    (shows_plain (List.forall_mem_cons.2 ⟨by decide, hafter.plain⟩)).balanced
  obtain ⟨o, hshows, -⟩ := shows_join (',' :: after) hcomma fun part hpart =>
    (hparts part hpart).balanced
  rw [read_square hshows.balanced]
  by_cases hne : parts = []
  · subst hne
    rfl
  · have hfields : fields (· == ',') (join (',' :: after) parts) = parts :=
      fields_items [] after (by decide) .nil hafter hparts
        (fun part hpart c hc heq => (hparts part hpart).free c hc (heq ▸ by decide)) hne
    obtain ⟨c, rest, heq, -⟩ := exists_join_head (',' :: after) hparts hne
    rw [items, trim_join _ hparts, if_neg (by rw [heq]; exact Bool.false_ne_true), hfields]

variable (hparts : ∀ part ∈ parts, Operand part)
include hparts

/-- Operands with an operator between blanks. -/
theorem fields_operator {operator : Char} (hplain : isPlain operator = true)
    (hmark : isJoint operator = true) (hblank : isBlank operator = false) (hne : parts ≠ []) :
    fields (· == operator) (join [' ', operator, ' '] parts) = parts :=
  fields_items [' '] [' '] hplain (margin_blank hblank) (margin_blank hblank)
    (fun part hpart => (hparts part hpart).item)
    (fun part hpart c hc => ne_of_isJoint ((hparts part hpart).free c hc) hmark) hne

theorem read_unionText (hlen : 2 ≤ parts.length) :
    read ('(' :: join " | ".toList parts ++ [')']) = .union (parts.map read) := by
  have hne : parts ≠ [] := List.ne_nil_of_length_pos (Nat.zero_lt_of_lt hlen)
  obtain ⟨o, hshows, -⟩ := shows_join " | ".toList (by decide) fun part hpart =>
    (hparts part hpart).balanced
  have hfields : fields (· == '|') (join " | ".toList parts) = parts :=
    fields_operator hparts (by decide) (by decide) rfl hne
  rw [read_round hshows.balanced, trim_join _ fun part hpart => (hparts part hpart).item, read_union (by rwa [hfields]), hfields]

theorem read_intersectionText (hlen : 2 ≤ parts.length) :
    read ('(' :: join " & ".toList parts ++ [')']) = .intersection (parts.map read) := by
  have hne : parts ≠ [] := List.ne_nil_of_length_pos (Nat.zero_lt_of_lt hlen)
  obtain ⟨o, hshows, ho⟩ := shows_join " & ".toList (by decide) fun part hpart =>
    (hparts part hpart).balanced
  have hfields : fields (· == '&') (join " & ".toList parts) = parts :=
    fields_operator hparts (by decide) (by decide) rfl hne
  -- the operands of an intersection are joined by no other operator
  have hunion : (fields (· == '|') (join " & ".toList parts)).length < 2 := by
    rw [fields_of_outer]
    · exact Nat.lt_succ_self 1
    · rw [hshows.outer]
      intro c hc
      refine beq_false_of_ne ?_
      rcases ho c hc with hc | ⟨part, hpart, hc⟩
      · rintro rfl
        revert hc
        decide
      · exact ne_of_isJoint ((hparts part hpart).free c hc) (by decide)
  rw [read_round hshows.balanced, trim_join _ fun part hpart => (hparts part hpart).item, read_intersection hunion (by rwa [hfields]),
    hfields]

end Joined

/-! ## Members -/

/-- A key that need not be there. -/
theorem Operand.question (h : Operand cs) : Item (cs ++ ['?']) := by
  have hshows : Shows (cs ++ ['?']) (outer {} cs ++ ['?']) :=
    h.balanced.shows.append (shows_plain (by decide))
  refine ⟨List.append_ne_nil_of_left_ne_nil h.ne _, hshows.balanced,
    Text.trim_eq_self (fun c hc => ?_) (Text.Tight.append ?_ (by decide)), fun c hc => ?_⟩
  · obtain ⟨d, rest, rfl, hd⟩ := h.item.exists_head
    exact Option.some.inj hc ▸ hd
  · intro d hd
    exact Option.some.inj hd ▸ rfl
  · rw [hshows.outer] at hc
    rcases List.mem_append.1 hc with hc | hc
    · exact not_mem_separators (h.free c hc)
    · exact List.mem_singleton.1 hc ▸ by decide

theorem not_end_of_not_mem (h : c ∉ separators) : (c == '\n' || c == ';' || c == ',') = false := by
  have hne : ∀ d ∈ separators, c ≠ d := fun d hd heq => h (heq ▸ hd)
  simp [hne '\n' (by decide), hne ';' (by decide), hne ',' (by decide)]

section Pairs

variable {key type after : List Char} (hkey : Item key) (htype : Item type)
  (hafter : ∀ c ∈ after, c = ' ')
include hkey htype hafter

/-- A key and its type show nothing that ends a member. -/
theorem shows_pair : trim (join (':' :: after) [key, type]) = join (':' :: after) [key, type] ∧
    ∃ o, Shows (join (':' :: after) [key, type]) o ∧
      ∀ c ∈ o, (c == '\n' || c == ';' || c == ',') = false := by
  have hplain : ∀ c ∈ ':' :: after, isPlain c = true :=
    List.forall_mem_cons.2 ⟨by decide, fun c hc => hafter c hc ▸ by decide⟩
  have htext : join (':' :: after) [key, type] = key ++ (':' :: after) ++ type := rfl
  have hshows := (hkey.balanced.shows.append (shows_plain hplain)).append htype.balanced.shows
  rw [htext]
  refine ⟨Text.trim_eq_self (fun c hc => ?_) (htype.tight.append htype.ne), _, hshows,
    fun c hc => ?_⟩
  · obtain ⟨d, rest, rfl, hd⟩ := hkey.exists_head
    exact Option.some.inj hc ▸ hd
  · rcases List.mem_append.1 hc with hc | hc
    · rcases List.mem_append.1 hc with hc | hc
      · exact not_end_of_not_mem (hkey.free c hc)
      · rcases List.mem_cons.1 hc with rfl | hc
        · rfl
        · exact hafter c hc ▸ rfl
    · exact not_end_of_not_mem (htype.free c hc)

theorem member?_pair : Reading.member? (join (':' :: after) [key, type]) = some (key, type) := by
  have hparts : ∀ part ∈ [key, type], Item part :=
    List.forall_mem_cons.2 ⟨hkey, List.forall_mem_singleton.2 htype⟩
  have hfields : fields (· == ':') (join (':' :: after) [key, type]) = [key, type] :=
    fields_items [] after (by decide) .nil (margin_blanks rfl hafter) hparts
      (fun part hpart c hc heq => (hparts part hpart).free c hc (heq ▸ by decide))
      (List.cons_ne_nil _ _)
  rw [Reading.member?, hfields]

end Pairs

/-- Keys and types without blanks, between commas. -/
theorem read_membersText {members : List (List Char × List Char)}
    (h : ∀ m ∈ members, Item m.1 ∧ Item m.2) :
    read ('{' :: join [','] (members.map fun m => join [':'] [m.1, m.2]) ++ ['}']) =
      .object (members.map fun m => (m.1, read m.2)) := by
  have hnil : ∀ c ∈ ([] : List Char), c = ' ' := nofun
  have hpairs : ∀ part ∈ members.map fun m => join [':'] [m.1, m.2], trim part = part ∧
      ∃ o, Shows part o ∧ ∀ c ∈ o, (c == '\n' || c == ';' || c == ',') = false := by
    intro part hpart
    obtain ⟨m, hm, rfl⟩ := List.mem_map.1 hpart
    exact shows_pair (h m hm).1 (h m hm).2 hnil
  obtain ⟨o, hshows, -⟩ := shows_join [','] (by decide) fun part hpart =>
    (hpairs part hpart).2.elim fun _ ho => ho.1.balanced
  rw [read_brace hshows.balanced]
  by_cases hne : members = []
  · subst hne
    rfl
  · have hfields : fields (fun c => c == '\n' || c == ';' || c == ',')
        (join ([] ++ ',' :: []) (members.map fun m => join [':'] [m.1, m.2])) =
          members.map fun m => join [':'] [m.1, m.2] :=
      fields_join rfl (by decide) .nil .nil (mt List.map_eq_nil_iff.1 hne) hpairs
    rw [List.nil_append] at hfields
    have hmembers : Reading.members (join [','] (members.map fun m => join [':'] [m.1, m.2])) =
        members := by
      rw [Reading.members, hfields, List.filterMap_map]
      exact (List.filterMap_congr fun m hm => member?_pair (h m hm).1 (h m hm).2 hnil).trans
        List.filterMap_some
    rw [hmembers]

/-- A line between braces: a comment, or a member with its key and its type. -/
inductive Line where
  | comment (text : List Char)
  | member (key type : List Char)

def Line.text : Line → List Char
  | .comment text => text
  | .member key type => join (':' :: [' ']) [key, type]

def Line.member? : Line → Option (List Char × List Char)
  | .comment _ => none
  | .member key type => some (key, type)

/-- A line that is read as what it is written for. -/
def Line.Sound : Line → Prop
  | .comment text => Item text
  | .member key type => Item key ∧ Item type

theorem Line.Sound.shows {line : Line} (h : line.Sound) :
    trim line.text = line.text ∧
      ∃ o, Shows line.text o ∧ ∀ c ∈ o, (c == '\n' || c == ';' || c == ',') = false := by
  cases line with
  | comment text =>
      exact ⟨h.trim_eq, _, h.balanced.shows, fun c hc => not_end_of_not_mem (h.free c hc)⟩
  | member key type => exact shows_pair h.1 h.2 fun _ => List.mem_singleton.1

theorem Line.Sound.member?_text {line : Line} (h : line.Sound) :
    Reading.member? line.text = line.member? := by
  cases line with
  | comment text =>
      have hfields : fields (· == ':') text = [trim text] :=
        fields_of_outer fun c hc => beq_false_of_ne fun heq => h.free c hc (heq ▸ by decide)
      rw [Line.text, Reading.member?, hfields]
      rfl
  | member key type => exact member?_pair h.1 h.2 fun _ => List.mem_singleton.1

theorem read_objectText {lines : List Line} (h : ∀ line ∈ lines, line.Sound) :
    read ('{' :: join ['\n'] ([] :: lines.map Line.text ++ [[]]) ++ ['}']) =
      .object ((lines.filterMap Line.member?).map fun m => (m.1, read m.2)) := by
  have hparts : ∀ part ∈ [] :: lines.map Line.text ++ [[]], trim part = part ∧
      ∃ o, Shows part o ∧ ∀ c ∈ o, (c == '\n' || c == ';' || c == ',') = false := by
    intro part hpart
    simp only [List.cons_append, List.mem_cons, List.mem_append, List.mem_map, List.not_mem_nil,
      or_false] at hpart
    rcases hpart with rfl | ⟨line, hline, rfl⟩ | rfl
    · exact ⟨rfl, [], .nil, nofun⟩
    · exact (h line hline).shows
    · exact ⟨rfl, [], .nil, nofun⟩
  obtain ⟨o, hshows, -⟩ := shows_join ['\n'] (by decide) fun part hpart =>
    (hparts part hpart).2.elim fun _ ho => ho.1.balanced
  have hfields : fields (fun c => c == '\n' || c == ';' || c == ',')
      (join ([] ++ '\n' :: []) ([] :: lines.map Line.text ++ [[]])) =
        [] :: lines.map Line.text ++ [[]] :=
    fields_join rfl (by decide) .nil .nil (by simp) hparts
  have hlines : (lines.map Line.text).filterMap Reading.member? = lines.filterMap Line.member? := by
    rw [List.filterMap_map]
    exact List.filterMap_congr fun line hline => (h line hline).member?_text
  have hempty : Reading.member? [] = none := rfl
  rw [read_brace hshows.balanced, members]
  rw [List.nil_append] at hfields
  rw [hfields, List.cons_append, List.filterMap_cons, hempty, List.filterMap_append, hlines,
    List.filterMap_cons, hempty, List.filterMap_nil, List.append_nil]

end Typewright.Reading
