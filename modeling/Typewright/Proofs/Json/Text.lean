import Typewright.Json.Printer
import Typewright.Proofs.Json.Number

/-!
# JSON texts can be told apart

A text that is followed by a comma, a closing bracket or nothing shows where it ends, and a value has
no other text than its own. So equal texts are texts of equal values.
-/

namespace Typewright.Json

/-! ## Tokens and quotes -/

/-- What may follow a value. -/
def Ends (rest : List Char) : Prop := ∀ c ∈ rest.head?, c ∈ [',', ']', '}']

theorem ends_cons {c : Char} {rest : List Char} (h : c ∈ [',', ']', '}']) : Ends (c :: rest) := by
  intro d hd
  obtain rfl := Option.some.inj hd
  exact h

/-- Two texts of the same kind of characters that stop where these stop. -/
theorem append_inj_of_forall {p : Char → Prop} {cs ds r s : List Char} (hc : ∀ c ∈ cs, p c)
    (hd : ∀ d ∈ ds, p d) (hr : ∀ c ∈ r.head?, ¬ p c) (hs : ∀ c ∈ s.head?, ¬ p c)
    (h : cs ++ r = ds ++ s) : cs = ds ∧ r = s := by
  induction cs generalizing ds with
  | nil =>
      cases ds with
      | nil => exact ⟨rfl, h⟩
      | cons d ds => exact absurd (hd d List.mem_cons_self) (hr d (by simp [show r = _ from h]))
  | cons c cs ih =>
      cases ds with
      | nil => exact absurd (hc c List.mem_cons_self) (hs c (by simp [← show _ = s from h]))
      | cons d ds =>
          obtain ⟨rfl, htail⟩ := List.cons.inj h
          obtain ⟨rfl, rfl⟩ := ih (fun a ha => hc a (List.mem_cons_of_mem _ ha))
            (fun a ha => hd a (List.mem_cons_of_mem _ ha)) htail
          exact ⟨rfl, rfl⟩

/-- A way to write the characters between quotes so that they can be read back. -/
structure Code (write : Char → List Char) : Prop where
  inj : ∀ c d r s, write c ++ r = write d ++ s → c = d ∧ r = s
  noQuote : ∀ c r s, write c ++ r ≠ '"' :: s

theorem Code.flatMap_inj {write : Char → List Char} (h : Code write) {cs ds r s : List Char}
    (heq : cs.flatMap write ++ '"' :: r = ds.flatMap write ++ '"' :: s) : cs = ds ∧ r = s := by
  induction cs generalizing ds with
  | nil =>
      cases ds with
      | nil => exact ⟨rfl, (List.cons.inj heq).2⟩
      | cons d ds =>
          rw [List.flatMap_cons, List.append_assoc] at heq
          exact absurd heq.symm (h.noQuote d _ _)
  | cons c cs ih =>
      cases ds with
      | nil =>
          rw [List.flatMap_cons, List.append_assoc] at heq
          exact absurd heq (h.noQuote c _ _)
      | cons d ds =>
          rw [List.flatMap_cons, List.flatMap_cons, List.append_assoc, List.append_assoc] at heq
          obtain ⟨rfl, htail⟩ := h.inj c d _ _ heq
          obtain ⟨rfl, rfl⟩ := ih htail
          exact ⟨rfl, rfl⟩

/-- Escapes start with a backslash, and none of them starts with another; all other characters stand
for themselves. -/
theorem code_of_escapes {write : Char → List Char} (escaped : Char → Prop) (hquote : escaped '"')
    (hslash : escaped '\\') (hhead : ∀ c, escaped c → (write c).head? = some '\\')
    (hcodes : ∀ c d, escaped c → escaped d → write c <+: write d → c = d)
    (hplain : ∀ c, ¬ escaped c → write c = [c]) : Code write := by
  refine ⟨fun c d r s h => ?_, fun c r s h => ?_⟩
  · -- both sides of an equation are escapes, or neither is
    by_cases hc : escaped c <;> by_cases hd : escaped d
    · have hsame : c = d := by
        have hcs : write c <+: write d ++ s := ⟨r, h⟩
        rcases List.prefix_or_prefix_of_prefix hcs (List.prefix_append (write d) s) with hcd | hdc
        · exact hcodes c d hc hd hcd
        · exact (hcodes d c hd hc hdc).symm
      subst hsame
      exact ⟨rfl, List.append_cancel_left h⟩
    · have hne : d ≠ '\\' := fun heq => hd (heq ▸ hslash)
      have hfirst := congrArg List.head? h
      rw [List.head?_append, hhead c hc, hplain d hd] at hfirst
      exact absurd (Option.some.inj hfirst).symm hne
    · have hne : c ≠ '\\' := fun heq => hc (heq ▸ hslash)
      have hfirst := congrArg List.head? h
      rw [List.head?_append, List.head?_append, hhead d hd, hplain c hc] at hfirst
      exact absurd (Option.some.inj hfirst) hne
    · rw [hplain c hc, hplain d hd] at h
      exact List.cons.inj h
  · have hfirst := congrArg List.head? h
    by_cases hc : escaped c
    · rw [List.head?_append, hhead c hc] at hfirst
      exact absurd (Option.some.inj hfirst) (by decide)
    · rw [hplain c hc] at hfirst
      exact hc (Option.some.inj hfirst ▸ hquote)

/-- The control characters, the quote and the backslash. -/
def specials : List Char := '"' :: '\\' :: (List.range 32).map Char.ofNat

theorem not_control_of_not_mem {c : Char} (h : c ∉ specials) :
    c ≠ '"' ∧ c ≠ '\\' ∧ 32 ≤ c.toNat := by
  simp only [specials, List.mem_cons, List.mem_map, List.mem_range, not_or, not_exists, not_and] at h
  obtain ⟨hquote, hslash, hcontrol⟩ := h
  refine ⟨hquote, hslash, Nat.not_lt.1 fun hlt => hcontrol c.toNat hlt ?_⟩
  exact Char.ofNat_toNat c

theorem code_escapeChar : Code escapeChar := by
  have hhead : (specials.all fun c => (escapeChar c).head? == some '\\') = true := by
    decide +kernel
  have hcodes : (specials.all fun c => specials.all fun d =>
      !(escapeChar c).isPrefixOf (escapeChar d) || c == d) = true := by decide +kernel
  have hprefix : ∀ c d, c ∈ specials → d ∈ specials → escapeChar c <+: escapeChar d → c = d := by
    intro c d hc hd hcd
    have hall := List.all_eq_true.1 (List.all_eq_true.1 hcodes c hc) d hd
    rw [List.isPrefixOf_iff_prefix.2 hcd] at hall
    exact eq_of_beq hall
  refine code_of_escapes (· ∈ specials) (by decide) (by decide)
    (fun c hc => eq_of_beq (List.all_eq_true.1 hhead c hc)) hprefix fun c hc => ?_
  obtain ⟨hquote, hslash, hcontrol⟩ := not_control_of_not_mem hc
  have hne : ∀ d : Char, d.toNat < 32 → c ≠ d := by
    rintro d hd rfl
    omega
  have hnat : ∀ n, n < 32 → c.toNat ≠ n := fun n hn heq => by omega
  simp [escapeChar, hquote, hslash, hne '\n' (by decide), hne '\r' (by decide),
    hne '\t' (by decide), hnat 8 (by decide), hnat 12 (by decide), Nat.not_lt.2 hcontrol]

theorem quote_append_inj {s t : String} {r r' : List Char}
    (h : (quote s).toList ++ r = (quote t).toList ++ r') : s = t ∧ r = r' := by
  simp only [quote, String.toList_ofList, List.cons_append, List.append_assoc, List.cons.injEq,
    true_and, List.nil_append] at h
  obtain ⟨hs, rfl⟩ := code_escapeChar.flatMap_inj h
  exact ⟨String.toList_inj.1 hs, rfl⟩

/-! ## Values -/

mutual
/-- All numbers are in the form in which they are read. -/
def Normal : Json → Prop
  | .number n => n.Normal
  | .array items => NormalItems items
  | .object members => NormalMembers members
  | _ => True

def NormalItems : List Json → Prop
  | [] => True
  | x :: rest => Normal x ∧ NormalItems rest

def NormalMembers : List (String × Json) → Prop
  | [] => True
  | (_, v) :: rest => Normal v ∧ NormalMembers rest
end

/-- What kind of value it is. -/
def sort : Json → Nat
  | .null => 0
  | .bool true => 1
  | .bool false => 2
  | .number _ => 3
  | .string _ => 4
  | .array _ => 5
  | .object _ => 6

/-- The first character of a text shows the kind of its value. -/
def sortOfHead : Char → Nat
  | 'n' => 0
  | 't' => 1
  | 'f' => 2
  | '"' => 4
  | '[' => 5
  | '\x7b' => 6
  | _ => 3

theorem sortOfHead_of_numeral {c : Char} (h : c ∈ Number.numerals) : sortOfHead c = 3 := by
  have hall : (Number.numerals.all fun c => sortOfHead c == 3) = true := by decide
  exact eq_of_beq (List.all_eq_true.1 hall c h)

theorem not_end_of_numeral {c : Char} (h : c ∈ Number.numerals) : c ∉ [',', ']', '}'] := by
  have hall : (Number.numerals.all fun c => !([',', ']', '}'].contains c)) = true := by decide
  simpa using List.all_eq_true.1 hall c h

theorem text_head {v : Json} (hv : v.Normal) :
    ∃ c rest, (text v).toList = c :: rest ∧ sortOfHead c = v.sort ∧ c ∉ [',', ']', '}'] := by
  cases v with
  | null => exact ⟨'n', "ull".toList, by rfl, rfl, by decide⟩
  | bool b =>
      cases b with
      | true => exact ⟨'t', "rue".toList, by rfl, rfl, by decide⟩
      | false => exact ⟨'f', "alse".toList, by rfl, rfl, by decide⟩
  | number n =>
      obtain ⟨⟨d, rest, hd, -⟩, hchars⟩ := Number.text_shape (show n.Normal from hv)
      have hmem := hchars d (hd ▸ List.mem_cons_self)
      exact ⟨d, rest, hd, sortOfHead_of_numeral hmem, not_end_of_numeral hmem⟩
  | string s =>
      exact ⟨'"', s.toList.flatMap escapeChar ++ ['"'], by simp [text, quote], rfl, by decide⟩
  | array xs =>
      exact ⟨'[', (textItems xs).toList ++ [']'], by simp [text, String.toList_append], rfl, by decide⟩
  | object ms =>
      exact ⟨'\x7b', (textMembers ms).toList ++ ['}'], by simp [text, String.toList_append], rfl,
        by decide⟩

theorem sort_eq_of_text {v w : Json} {r s : List Char} (hv : v.Normal) (hw : w.Normal)
    (h : (text v).toList ++ r = (text w).toList ++ s) : v.sort = w.sort := by
  obtain ⟨c, rest, hc, hsort, -⟩ := text_head hv
  obtain ⟨d, rest', hd, hsort', -⟩ := text_head hw
  rw [hc, hd] at h
  rw [← hsort, ← hsort', (List.cons.inj h).1]

theorem number_append_inj {m n : Number} {r s : List Char} (hm : m.Normal) (hn : n.Normal)
    (hr : Ends r) (hs : Ends s) (h : m.text.toList ++ r = n.text.toList ++ s) : m = n ∧ r = s := by
  obtain ⟨htext, hrest⟩ := append_inj_of_forall (p := (· ∈ Number.numerals))
    (Number.text_shape hm).2 (Number.text_shape hn).2
    (fun c hc hnum => not_end_of_numeral hnum (hr c hc))
    (fun c hc hnum => not_end_of_numeral hnum (hs c hc)) h
  exact ⟨Number.eq_of_text_eq hm hn (String.toList_inj.1 htext), hrest⟩

/-! ## Lists -/

/-- Texts with commas between them. -/
def separated {α : Type} (write : α → List Char) : List α → List Char
  | [] => []
  | [x] => write x
  | x :: rest => write x ++ ',' :: separated write rest

theorem separated_cons {α : Type} (write : α → List Char) (x y : α) (rest : List α) :
    separated write (x :: y :: rest) = write x ++ ',' :: separated write (y :: rest) := rfl

theorem textItems_eq (xs : List Json) :
    (textItems xs).toList = separated (fun x => (text x).toList) xs := by
  induction xs with
  | nil => rfl
  | cons x rest ih =>
      cases rest with
      | nil => rfl
      | cons y rest =>
          rw [separated_cons, ← ih, textItems]
          · simp [String.toList_append]
          · exact List.cons_ne_nil y rest

/-- The text of a member. -/
def textMember (m : String × Json) : List Char := (quote m.1).toList ++ ':' :: (text m.2).toList

theorem textMember_eq (m : String × Json) : textMember m =
    '"' :: (m.1.toList.flatMap escapeChar ++ '"' :: ':' :: (text m.2).toList) := by
  simp [textMember, quote]

theorem textMembers_eq (ms : List (String × Json)) :
    (textMembers ms).toList = separated textMember ms := by
  induction ms with
  | nil => rfl
  | cons m rest ih =>
      obtain ⟨k, v⟩ := m
      cases rest with
      | nil => simp [textMembers, separated, textMember, String.toList_append]
      | cons n rest =>
          rw [separated_cons, ← ih, textMembers]
          · simp [textMember, String.toList_append]
          · exact List.cons_ne_nil n rest

/-- Separated texts show where they end if each of them does. -/
theorem separated_append_inj {α : Type} {write : α → List Char} (close : Char) {xs ys : List α}
    {r s : List Char} (hclose : close ∈ [']', '}'])
    (hhead : ∀ x, x ∈ xs ∨ x ∈ ys → ∃ c rest, write x = c :: rest ∧ c ∉ [',', ']', '}'])
    (hinj : ∀ x ∈ xs, ∀ y ∈ ys, ∀ r s, Ends r → Ends s → write x ++ r = write y ++ s →
      x = y ∧ r = s)
    (h : separated write xs ++ close :: r = separated write ys ++ close :: s) : xs = ys ∧ r = s := by
  have hmem : close ∈ [',', ']', '}'] := List.mem_cons_of_mem _ hclose
  have hcomma : close ≠ ',' := by
    rintro rfl
    revert hclose
    decide
  induction xs generalizing ys with
  | nil =>
      cases ys with
      | nil => exact ⟨rfl, (List.cons.inj h).2⟩
      | cons y ys =>
          obtain ⟨c, rest, hc, hnot⟩ := hhead y (.inr List.mem_cons_self)
          cases ys with
          | nil =>
              simp only [separated, hc, List.nil_append, List.cons_append, List.cons.injEq] at h
              exact absurd (h.1 ▸ hmem) hnot
          | cons y' ys =>
              simp only [separated, hc, List.nil_append, List.cons_append, List.cons.injEq] at h
              exact absurd (h.1 ▸ hmem) hnot
  | cons x xs ih =>
      cases ys with
      | nil =>
          obtain ⟨c, rest, hc, hnot⟩ := hhead x (.inl List.mem_cons_self)
          cases xs with
          | nil =>
              simp only [separated, hc, List.nil_append, List.cons_append, List.cons.injEq] at h
              exact absurd (h.1 ▸ hmem) hnot
          | cons x' xs =>
              simp only [separated, hc, List.nil_append, List.cons_append, List.cons.injEq] at h
              exact absurd (h.1 ▸ hmem) hnot
      | cons y ys =>
          have hfirst := hinj x List.mem_cons_self y List.mem_cons_self
          cases xs with
          | nil =>
              cases ys with
              | nil =>
                  obtain ⟨rfl, hrest⟩ := hfirst _ _ (ends_cons hmem) (ends_cons hmem) h
                  exact ⟨rfl, (List.cons.inj hrest).2⟩
              | cons y' ys =>
                  rw [separated_cons, List.append_assoc] at h
                  obtain ⟨-, hrest⟩ := hfirst _ _ (ends_cons hmem) (ends_cons (by decide)) h
                  exact absurd (List.cons.inj hrest).1 hcomma
          | cons x' xs =>
              cases ys with
              | nil =>
                  rw [separated_cons, List.append_assoc] at h
                  obtain ⟨-, hrest⟩ := hfirst _ _ (ends_cons (by decide)) (ends_cons hmem) h
                  exact absurd (List.cons.inj hrest).1.symm hcomma
              | cons y' ys =>
                  rw [separated_cons, separated_cons, List.append_assoc, List.append_assoc] at h
                  obtain ⟨rfl, hrest⟩ := hfirst _ _ (ends_cons (by decide)) (ends_cons (by decide)) h
                  obtain ⟨htail, rfl⟩ := ih
                    (fun z hz => hhead z (hz.imp (List.mem_cons_of_mem _) (List.mem_cons_of_mem _)))
                    (fun z hz w hw => hinj z (List.mem_cons_of_mem _ hz) w (List.mem_cons_of_mem _ hw))
                    (List.cons.inj hrest).2
                  exact ⟨by rw [htail], rfl⟩

theorem normal_of_mem {xs : List Json} (h : NormalItems xs) : ∀ x ∈ xs, x.Normal := by
  induction xs with
  | nil => nofun
  | cons x rest ih =>
      intro y hy
      rcases List.mem_cons.1 hy with rfl | hy
      · exact h.1
      · exact ih h.2 y hy

theorem normal_of_mem_members {ms : List (String × Json)} (h : NormalMembers ms) :
    ∀ m ∈ ms, m.2.Normal := by
  induction ms with
  | nil => nofun
  | cons m rest ih =>
      intro n hn
      rcases List.mem_cons.1 hn with rfl | hn
      · exact h.1
      · exact ih h.2 n hn

/-- The text of a value shows where it ends, and belongs to no other value. -/
def Readable (v : Json) : Prop :=
  ∀ w r s, w.Normal → Ends r → Ends s → (text v).toList ++ r = (text w).toList ++ s → v = w ∧ r = s

theorem array_append_inj {xs ys : List Json} {r s : List Char} (hx : ∀ x ∈ xs, x.Normal)
    (hy : ∀ y ∈ ys, y.Normal) (hread : ∀ x ∈ xs, Readable x)
    (h : (text (.array xs)).toList ++ r = (text (.array ys)).toList ++ s) : xs = ys ∧ r = s := by
  simp only [text, String.toList_append, List.append_assoc, textItems_eq] at h
  refine separated_append_inj ']' (by decide) (fun x hmem => ?_)
    (fun x hmem y hmem' r s hr hs heq => hread x hmem y r s (hy y hmem') hr hs heq)
    (List.append_cancel_left h)
  obtain ⟨c, rest, hc, -, hnot⟩ := text_head (hmem.elim (hx x) (hy x))
  exact ⟨c, rest, hc, hnot⟩

theorem object_append_inj {ms ns : List (String × Json)} {r s : List Char}
    (hn : ∀ n ∈ ns, n.2.Normal) (hread : ∀ m ∈ ms, Readable m.2)
    (h : (text (.object ms)).toList ++ r = (text (.object ns)).toList ++ s) : ms = ns ∧ r = s := by
  simp only [text, String.toList_append, List.append_assoc, textMembers_eq] at h
  refine separated_append_inj '}' (by decide) (fun m _ => ⟨'"', _, textMember_eq m, by decide⟩)
    (fun m hm n hmem r s hr hs heq => ?_) (List.append_cancel_left h)
  simp only [textMember, List.append_assoc, List.cons_append] at heq
  obtain ⟨hkey, hrest⟩ := quote_append_inj heq
  obtain ⟨hvalue, rfl⟩ := hread m hm n.2 r s (hn n hmem) hr hs (List.cons.inj hrest).2
  exact ⟨Prod.ext hkey hvalue, rfl⟩

theorem readable_bool (b : Bool) : Readable (.bool b) := by
  intro w r s hw hr hs h
  have hsort := sort_eq_of_text (v := .bool b) trivial hw h
  cases w with
  | bool b' =>
      obtain rfl : b = b' := by cases b <;> cases b' <;> first | rfl | cases hsort
      exact ⟨rfl, List.append_cancel_left h⟩
  | _ => cases b <;> cases hsort

theorem exists_of_sort (w : Json) :
    (w.sort = 0 → w = .null) ∧ (w.sort = 3 → ∃ n, w = .number n) ∧ (w.sort = 4 → ∃ a, w = .string a) ∧
      (w.sort = 5 → ∃ xs, w = .array xs) ∧ (w.sort = 6 → ∃ ms, w = .object ms) := by
  cases w with
  | bool b => cases b <;> simp [sort]
  | _ => simp [sort]

theorem readable_of_normal {v : Json} (hv : v.Normal) : Readable v := by
  induction hsize : sizeOf v using Nat.strongRecOn generalizing v with
  | ind n ih =>
      intro w r s hw hr hs h
      have hsort := sort_eq_of_text hv hw h
      cases v with
      | null =>
          obtain rfl := (exists_of_sort w).1 hsort.symm
          exact ⟨rfl, List.append_cancel_left h⟩
      | bool b => exact readable_bool b w r s hw hr hs h
      | number m =>
          obtain ⟨n, rfl⟩ := (exists_of_sort w).2.1 hsort.symm
          obtain ⟨rfl, rfl⟩ := number_append_inj hv hw hr hs h
          exact ⟨rfl, rfl⟩
      | string a =>
          obtain ⟨b, rfl⟩ := (exists_of_sort w).2.2.1 hsort.symm
          obtain ⟨rfl, rfl⟩ := quote_append_inj h
          exact ⟨rfl, rfl⟩
      | array xs =>
          obtain ⟨ys, rfl⟩ := (exists_of_sort w).2.2.2.1 hsort.symm
          have hread : ∀ x ∈ xs, Readable x := by
            intro x hx
            have := List.sizeOf_lt_of_mem hx
            refine ih (sizeOf x) ?_ (normal_of_mem hv x hx) rfl
            simp only [Json.array.sizeOf_spec] at hsize
            omega
          obtain ⟨rfl, rfl⟩ := array_append_inj (normal_of_mem hv) (normal_of_mem hw) hread h
          exact ⟨rfl, rfl⟩
      | object ms =>
          obtain ⟨ns, rfl⟩ := (exists_of_sort w).2.2.2.2 hsort.symm
          have hread : ∀ m ∈ ms, Readable m.2 := by
            rintro ⟨k, x⟩ hm
            have := List.sizeOf_lt_of_mem hm
            refine ih (sizeOf x) ?_ (normal_of_mem_members hv (k, x) hm) rfl
            simp only [Json.object.sizeOf_spec] at hsize
            simp only [Prod.mk.sizeOf_spec] at this
            omega
          obtain ⟨rfl, rfl⟩ := object_append_inj (normal_of_mem_members hw) hread h
          exact ⟨rfl, rfl⟩

end Typewright.Json
