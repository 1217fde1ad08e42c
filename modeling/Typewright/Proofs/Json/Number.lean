import Mathlib.Data.List.TakeWhile
import Typewright.Proofs.Json.Decimal

/-!
# Numbers have distinct texts

`decimalValue` gives the rational that a decimal text stands for. The text of a double stands for a
rational that rounds to the double, whatever layout is chosen for its digits, and shows a point or an
exponent, which the text of an integer does not.
-/

namespace Typewright

namespace Number

/-- The form of every number that is read. -/
def Normal : Number → Prop
  | .integer _ => True
  | .double x => x.Normal

/-! ## The value of a decimal text -/

/-- The power of ten after the letter of an exponent. -/
def exponentValue : List Char → ℤ
  | _ :: '-' :: digits => -(Nat.ofDigitChars 10 digits 0 : ℤ)
  | _ :: _ :: digits => Nat.ofDigitChars 10 digits 0
  | _ => 0

/-- The digits behind the point of a mantissa. -/
def fraction (mantissa : List Char) : List Char := (mantissa.dropWhile (· != '.')).drop 1

/-- The rational that a mantissa stands for under an exponent. -/
def mantissaValue (mantissa : List Char) (exponent : ℤ) : ℚ :=
  Double.digitsValue (mantissa.takeWhile (· != '.') ++ fraction mantissa)
    (exponent - (fraction mantissa).length)

/-- The rational that an unsigned decimal text stands for. -/
def decimalValue (text : List Char) : ℚ :=
  mantissaValue (text.takeWhile (· != 'e')) (exponentValue (text.dropWhile (· != 'e')))

/-- Nothing but digits. -/
def Digits (cs : List Char) : Prop := ∀ c ∈ cs, c.isDigit = true

theorem Digits.append {cs ds : List Char} (h : Digits cs) (h' : Digits ds) : Digits (cs ++ ds) :=
  fun c hc => (List.mem_append.1 hc).elim (h c) (h' c)

theorem digits_zeros (n : ℕ) : Digits (List.replicate n '0') := by
  intro c hc
  rw [List.eq_of_mem_replicate hc]
  rfl

theorem Digits.ne {cs : List Char} (h : Digits cs) {d : Char} (hd : d.isDigit = false) :
    ∀ c ∈ cs, (c != d) = true := by
  intro c hc
  have : c ≠ d := by
    rintro rfl
    rw [h c hc] at hd
    cases hd
  simpa using this

theorem takeWhile_ne_append {cs rest : List Char} {d : Char} (h : ∀ c ∈ cs, (c != d) = true) :
    (cs ++ d :: rest).takeWhile (· != d) = cs := by
  rw [List.takeWhile_append_of_pos h, List.takeWhile_cons]
  simp

theorem dropWhile_ne_append {cs rest : List Char} {d : Char} (h : ∀ c ∈ cs, (c != d) = true) :
    (cs ++ d :: rest).dropWhile (· != d) = d :: rest := by
  rw [List.dropWhile_append_of_pos h, List.dropWhile_cons]
  simp

theorem mantissaValue_point {whole behind : List Char} (hw : Digits whole) (exponent : ℤ) :
    mantissaValue (whole ++ '.' :: behind) exponent =
      Double.digitsValue (whole ++ behind) (exponent - behind.length) := by
  have hfraction : fraction (whole ++ '.' :: behind) = behind := by
    rw [fraction, dropWhile_ne_append (hw.ne (by decide))]
    rfl
  rw [mantissaValue, hfraction, takeWhile_ne_append (hw.ne (by decide))]

theorem mantissaValue_whole {whole : List Char} (hw : Digits whole) (exponent : ℤ) :
    mantissaValue whole exponent = Double.digitsValue whole exponent := by
  have hne := hw.ne (d := '.') (by decide)
  have hfraction : fraction whole = [] := by
    rw [fraction, List.dropWhile_eq_nil_iff.2 hne]
    rfl
  rw [mantissaValue, hfraction, List.takeWhile_eq_self_iff.2 hne]
  simp

theorem decimalValue_mantissa {mantissa : List Char} (h : ∀ c ∈ mantissa, (c != 'e') = true) :
    decimalValue mantissa = mantissaValue mantissa 0 := by
  rw [decimalValue, List.takeWhile_eq_self_iff.2 h, List.dropWhile_eq_nil_iff.2 h]
  rfl

theorem decimalValue_exponent {mantissa digits : List Char}
    (h : ∀ c ∈ mantissa, (c != 'e') = true) : decimalValue (mantissa ++ 'e' :: digits) =
      mantissaValue mantissa (exponentValue ('e' :: digits)) := by
  rw [decimalValue, takeWhile_ne_append h, dropWhile_ne_append h]

theorem digitsValue_zeros_append (n : ℕ) (digits : List Char) (unit : ℤ) :
    Double.digitsValue (List.replicate n '0' ++ digits) unit = Double.digitsValue digits unit := by
  unfold Double.digitsValue
  rw [Double.ofDigitChars_append_eq, Nat.ofDigitChars_replicate_zero]
  simp

/-! ## Layouts -/

/-- The characters of a number. -/
def numerals : List Char := "0123456789.e+-".toList

theorem mem_numerals_of_isDigit {c : Char} (h : c.isDigit = true) : c ∈ numerals := by
  have hdigits : ∀ n < 10, Char.ofNat (48 + n) ∈ numerals := by decide
  simp only [Char.isDigit, Bool.and_eq_true, decide_eq_true_eq] at h
  have hlow : 48 ≤ c.toNat := h.1
  have hhigh : c.toNat ≤ 57 := h.2
  have := hdigits (c.toNat - 48) (by omega)
  rwa [Nat.add_sub_cancel' hlow, Char.ofNat_toNat] at this

/-- An unsigned text with a point or an exponent that stands for a rational. -/
structure Decimal (text : List Char) (v : ℚ) : Prop where
  starts : ∃ d rest, text = d :: rest ∧ d.isDigit = true
  numerals : ∀ c ∈ text, c ∈ numerals
  marked : '.' ∈ text ∨ 'e' ∈ text
  value : decimalValue text = v

theorem Decimal.congr {text text' : List Char} {v v' : ℚ} (h : Decimal text v)
    (ht : text' = text) (hv : v' = v) : Decimal text' v' := by
  rw [ht, hv]
  exact h

theorem decimal_point {whole behind : List Char} (hw : Digits whole) (hb : Digits behind)
    (hne : whole ≠ []) :
    Decimal (whole ++ '.' :: behind) (Double.digitsValue (whole ++ behind) (-behind.length)) where
  starts := by
    cases whole with
    | nil => exact absurd rfl hne
    | cons d rest => exact ⟨d, rest ++ '.' :: behind, rfl, hw d List.mem_cons_self⟩
  numerals c hc := by
    rcases List.mem_append.1 hc with hc | hc
    · exact mem_numerals_of_isDigit (hw c hc)
    · rcases List.mem_cons.1 hc with rfl | hc
      · decide
      · exact mem_numerals_of_isDigit (hb c hc)
  marked := .inl (List.mem_append_right _ List.mem_cons_self)
  value := by
    have hmantissa : ∀ c ∈ whole ++ '.' :: behind, (c != 'e') = true := by
      intro c hc
      rcases List.mem_append.1 hc with hc | hc
      · exact hw.ne (by decide) c hc
      · rcases List.mem_cons.1 hc with rfl | hc
        · decide
        · exact hb.ne (by decide) c hc
    rw [decimalValue_mantissa hmantissa, mantissaValue_point hw, zero_sub]

theorem exponentValue_natAbs (n : ℤ) : exponentValue
    ('e' :: (if n < 0 then '-' else '+') :: Nat.toDigits 10 n.natAbs) = n := by
  split
  · show -(Nat.ofDigitChars 10 (Nat.toDigits 10 n.natAbs) 0 : ℤ) = n
    rw [Nat.ofDigitChars_ten_toDigits]
    omega
  · show (Nat.ofDigitChars 10 (Nat.toDigits 10 n.natAbs) 0 : ℤ) = n
    rw [Nat.ofDigitChars_ten_toDigits]
    omega

theorem decimal_exponent {d : Char} {behind : List Char} (hd : d.isDigit = true)
    (hb : Digits behind) (n : ℤ) :
    Decimal ([d] ++ (if behind.isEmpty then [] else '.' :: behind) ++
        'e' :: (if n < 0 then '-' else '+') :: Nat.toDigits 10 n.natAbs)
      (Double.digitsValue (d :: behind) (n - behind.length)) where
  starts := ⟨d, _, rfl, hd⟩
  numerals c hc := by
    have hdigits : Digits (Nat.toDigits 10 n.natAbs) := fun c hc =>
      Nat.isDigit_of_mem_toDigits (by decide) (by decide) hc
    rcases List.mem_append.1 hc with hc | hc
    · rcases List.mem_append.1 hc with hc | hc
      · rw [List.mem_singleton.1 hc]
        exact mem_numerals_of_isDigit hd
      · split at hc
        · cases hc
        · rcases List.mem_cons.1 hc with rfl | hc
          · decide
          · exact mem_numerals_of_isDigit (hb c hc)
    · rcases List.mem_cons.1 hc with rfl | hc
      · decide
      · rcases List.mem_cons.1 hc with rfl | hc
        · split <;> decide
        · exact mem_numerals_of_isDigit (hdigits c hc)
  marked := .inr (List.mem_append_right _ List.mem_cons_self)
  value := by
    have hfirst : Digits [d] := by simpa [Digits] using hd
    have hmantissa : ∀ c ∈ [d] ++ (if behind.isEmpty then [] else '.' :: behind),
        (c != 'e') = true := by
      intro c hc
      rcases List.mem_append.1 hc with hc | hc
      · exact hfirst.ne (by decide) c hc
      · split at hc
        · cases hc
        · rcases List.mem_cons.1 hc with rfl | hc
          · decide
          · exact hb.ne (by decide) c hc
    rw [decimalValue_exponent hmantissa, exponentValue_natAbs]
    cases behind with
    | nil => simpa using mantissaValue_whole hfirst n
    | cons b rest => exact mantissaValue_point hfirst n

/-- The layout of digits stands for their value. -/
theorem decimal_layout {digits : List Char} (hd : Digits digits) (hne : digits ≠ []) (e : ℤ) :
    Decimal (layout digits e) (Double.digitsValue digits (e + 1 - digits.length)) := by
  unfold layout
  split
  · split
    · rename_i hrange hpos
      obtain ⟨w, hw⟩ : ∃ w, w = e.toNat + 1 := ⟨_, rfl⟩
      have hpad : Digits (digits.take w ++ List.replicate (w - digits.length) '0') :=
        Digits.append (fun c hc => hd c (List.mem_of_mem_take hc)) (digits_zeros _)
      have hne' : digits.take w ++ List.replicate (w - digits.length) '0' ≠ [] := by
        simp [hw, hne]
      rw [← hw]
      by_cases hlen : digits.length ≤ w
      · -- all digits stand before the point
        have hdrop : digits.drop w = [] := List.drop_eq_nil_of_le hlen
        refine (decimal_point hpad (digits_zeros 1) hne').congr (by simp [hdrop]) ?_
        rw [List.take_of_length_le hlen, List.append_assoc, ← List.replicate_add,
          Double.digitsValue_append_zeros, List.length_replicate]
        congr 1
        omega
      · have hlt : w < digits.length := Nat.lt_of_not_le hlen
        have hpad0 : w - digits.length = 0 := Nat.sub_eq_zero_of_le hlt.le
        have hdrop : (digits.drop w).isEmpty = false := by
          simpa [List.isEmpty_eq_false_iff] using hlt
        have hbehind : Digits (digits.drop w) := fun c hc => hd c (List.mem_of_mem_drop hc)
        refine (decimal_point hpad hbehind hne').congr (by simp [hdrop]) ?_
        rw [hpad0, List.replicate_zero, List.append_nil, List.take_append_drop, List.length_drop]
        congr 1
        omega
    · rename_i hrange hneg
      refine (decimal_point (digits_zeros 1) ((digits_zeros (e.natAbs - 1)).append hd)
        (by decide)).congr (by simp) ?_
      rw [← List.append_assoc, ← List.replicate_add, digitsValue_zeros_append, List.length_append,
        List.length_replicate]
      congr 1
      omega
  · cases digits with
    | nil => exact absurd rfl hne
    | cons d behind =>
        refine (decimal_exponent (hd d List.mem_cons_self)
          (fun c hc => hd c (List.mem_cons_of_mem _ hc)) e).congr rfl ?_
        rw [List.length_cons]
        congr 1
        omega

/-! ## The text of a number -/

theorem digits_shortest (x : Double) : Digits x.shortest.1 := by
  rcases hks : x.shortestFrom x.pointPosition 1 17 with ⟨k, unit⟩
  rcases hds : Double.stripZeros (Nat.toDigits 10 k) unit with ⟨digits, unit'⟩
  have hshortest : x.shortest.1 = digits := by
    rw [Double.shortest, hks]
    simp only [hds]
  have hdigits : digits = ((Nat.toDigits 10 k).reverse.dropWhile (· == '0')).reverse :=
    (congrArg Prod.fst hds).symm
  intro c hc
  rw [hshortest, hdigits, List.mem_reverse] at hc
  have hmem := List.mem_reverse.1 ((List.dropWhile_sublist _).subset hc)
  exact Nat.isDigit_of_mem_toDigits (by decide) (by decide) hmem

/-- The text of a double is a sign before the decimal text of a rational that rounds to it. -/
theorem exists_decimal {x : Double} (hx : x.Normal) : ∃ body v, Decimal body v ∧
    (text (.double x)).toList = (if x.negative then '-' :: body else body) ∧
    (x.significand = 0 → v = 0) ∧ (0 < x.significand → Double.RoundsTo v x) := by
  rcases Nat.eq_zero_or_pos x.significand with hzero | hpos
  · refine ⟨['0', '.', '0'], 0, (decimal_point (digits_zeros 1) (digits_zeros 1) (by decide)).congr rfl ?_,
      ?_, fun _ => rfl, fun h => absurd h (by omega)⟩
    · simp [Double.digitsValue, Nat.ofDigitChars]
    · simp [text, Double.isZero, hzero]
  · have hround := Double.roundsTo_shortest hx hpos
    have hne : x.shortest.1 ≠ [] := by
      intro hnil
      have := hround.pos hpos
      simp [hnil, Double.digitsValue] at this
    refine ⟨_, _, decimal_layout (digits_shortest x) hne x.shortest.2, ?_, fun h => absurd h (by omega),
      fun _ => hround⟩
    have hnonzero : x.isZero = false := by simpa [Double.isZero] using hpos.ne'
    simp [text, hnonzero]

theorem Decimal.head_ne {body : List Char} {v : ℚ} (h : Decimal body v) : body.head? ≠ some '-' := by
  obtain ⟨d, rest, rfl, hd⟩ := h.starts
  rintro heq
  obtain rfl := Option.some.inj heq
  cases hd

/-- The characters of an integer are its sign and its digits. -/
theorem mem_text_integer {n : ℤ} {c : Char} (h : c ∈ (text (.integer n)).toList) :
    c = '-' ∨ c.isDigit = true := by
  have hdigits : ∀ m : ℕ, c ∈ (Nat.repr m).toList → c.isDigit = true := by
    intro m hm
    rw [Nat.toList_repr] at hm
    exact Nat.isDigit_of_mem_toDigits (by decide) (by decide) hm
  cases n with
  | ofNat m => exact .inr (hdigits m h)
  | negSucc m =>
      have h : c ∈ ("-" ++ Nat.repr (m + 1)).toList := h
      rw [String.toList_append, List.mem_append] at h
      rcases h with h | h
      · exact .inl (by simpa using h)
      · exact .inr (hdigits _ h)

theorem integer_inj {m n : ℤ} (h : text (.integer m) = text (.integer n)) : m = n := by
  have hrepr : ∀ a b : ℕ, Nat.repr a = Nat.repr b → a = b := by
    intro a b hab
    have := congrArg (fun s => Nat.ofDigitChars 10 s.toList 0) hab
    simpa only [Nat.toList_repr, Nat.ofDigitChars_ten_toDigits] using this
  have hsign : ∀ a b : ℕ, Nat.repr a ≠ "-" ++ Nat.repr b := by
    intro a b hab
    have hmem : '-' ∈ (Nat.repr a).toList := by simp [hab, String.toList_append]
    rw [Nat.toList_repr] at hmem
    have := Nat.isDigit_of_mem_toDigits (by decide) (by decide) hmem
    cases this
  cases m with
  | ofNat a =>
      cases n with
      | ofNat b => rw [hrepr a b h]
      | negSucc b => exact absurd h (hsign a (b + 1))
  | negSucc a =>
      cases n with
      | ofNat b => exact absurd h.symm (hsign b (a + 1))
      | negSucc b =>
          have h : "-" ++ Nat.repr (a + 1) = "-" ++ Nat.repr (b + 1) := h
          have hab := hrepr (a + 1) (b + 1) (by
            have := congrArg String.toList h
            rw [String.toList_append, String.toList_append] at this
            exact String.toList_inj.1 (List.append_cancel_left this))
          rw [Nat.succ.inj hab]

theorem double_inj {x y : Double} (hx : x.Normal) (hy : y.Normal)
    (h : text (.double x) = text (.double y)) : x = y := by
  obtain ⟨body, v, hbody, htext, hzero, hround⟩ := exists_decimal hx
  obtain ⟨body', v', hbody', htext', hzero', hround'⟩ := exists_decimal hy
  rw [h, htext'] at htext
  have hsame : x.negative = y.negative ∧ body = body' := by
    cases hxs : x.negative <;> cases hys : y.negative <;> simp only [hxs, hys] at htext
    · exact ⟨rfl, htext.symm⟩
    · exact absurd (by rw [← (show '-' :: body' = body from htext)]; rfl) hbody.head_ne
    · exact absurd (by rw [(show body' = '-' :: body from htext)]; rfl) hbody'.head_ne
    · exact ⟨rfl, (List.cons.inj htext).2.symm⟩
  obtain ⟨hsign, rfl⟩ := hsame
  obtain rfl : v = v' := hbody.value.symm.trans hbody'.value
  rcases Nat.eq_zero_or_pos x.significand with hx0 | hxpos
  · rcases Nat.eq_zero_or_pos y.significand with hy0 | hypos
    · have hexp : ∀ {z : Double}, z.Normal → z.significand = 0 → z.exponent = 0 := by
        intro z hz hz0
        refine hz.2.2.resolve_right fun hle => ?_
        rw [hz0] at hle
        exact absurd hle (by decide)
      obtain ⟨s, m, e⟩ := x
      obtain ⟨s', m', e'⟩ := y
      obtain rfl : s = s' := hsign
      obtain rfl : m = 0 := hx0
      obtain rfl : m' = 0 := hy0
      obtain rfl : e = 0 := hexp hx rfl
      obtain rfl : e' = 0 := hexp hy rfl
      rfl
    · exact absurd (hzero hx0) ((hround' hypos).pos hypos).ne'
  · rcases Nat.eq_zero_or_pos y.significand with hy0 | hypos
    · exact absurd (hzero' hy0) ((hround hxpos).pos hxpos).ne'
    · exact Double.eq_of_roundsTo hx hy hsign (hround hxpos) (hround' hypos)

/-- An integer and a double have different texts. -/
theorem integer_ne_double {n : ℤ} {x : Double} (hx : x.Normal) :
    text (.integer n) ≠ text (.double x) := by
  intro h
  obtain ⟨body, v, hbody, htext, -⟩ := exists_decimal hx
  have hmem : ∀ c ∈ body, c = '-' ∨ c.isDigit = true := by
    intro c hc
    refine mem_text_integer (n := n) ?_
    rw [h, htext]
    split
    · exact List.mem_cons_of_mem _ hc
    · exact hc
  rcases hbody.marked with hc | hc
  · exact absurd (hmem _ hc) (by decide)
  · exact absurd (hmem _ hc) (by decide)

/-- Distinct numbers have distinct texts. -/
theorem eq_of_text_eq {m n : Number} (hm : m.Normal) (hn : n.Normal) (h : m.text = n.text) :
    m = n := by
  cases m with
  | integer a =>
      cases n with
      | integer b => rw [integer_inj h]
      | double y => exact absurd h (integer_ne_double hn)
  | double x =>
      cases n with
      | integer b => exact absurd h.symm (integer_ne_double hm)
      | double y => rw [double_inj hm hn h]

/-- A number starts with a digit or its sign, and has no other characters than those of numbers. -/
theorem text_shape {n : Number} (hn : n.Normal) :
    (∃ d rest, n.text.toList = d :: rest ∧ (d = '-' ∨ d.isDigit = true)) ∧
      ∀ c ∈ n.text.toList, c ∈ numerals := by
  cases n with
  | integer a =>
      have hchars : ∀ c ∈ (text (.integer a)).toList, c = '-' ∨ c.isDigit = true :=
        fun c hc => mem_text_integer hc
      refine ⟨?_, fun c hc => ?_⟩
      · cases htext : (text (.integer a)).toList with
        | nil =>
            cases a with
            | ofNat m =>
                have hnil : (Nat.repr m).toList = [] := htext
                rw [Nat.toList_repr] at hnil
                exact absurd hnil Nat.toDigits_ne_nil
            | negSucc m =>
                have hnil : ("-" ++ Nat.repr (m + 1)).toList = [] := htext
                simp [String.toList_append] at hnil
        | cons d rest => exact ⟨d, rest, rfl, hchars d (htext ▸ List.mem_cons_self)⟩
      · rcases hchars c hc with rfl | hc
        · decide
        · exact mem_numerals_of_isDigit hc
  | double x =>
      obtain ⟨body, v, hbody, htext, -⟩ := exists_decimal hn
      rw [htext]
      split
      · refine ⟨⟨'-', body, rfl, .inl rfl⟩, fun c hc => ?_⟩
        rcases List.mem_cons.1 hc with rfl | hc
        · decide
        · exact hbody.numerals c hc
      · obtain ⟨d, rest, hd, hdigit⟩ := hbody.starts
        exact ⟨⟨d, rest, hd, .inr hdigit⟩, hbody.numerals⟩

end Number

end Typewright
