import Typewright.Json.Printer
import Typewright.Proofs.Json.Number

/-!
# What JSON texts are made of

The text of a value consists of words, numbers and strings, with commas and colons between them and
brackets around them. A property that these parts have and that putting them together keeps is one of
every text (`Compositional.text`).
-/

namespace Typewright

namespace Number

theorem mem_numerals_layout {digits : List Char} (h : Digits digits) (e : ℤ) :
    ∀ c ∈ layout digits e, c ∈ numerals := by
  have hdigit : ∀ c ∈ digits, c ∈ numerals := fun c hc => mem_numerals_of_isDigit (h c hc)
  have htake : ∀ n, ∀ c ∈ digits.take n, c ∈ numerals := fun n c hc =>
    hdigit c (List.mem_of_mem_take hc)
  have hdrop : ∀ n, ∀ c ∈ digits.drop n, c ∈ numerals := fun n c hc =>
    hdigit c (List.mem_of_mem_drop hc)
  have hzero : '0' ∈ numerals := by decide
  have hpoint : '.' ∈ numerals := by decide
  have hmark : 'e' ∈ numerals := by decide
  have hminus : '-' ∈ numerals := by decide
  have hplus : '+' ∈ numerals := by decide
  have hexponent : ∀ c ∈ Nat.toDigits 10 e.natAbs, c ∈ numerals := fun c hc =>
    mem_numerals_of_isDigit (Nat.isDigit_of_mem_toDigits (by decide) (by decide) hc)
  intro c hc
  unfold layout at hc
  grind

theorem mem_numerals_text (n : Number) : ∀ c ∈ n.text.toList, c ∈ numerals := by
  intro c hc
  cases n with
  | integer n =>
      rcases mem_text_integer hc with rfl | hdigit
      · decide
      · exact mem_numerals_of_isDigit hdigit
  | double x =>
      have hbody : ∀ d ∈ (if x.isZero then ['0', '.', '0'] else
          layout x.shortest.1 x.shortest.2), d ∈ numerals := by
        intro d hd
        split at hd
        · simp only [List.mem_cons, List.not_mem_nil, or_false] at hd
          rcases hd with rfl | rfl | rfl <;> decide
        · exact mem_numerals_layout (digits_shortest x) _ d hd
      rw [text, String.toList_ofList] at hc
      split at hc
      · rcases List.mem_cons.1 hc with rfl | hc
        · decide
        · exact hbody c hc
      · exact hbody c hc

theorem text_ne_nil (n : Number) : n.text.toList ≠ [] := by
  cases n with
  | integer n =>
      cases n with
      | ofNat m =>
          show (Nat.repr m).toList ≠ []
          rw [Nat.toList_repr]
          exact Nat.toDigits_ne_nil
      | negSucc m =>
          show ("-" ++ Nat.repr (m + 1)).toList ≠ []
          simp [String.toList_append]
  | double x =>
      have hlayout : ∀ digits e, layout digits e ≠ [] := by
        intro digits e
        unfold layout
        split_ifs <;> simp
      rw [text, String.toList_ofList]
      split
      · exact List.cons_ne_nil _ _
      · split
        · exact List.cons_ne_nil _ _
        · exact hlayout _ _

end Number

namespace Json

theorem hexDigit_mem (n : Nat) : hexDigit n ∈ "0123456789abcdef".toList := by
  rw [hexDigit, List.getD_eq_getElem?_getD]
  cases hget : "0123456789abcdef".toList[n]? with
  | none => decide
  | some c => exact List.mem_of_getElem? hget

/-- The written form of a character is the character, or some letters and digits behind a
backslash. -/
theorem escapeChar_cases (c : Char) :
    (escapeChar c = [c] ∧ c ≠ '"' ∧ c ≠ '\\' ∧ c ≠ '\n') ∨
      ∃ d more, escapeChar c = '\\' :: d :: more ∧ d ≠ '\n' ∧
        ∀ e ∈ more, e ∈ "0123456789abcdef".toList := by
  unfold escapeChar
  split_ifs with hquote hslash hline
  iterate 7 exact .inr ⟨_, [], rfl, by decide, nofun⟩
  · refine .inr ⟨'u', _, rfl, by decide, fun e he => ?_⟩
    simp only [List.mem_cons, List.not_mem_nil, or_false] at he
    rcases he with rfl | rfl | rfl | rfl
    · decide
    · decide
    · exact hexDigit_mem _
    · exact hexDigit_mem _
  · exact .inl ⟨rfl, by simpa using hquote, by simpa using hslash, by simpa using hline⟩

/-- What holds of words, numbers and strings, of two texts together and of a text in brackets. -/
structure Compositional (P : List Char → Prop) : Prop where
  nil : P []
  append : ∀ {cs ds}, P cs → P ds → P (cs ++ ds)
  word : ∀ cs ∈ ["null".toList, "true".toList, "false".toList, [','], [':']], P cs
  number : ∀ n : Number, P n.text.toList
  string : ∀ s, P (quote s).toList
  array : ∀ {cs}, P cs → P ('[' :: cs ++ [']'])
  object : ∀ {cs}, P cs → P ('{' :: cs ++ ['}'])

variable {P : List Char → Prop}

mutual

theorem Compositional.text (h : Compositional P) : (v : Json) → P v.text.toList
  | .null => h.word _ (by simp [Json.text])
  | .bool true => h.word _ (by simp [Json.text])
  | .bool false => h.word _ (by simp [Json.text])
  | .number n => h.number n
  | .string s => h.string s
  | .array xs => by simpa [Json.text] using h.array (h.textItems xs)
  | .object ms => by simpa [Json.text] using h.object (h.textMembers ms)

theorem Compositional.textItems (h : Compositional P) : (xs : List Json) → P (textItems xs).toList
  | [] => h.nil
  | [x] => h.text x
  | x :: y :: rest => by
      have hcomma := h.word [','] (by simp)
      have hall := h.append (h.append (h.text x) hcomma) (h.textItems (y :: rest))
      simpa [Json.textItems] using hall

theorem Compositional.textMembers (h : Compositional P) :
    (ms : List (String × Json)) → P (textMembers ms).toList
  | [] => h.nil
  | [(k, v)] => by
      have hcolon := h.word [':'] (by simp)
      have hall := h.append (h.append (h.string k) hcolon) (h.text v)
      simpa [Json.textMembers] using hall
  | (k, v) :: m :: rest => by
      have hcolon := h.word [':'] (by simp)
      have hcomma := h.word [','] (by simp)
      have hmember := h.append (h.append (h.string k) hcolon) (h.text v)
      have hall := h.append (h.append hmember hcomma) (h.textMembers (m :: rest))
      simpa [Json.textMembers] using hall

end

end Json

end Typewright
