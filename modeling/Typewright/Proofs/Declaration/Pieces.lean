import Typewright.Proofs.Declaration.Comment
import Typewright.Proofs.Identifier
import Typewright.Proofs.Reading.Operand

/-!
# Pieces of type texts

Names, keywords and JSON values are operands, and keys and comments can stand between braces, whatever
characters their strings and descriptions hold.
-/

namespace Typewright.Declaration

open Reading
open Text (trim isBlank join)

variable {cs : List Char}

/-! ## Words -/

theorem plain_parts : ∀ n < 128, Identifier.isPart (.ofNat n) = true →
    isPlain (.ofNat n) = true ∧ isJoint (.ofNat n) = false := by
  decide +kernel

theorem plain_of_isPart {c : Char} (h : Identifier.isPart c = true) :
    isPlain c = true ∧ isJoint c = false := by
  have heq := Char.ofNat_toNat c
  rw [← heq] at h ⊢
  exact plain_parts _ (by simpa using Identifier.toNat_lt_of_isPart (heq ▸ h)) h

/-- A word is an operand and is read as it is. -/
theorem operand_word (h : ∀ c ∈ cs, isPlain c = true ∧ isJoint c = false) (hne : cs ≠ []) :
    Operand cs ∧ read cs = .word cs := by
  have hshows := shows_plain fun c hc => (h c hc).1
  have hmark : ∀ c ∈ cs, isJoint c = false := fun c hc => (h c hc).2
  have hbracket : ∀ c ∈ "([\x7b]".toList, isPlain c = false := by decide
  have hfree : ∀ c ∈ cs, c ∉ "([\x7b]".toList := fun c hc hmem => by
    have hplain := (h c hc).1
    rw [hbracket c hmem] at hplain
    cases hplain
  refine ⟨.of_shows hshows hmark hne, read_word (single_of_outer ?_) ?_ ?_⟩
  · rwa [hshows.outer]
  · rw [hshows.outer]
    exact fun c hc hmem => hfree c hc ((by decide : "([\x7b".toList ⊆ "([\x7b]".toList) hmem)
  · rintro ⟨front, rfl⟩
    exact hfree ']' (by simp) (by decide)

theorem operand_parts (h : ∀ c ∈ cs, Identifier.isPart c = true) (hne : cs ≠ []) :
    Operand cs ∧ read cs = .word cs :=
  operand_word (fun c hc => plain_of_isPart (h c hc)) hne

theorem operand_bare (h : Identifier.isBare cs = true) : Operand cs ∧ read cs = .word cs := by
  refine operand_parts (Identifier.isPart_of_isBare h) ?_
  rintro rfl
  cases h

/-- The words for types that need no further text. -/
def keywords : List String :=
  ["any", "boolean", "null", "number", "object", "string", "never", "unknown"]

theorem operand_keyword {word : String} (h : word ∈ keywords) :
    Operand word.toList ∧ read word.toList = .word word.toList := by
  have hall : ∀ word ∈ keywords,
      (∀ c ∈ word.toList, Identifier.isPart c = true) ∧ word.toList ≠ [] := by decide
  exact operand_parts (hall word h).1 (hall word h).2

/-! ## Values -/

theorem reads_escapeChar (B : List Char) (c : Char) :
    Reads ⟨B, .string .double⟩ (Json.escapeChar c) [] ⟨B, .string .double⟩ := by
  rcases Json.escapeChar_cases c with ⟨heq, hquote, hslash, -⟩ | ⟨d, more, heq, -, hmore⟩
  · exact heq ▸ reads_string hquote hslash
  · have hdigits : ∀ e ∈ "0123456789abcdef".toList, e ≠ '"' ∧ e ≠ '\\' := by decide
    have hall : ∀ cs : List Char, (∀ e ∈ cs, e ∈ "0123456789abcdef".toList) →
        Reads ⟨B, .string .double⟩ cs [] ⟨B, .string .double⟩ := by
      intro cs
      induction cs with
      | nil => exact fun _ => .nil
      | cons e rest ih =>
          intro hcs
          obtain ⟨hquote, hslash⟩ := hdigits e (hcs e List.mem_cons_self)
          exact (reads_string (show e ≠ Quote.double.char from hquote) hslash).append
            (ih fun e he => hcs e (List.mem_cons_of_mem _ he))
    rw [heq]
    exact (reads_escape .double d).append (hall more hmore)

/-- A string shows only its quote, whatever it holds. -/
theorem shows_quote (s : String) : Shows (Json.quote s).toList ['"'] := by
  have hbody : ∀ cs : List Char,
      Reads ⟨[], .string .double⟩ (cs.flatMap Json.escapeChar) [] ⟨[], .string .double⟩ := by
    intro cs
    induction cs with
    | nil => exact .nil
    | cons c rest ih => exact (reads_escapeChar [] c).append ih
  have hopen : Reads {} ['"'] ['"'] ⟨[], .string .double⟩ := reads_char rfl
  have hclose : Reads ⟨[], .string .double⟩ ['"'] [] {} := reads_hidden rfl rfl
  rw [Json.quote, String.toList_ofList]
  exact (hopen.append (hbody s.toList)).append hclose

theorem shows_numerals {n : Number} : Shows n.text.toList n.text.toList := by
  have hall : ∀ c ∈ Number.numerals, isPlain c = true := by decide
  exact shows_plain fun c hc => hall c (Number.mem_numerals_text n c hc)

theorem compositional_balanced : Json.Compositional Reading.Balanced where
  nil := rfl
  append := .append
  word cs hcs := by
    simp only [List.mem_cons, List.not_mem_nil, or_false] at hcs
    rcases hcs with rfl | rfl | rfl | rfl | rfl <;> decide
  number n := shows_numerals.balanced
  string s := (shows_quote s).balanced
  array h := (h.enclosed (show closer? '[' = some ']' from rfl)).balanced
  object h := (h.enclosed (show closer? '{' = some '}' from rfl)).balanced

/-- The text of every JSON value is an operand. -/
theorem operand_text (v : Json) : Operand v.text.toList := by
  cases v with
  | null => exact (operand_parts (by decide) (by decide)).1
  | bool b =>
      cases b with
      | true => exact (operand_parts (by decide) (by decide)).1
      | false => exact (operand_parts (by decide) (by decide)).1
  | number n =>
      have hall : ∀ c ∈ Number.numerals, isJoint c = false := by decide
      exact .of_shows shows_numerals (fun c hc => hall c (Number.mem_numerals_text n c hc)) n.text_ne_nil
  | string s =>
      exact .of_shows (shows_quote s) (by decide) (by simp [Json.text, Json.quote])
  | array xs =>
      have h := (compositional_balanced.textItems xs).enclosed (show closer? '[' = some ']' from rfl)
      have hshows : Shows (Json.array xs).text.toList ['['] := by simpa [Json.text] using h
      exact .of_shows hshows (by decide) (by simp [Json.text])
  | object ms =>
      have h := (compositional_balanced.textMembers ms).enclosed (show closer? '{' = some '}' from rfl)
      have hshows : Shows (Json.object ms).text.toList ['{'] := by simpa [Json.text] using h
      exact .of_shows hshows (by decide) (by simp [Json.text])

/-! ## Keys and comments -/

theorem item_commentBlock (comment : String) : Item (commentBlock comment).toList := by
  obtain ⟨body, hblock, hfree⟩ := exists_commentBlock comment
  have hbody : ¬ ['*', '/'] <:+: body ++ ['*'] := fun hmark => hfree <| hmark.trans <| by
    rw [List.append_assoc]
    exact (List.suffix_append _ _).isInfix
  have htext : (commentBlock comment).toList = "/*".toList ++ body ++ "*/".toList := by
    rw [hblock, List.append_assoc _ ['*']]
    rfl
  have hends : '/' :: ('*' :: body ++ ['*']) ++ ['/'] = "/*".toList ++ body ++ "*/".toList := by
    simp
  have hshows := shows_comment hbody
  rw [htext]
  refine ⟨by simp, hshows.balanced, ?_, fun c hc => ?_⟩
  · rw [← hends]
    exact Text.trim_of_ends rfl rfl
  · rw [hshows.outer] at hc
    exact (by decide : ∀ c ∈ "/*".toList, c ∉ separators) c hc

theorem operand_keyText (key : String) : Operand (keyText key).toList := by
  unfold keyText
  split
  · rename_i h
    rcases Bool.or_eq_true_iff.1 h with h | h
    · have hkey : Balanced "k: string".toList := by decide
      have hshows := hkey.enclosed (show closer? '[' = some ']' from rfl)
      rw [eq_of_beq h]
      exact .of_shows hshows (by decide) (by decide)
    · exact (operand_bare h).1
  · exact .of_shows (shows_quote key) (by decide) (by simp [Json.quote])

theorem item_keyText (key : String) (required : Bool) :
    Item (keyText key ++ (if required then "" else "?")).toList := by
  rw [String.toList_append]
  cases required with
  | true => simpa using (operand_keyText key).item
  | false => exact (operand_keyText key).question

end Typewright.Declaration
