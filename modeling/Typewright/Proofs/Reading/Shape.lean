import Typewright.Proofs.Reading.Scan
import Typewright.Proofs.Text.Content

/-!
# Reading a type

`read` finds the structure of a type in its text. A union binds weakest, then an intersection, then
the brackets of a list behind its element; parentheses only group. What is none of these is a tuple,
the members of an object, or a word.
-/

namespace Typewright.Reading

open Text (trim isBlank)

/-- The structure of a type. -/
inductive Shape where
  | word (text : List Char)
  | array (element : Shape)
  | tuple (items : List Shape)
  | union (members : List Shape)
  | intersection (members : List Shape)
  /-- Keys, with their question marks, and types. -/
  | object (members : List (List Char × Shape))
deriving Repr

/-- What stands between separators, without the blanks around it. -/
def fields (sep : Char → Bool) (cs : List Char) : List (List Char) := (split sep {} cs).map trim

/-- What stands between the first and the last character. -/
def inner (cs : List Char) : List Char := cs.tail.dropLast

/-- A key and its type. -/
def member? (cs : List Char) : Option (List Char × List Char) :=
  match fields (· == ':') cs with
  | [key, type] => some (key, type)
  | _ => none

/-- The members between braces; comments and blank lines are none. -/
def members (cs : List Char) : List (List Char × List Char) :=
  (fields (fun c => c == '\n' || c == ';' || c == ',') cs).filterMap member?

/-- The items between square brackets. -/
def items (cs : List Char) : List (List Char) :=
  if (trim cs).isEmpty then [] else fields (· == ',') cs

variable {sep : Char → Bool} {cs ds : List Char}

theorem length_trim_le (cs : List Char) : (trim cs).length ≤ cs.length :=
  (Text.trim_infix cs).length_le

/-- The pieces and the separators between them make up the text. -/
theorem length_flatten_split (sep : Char → Bool) (p : Place) (cs : List Char) :
    (split sep p cs).flatten.length + (split sep p cs).length = cs.length + 1 := by
  fun_induction split sep p cs with
  | case1 => rfl
  | case2 p c cs hstep => simp
  | case3 p c cs next hstep hsep ih =>
      simp only [List.flatten_cons, List.nil_append, List.length_cons]
      omega
  | case4 p c cs next hstep hsep hnil ih =>
      rw [hnil] at ih
      simp at ih
  | case5 p c cs next hstep hsep piece more hsplit ih =>
      rw [hsplit] at ih
      simp only [List.flatten_cons, List.length_append, List.length_cons] at ih ⊢
      omega

theorem length_add_le_of_mem_fields (h : ds ∈ fields sep cs) :
    ds.length + (fields sep cs).length ≤ cs.length + 1 := by
  obtain ⟨piece, hpiece, rfl⟩ := List.mem_map.1 h
  have hsum := length_flatten_split sep {} cs
  have hle : piece.length ≤ _ := (List.sublist_flatten_of_mem hpiece).length_le
  have htrim := length_trim_le piece
  rw [fields, List.length_map]
  omega

theorem length_le_of_mem_fields (h : ds ∈ fields sep cs) : ds.length ≤ cs.length := by
  have hle := length_add_le_of_mem_fields h
  have hpos := List.length_pos_of_mem h
  omega

/-- Each of several pieces is shorter than the text. -/
theorem length_lt_of_mem_fields (hlen : 2 ≤ (fields sep cs).length) (h : ds ∈ fields sep cs) :
    ds.length < cs.length := by
  have hle := length_add_le_of_mem_fields h
  omega

theorem length_le_of_mem_items (h : ds ∈ items cs) : ds.length ≤ cs.length := by
  unfold items at h
  split at h
  · cases h
  · exact length_le_of_mem_fields h

theorem length_le_of_mem_members {m : List Char × List Char} (h : m ∈ members cs) :
    m.2.length ≤ cs.length := by
  obtain ⟨piece, hpiece, h⟩ := List.mem_filterMap.1 h
  refine Nat.le_trans ?_ (length_le_of_mem_fields hpiece)
  unfold member? at h
  split at h
  · rename_i key type hfields
    obtain rfl := Option.some.inj h
    have htype : type ∈ fields (· == ':') piece := by simp [hfields]
    exact length_le_of_mem_fields htype
  · cases h

theorem length_inner_lt {o : List Char} {c : Char} (h : outer {} cs = c :: o) :
    (inner cs).length < cs.length := by
  cases cs with
  | nil => cases h
  | cons d rest =>
      rw [inner, List.tail_cons, List.length_dropLast, List.length_cons]
      omega

/-- The structure of a type that is written without blanks around it. -/
def read (cs : List Char) : Shape :=
  if _h : 2 ≤ (fields (· == '|') cs).length then
    .union ((fields (· == '|') cs).attach.map fun member => read member.1)
  else if _h : 2 ≤ (fields (· == '&') cs).length then
    .intersection ((fields (· == '&') cs).attach.map fun member => read member.1)
  else
    match _h : outer {} cs with
    | ['('] => read (trim (inner cs))
    | ['['] => .tuple ((items (inner cs)).attach.map fun item => read item.1)
    | ['{'] => .object ((members (inner cs)).attach.map fun member =>
        (member.1.1, read member.1.2))
    | _ => if _h : "[]".toList <:+ cs then .array (read (cs.take (cs.length - 2))) else .word cs
termination_by cs.length
decreasing_by
  · exact length_lt_of_mem_fields ‹_› member.2
  · exact length_lt_of_mem_fields ‹_› member.2
  · exact (length_trim_le _).trans_lt (length_inner_lt ‹_›)
  · exact (length_le_of_mem_items item.2).trans_lt (length_inner_lt ‹_›)
  · exact (length_le_of_mem_members member.2).trans_lt (length_inner_lt ‹_›)
  · have hlen : "[]".toList.length ≤ cs.length := List.IsSuffix.length_le ‹_›
    have htwo : "[]".toList.length = 2 := rfl
    rw [List.length_take]
    omega

/-! ## What is read -/

theorem read_union (h : 2 ≤ (fields (· == '|') cs).length) :
    read cs = .union ((fields (· == '|') cs).map read) := by
  rw [read, dif_pos h, List.attach_map_val]

theorem read_intersection (h : (fields (· == '|') cs).length < 2)
    (h' : 2 ≤ (fields (· == '&') cs).length) :
    read cs = .intersection ((fields (· == '&') cs).map read) := by
  rw [read, dif_neg (Nat.not_le.2 h), dif_pos h', List.attach_map_val]

/-- No operator joins anything outside of brackets. -/
structure Single (cs : List Char) : Prop where
  union : (fields (· == '|') cs).length < 2
  intersection : (fields (· == '&') cs).length < 2

theorem read_group (h : Single cs) (ho : outer {} cs = ['(']) :
    read cs = read (trim (inner cs)) := by
  rw [read, dif_neg (Nat.not_le.2 h.union), dif_neg (Nat.not_le.2 h.intersection)]
  split
  · rfl
  all_goals simp_all

theorem read_tuple (h : Single cs) (ho : outer {} cs = ['[']) :
    read cs = .tuple ((items (inner cs)).map read) := by
  rw [read, dif_neg (Nat.not_le.2 h.union), dif_neg (Nat.not_le.2 h.intersection)]
  split
  all_goals simp_all

theorem read_object (h : Single cs) (ho : outer {} cs = ['{']) :
    read cs = .object ((members (inner cs)).map fun m => (m.1, read m.2)) := by
  rw [read, dif_neg (Nat.not_le.2 h.union), dif_neg (Nat.not_le.2 h.intersection)]
  have hmap : ((members (inner cs)).attach.map fun m => (m.1.1, read m.1.2)) =
      (members (inner cs)).map fun m => (m.1, read m.2) :=
    List.attach_map_val (f := fun m : List Char × List Char => (m.1, read m.2))
  split
  all_goals simp_all

theorem read_array (h : Single (cs ++ "[]".toList))
    (ho : ∀ c, outer {} (cs ++ "[]".toList) ≠ [c]) :
    read (cs ++ "[]".toList) = .array (read cs) := by
  have hfront : (cs ++ "[]".toList).take ((cs ++ "[]".toList).length - 2) = cs := by
    rw [List.length_append]
    exact List.take_left
  rw [read, dif_neg (Nat.not_le.2 h.union), dif_neg (Nat.not_le.2 h.intersection)]
  split
  · exact absurd ‹_› (ho _)
  · exact absurd ‹_› (ho _)
  · exact absurd ‹_› (ho _)
  · rw [dif_pos (List.suffix_append _ _), hfront]

theorem read_word (h : Single cs) (ho : ∀ c ∈ outer {} cs, c ∉ "([\x7b".toList)
    (hend : ¬ "[]".toList <:+ cs) : read cs = .word cs := by
  rw [read, dif_neg (Nat.not_le.2 h.union), dif_neg (Nat.not_le.2 h.intersection)]
  split
  · exact absurd (by decide) (ho '(' (by simp_all))
  · exact absurd (by decide) (ho '[' (by simp_all))
  · exact absurd (by decide) (ho '{' (by simp_all))
  · rw [dif_neg hend]

/-- The brackets of a list bind tightest, and a union binds weakest. -/
example : read "A | B & C[]".toList = .union [.word ['A'],
    .intersection [.word ['B'], .array (.word ['C'])]] := by
  cbv

end Typewright.Reading
