import Typewright.Pointer

/-!
# What a longer pointer addresses

The segments of a pointer that `Pointer.build` writes are those it was given, so the value at a
pointer is looked up one segment after the other (`Json.at?_build`), and an index is written as the
segment that leads to its item.
-/

namespace Typewright

namespace Pointer

/-! ## Segments -/

theorem unescapeChars_escapeChars (cs : List Char) : unescapeChars (escapeChars cs) = cs := by
  fun_induction escapeChars cs with
  | case1 => rfl
  | case2 rest ih => rw [unescapeChars, ih]
  | case3 rest ih => rw [unescapeChars, ih]
  | case4 c rest htilde _ ih =>
      rw [unescapeChars.eq_3 c _ (fun _ heq => (htilde heq).elim) fun _ heq => (htilde heq).elim, ih]

theorem slash_not_mem_escapeChars (cs : List Char) : '/' ∉ escapeChars cs := by
  fun_induction escapeChars cs with
  | case1 => exact List.not_mem_nil
  | case2 rest ih => simpa using ih
  | case3 rest ih => simpa using ih
  | case4 c rest _ hslash ih => simpa using ⟨fun heq => hslash heq.symm, ih⟩

theorem pieces_ne_nil (p : Char → Bool) (cs : List Char) : Text.pieces p cs ≠ [] := by
  cases cs with
  | nil => exact List.cons_ne_nil _ _
  | cons c rest =>
      rw [Text.pieces]
      split
      · exact List.cons_ne_nil _ _
      · split <;> exact List.cons_ne_nil _ _

theorem pieces_append_cons {p : Char → Bool} {c : Char} (hc : p c = true) (cs ds : List Char) :
    Text.pieces p (cs ++ c :: ds) = Text.pieces p cs ++ Text.pieces p ds := by
  induction cs with
  | nil => simp [Text.pieces, hc]
  | cons d rest ih =>
      rw [List.cons_append, Text.pieces, Text.pieces, ih]
      split
      · rfl
      · cases hpieces : Text.pieces p rest with
        | nil => exact absurd hpieces (pieces_ne_nil p rest)
        | cons piece more => rfl

theorem pieces_of_forall_not {p : Char → Bool} {cs : List Char} (h : ∀ c ∈ cs, p c = false) :
    Text.pieces p cs = [cs] := by
  induction cs with
  | nil => rfl
  | cons c rest ih =>
      rw [Text.pieces, h c List.mem_cons_self, if_neg Bool.false_ne_true,
        ih fun d hd => h d (List.mem_cons_of_mem _ hd)]

theorem segments_escapeChars (segment : String) :
    segments (escapeChars segment.toList) = [segment] := by
  have hone : Text.pieces (· == '/') (escapeChars segment.toList) =
      [escapeChars segment.toList] := by
    refine pieces_of_forall_not fun c hc => ?_
    exact beq_false_of_ne fun heq => slash_not_mem_escapeChars _ (heq ▸ hc)
  rw [segments, hone, List.map_singleton, unescapeChars_escapeChars, String.ofList_toList]

/-- A segment that is written behind others is the last one. -/
theorem segments_append (cs : List Char) (segment : String) :
    segments (cs ++ '/' :: escapeChars segment.toList) = segments cs ++ [segment] := by
  rw [← segments_escapeChars segment, segments, pieces_append_cons rfl, List.map_append]
  rfl

/-- What follows the leading `#` of a pointer is empty or starts with a slash. -/
def Rooted (path : String) : Prop := body path = [] ∨ ∃ rest, body path = '/' :: rest

theorem body_append (path : String) (cs : List Char) :
    body (path ++ String.ofList ('/' :: cs)) = body path ++ '/' :: cs := by
  rw [body, body, String.toList_append, String.toList_ofList]
  cases h : path.toList with
  | nil => rfl
  | cons c rest =>
      rw [List.cons_append]
      split
      · rename_i heq
        obtain ⟨rfl, rfl⟩ := List.cons.inj heq
        rfl
      · rename_i hhash
        split
        · rename_i heq
          obtain ⟨rfl, rfl⟩ := List.cons.inj heq
          exact (hhash _ rfl).elim
        · rfl

theorem build_cons (path segment : String) (rest : List String) :
    build path (segment :: rest) =
      build (path ++ String.ofList ('/' :: escapeChars segment.toList)) rest := by
  have hsegment : path ++ "/" ++ escape segment =
      path ++ String.ofList ('/' :: escapeChars segment.toList) := by
    rw [String.append_assoc, escape, ← String.toList_inj]
    simp
  rw [build, List.foldl_cons, hsegment]
  rfl

theorem Rooted.append {path : String} (h : Rooted path) (cs : List Char) :
    Rooted (path ++ String.ofList ('/' :: cs)) := by
  rw [Rooted, body_append]
  rcases h with h | ⟨rest, h⟩
  · exact .inr ⟨cs, by rw [h]; rfl⟩
  · exact .inr ⟨rest ++ '/' :: cs, by rw [h]; rfl⟩

theorem split_append {path : String} (h : Rooted path) (segment : String) :
    split (path ++ String.ofList ('/' :: escapeChars segment.toList)) = split path ++ [segment] := by
  rw [split, split, body_append]
  rcases h with h | ⟨rest, h⟩
  · rw [h]
    exact segments_escapeChars segment
  · rw [h]
    exact segments_append rest segment

/-- The segments of a continued pointer. -/
theorem split_build {path : String} (h : Rooted path) (steps : List String) :
    Rooted (build path steps) ∧ split (build path steps) = split path ++ steps := by
  induction steps generalizing path with
  | nil => exact ⟨h, (List.append_nil _).symm⟩
  | cons step rest ih =>
      obtain ⟨hr, hs⟩ := ih (h.append (escapeChars step.toList))
      rw [build_cons]
      exact ⟨hr, by rw [hs, split_append h, List.append_assoc]; rfl⟩

theorem split_build_root (steps : List String) : split (build "#" steps) = steps := by
  have hroot : Rooted "#" := .inl rfl
  exact (split_build hroot steps).2

theorem build_append (path : String) (steps further : List String) :
    build path (steps ++ further) = build (build path steps) further :=
  List.foldl_append

theorem build_eq_append (path : String) (steps : List String) :
    build path steps = path ++ build "" steps := by
  induction steps generalizing path with
  | nil => exact String.append_empty.symm
  | cons step rest ih =>
      rw [build_cons, ih, build_cons, ih ("" ++ _), String.empty_append, String.append_assoc]

/-- The steps behind a pointer are read off what they continue it to. -/
theorem build_injective {path : String} {steps steps' : List String}
    (h : build path steps = build path steps') : steps = steps' := by
  have hempty : build "" steps = build "" steps' := by
    rw [build_eq_append path, build_eq_append path steps'] at h
    exact (String.append_right_inj path).1 h
  have hrooted : Rooted "" := .inl rfl
  exact ((split_build hrooted steps).2.symm.trans (congrArg split hempty)).trans
    (split_build hrooted steps').2

end Pointer

namespace Json

variable {v w : Json}

/-! ## Values -/

theorem follow?_append (v : Json) (steps further : List String) :
    v.follow? (steps ++ further) = (v.follow? steps).bind (·.follow? further) := by
  induction steps generalizing v with
  | nil => rfl
  | cons step rest ih =>
      rw [List.cons_append, follow?, follow?]
      cases v.child? step with
      | none => rfl
      | some w => exact ih w

theorem rooted_of_at? {path : String} (h : v.at? path = some w) : Pointer.Rooted path := by
  rw [at?] at h
  split at h
  · exact .inl ‹_›
  · exact .inr ⟨_, ‹_›⟩
  · cases h

theorem at?_of_rooted {path : String} (h : Pointer.Rooted path) :
    v.at? path = v.follow? (Pointer.split path) := by
  rw [at?, Pointer.split]
  rcases h with h | ⟨rest, h⟩ <;> rw [h] <;> rfl

/-- The value at a continued pointer is found from the value at the pointer. -/
theorem at?_build {path : String} (h : v.at? path = some w) (steps : List String) :
    v.at? (Pointer.build path steps) = w.follow? steps := by
  have hroot := rooted_of_at? h
  obtain ⟨hr, hs⟩ := Pointer.split_build hroot steps
  rw [at?_of_rooted hroot] at h
  rw [at?_of_rooted hr, hs, follow?_append, h]
  rfl

/-! ## Items -/

theorem exists_toDigits {n : Nat} (h : n ≠ 0) :
    ∃ c rest, Nat.toDigits 10 n = c :: rest ∧ c ≠ '0' := by
  induction n using Nat.strongRecOn with
  | _ n ih =>
      by_cases hlt : n < 10
      · refine ⟨n.digitChar, [], Nat.toDigits_of_lt_base hlt, ?_⟩
        have hdigits : ∀ k < 10, k ≠ 0 → k.digitChar ≠ '0' := by decide
        exact hdigits n hlt h
      · obtain ⟨c, rest, hc, hne⟩ := ih (n / 10) (by omega) (by omega)
        exact ⟨c, rest ++ [(n % 10).digitChar],
          by rw [Nat.toDigits_of_base_le (by decide) (by omega), hc]; rfl, hne⟩

/-- An index leads to its item. -/
theorem index?_toString (n : Nat) : index? (toString n) = some n := by
  have htext : (toString n).toList = Nat.toDigits 10 n := by simp [Nat.toString_eq_repr]
  have hvalue : (Nat.toDigits 10 n).foldl (fun n c => n * 10 + (c.toNat - '0'.toNat)) 0 = n := by
    have := Nat.ofDigitChars_toDigits (b := 10) (n := n) (by decide) (by decide)
    simpa only [Nat.ofDigitChars, Nat.mul_comm] using this
  rw [index?, htext]
  by_cases h : n = 0
  · subst h
    rfl
  · obtain ⟨c, rest, hdigits, hne⟩ := exists_toDigits h
    have hall : (c :: rest).all Char.isDigit = true := by
      rw [← hdigits, List.all_eq_true]
      exact fun d hd => Nat.isDigit_of_mem_toDigits (by decide) (by decide) hd
    rw [hdigits] at hvalue ⊢
    split
    · rename_i heq
      exact (hne (List.cons.inj heq).1).elim
    · rename_i heq
      exact (hne (List.cons.inj heq).1).elim
    · rw [hall, hvalue]
      rfl

theorem toString_injective {m n : Nat} (h : toString m = toString n) : m = n := by
  have := congrArg index? h
  simpa only [index?_toString, Option.some.injEq] using this

theorem child?_toString {xs : List Json} {i : Nat} : (array xs).child? (toString i) = xs[i]? := by
  rw [child?, index?_toString]
  rfl

end Json

end Typewright
