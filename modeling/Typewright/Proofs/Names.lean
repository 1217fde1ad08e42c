import Mathlib.Data.List.Nodup
import Typewright.Proofs.Identifier

/-!
# Names

`Identifier.sanitize` is a projection: what it makes is empty or a clean identifier, and it leaves
alone just these texts (`sanitize_projection`). Names that are given out in turn are each the first
candidate that is not in use, so they never collide, also not when they are sanitized again
(`reserveAll_firstFree`).
-/

namespace Typewright.Identifier

/-! ## Sanitizing -/

/-- What `sanitize` makes is clean, unless nothing is left. -/
theorem clean_sanitize {raw : String} (h : sanitize raw ≠ "") : Clean (sanitize raw).toList := by
  have hne : sanitizeChars raw.toList ≠ [] := by
    intro hnil
    exact h (by rw [sanitize, hnil, String.ofList_nil])
  rw [sanitize, String.toList_ofList]
  exact clean_sanitizeChars hne

theorem sanitize_empty : sanitize "" = "" := by
  rw [sanitize, String.toList_empty, sanitizeChars]
  rfl

/-- The texts that `sanitize` leaves as they are. -/
theorem sanitize_eq_self_iff {s : String} : sanitize s = s ↔ s = "" ∨ Clean s.toList := by
  constructor
  · intro h
    by_cases hempty : s = ""
    · exact .inl hempty
    · right
      rw [← h] at hempty ⊢
      exact clean_sanitize hempty
  · rintro (rfl | hclean)
    · exact sanitize_empty
    · exact sanitize_of_clean hclean

/-- An identifier starts with a letter, an underscore or a dollar sign, and a clean one with no
lower-case letter. -/
theorem Clean.exists_start {cs : List Char} (h : Clean cs) :
    ∃ c rest, cs = c :: rest ∧ (isUpper c = true ∨ c = '_' ∨ c = '$') := by
  obtain ⟨hbare, hfollows⟩ := h
  cases cs with
  | nil => cases hbare
  | cons c rest =>
      have hlower : isLower c = false := hfollows.1 (by decide)
      have hstart : isStart c = true := (Bool.and_eq_true_iff.1 hbare).1
      simp only [isStart, isLetter, hlower, Bool.false_or, Bool.or_eq_true, beq_iff_eq] at hstart
      exact ⟨c, rest, rfl, or_assoc.1 hstart⟩

/-- `sanitize` projects all texts onto the empty one and the clean identifiers: what it makes is
empty or an identifier that starts with no lower-case letter, and to sanitize that again changes
nothing; a text is left as it is just if it is empty or a clean identifier. -/
theorem sanitize_projection (raw : String) :
    (sanitize raw = "" ∨ isBare (sanitize raw).toList = true ∧
      ∃ c rest, (sanitize raw).toList = c :: rest ∧ (isUpper c = true ∨ c = '_' ∨ c = '$')) ∧
    sanitize (sanitize raw) = sanitize raw ∧
    (sanitize raw = raw ↔ raw = "" ∨ Clean raw.toList) := by
  refine ⟨?_, ?_, sanitize_eq_self_iff⟩
  · by_cases hempty : sanitize raw = ""
    · exact .inl hempty
    · have hclean := clean_sanitize hempty
      exact .inr ⟨hclean.bare, hclean.exists_start⟩
  · rw [sanitize_eq_self_iff]
    by_cases hempty : sanitize raw = ""
    · exact .inl hempty
    · exact .inr (clean_sanitize hempty)

/-! ## The first free name -/

/-- A name is the first of `base`, `base1`, `base2`, … that is not in use. The search for it tries
no more counters than there are used names. -/
inductive FirstFree (base : String) (used : List String) : String → Prop
  | plain (h : base ∉ used) : FirstFree base used base
  | counted {n : Nat} (hpos : 1 ≤ n) (hle : n ≤ used.length) (hbase : base ∈ used)
      (hbefore : ∀ m, 1 ≤ m → m < n → base ++ toString m ∈ used) (h : base ++ toString n ∉ used) :
      FirstFree base used (base ++ toString n)

theorem append_toString_ne (base : String) (n : Nat) : base ++ toString n ≠ base := by
  intro h
  have hdigits : Nat.toDigits 10 n = [] := by
    simpa [Nat.toString_eq_repr] using congrArg String.toList h
  exact Nat.toDigits_ne_nil hdigits

/-- As many names as there are candidates in use, all different, have been given out. -/
theorem le_length_of_used {base : String} {used : List String} {n : Nat} (hbase : base ∈ used)
    (hbefore : ∀ m, 1 ≤ m → m < n → base ++ toString m ∈ used) : n ≤ used.length := by
  let candidates := base :: (List.range (n - 1)).map fun k => base ++ toString (k + 1)
  have hnodup : candidates.Nodup := by
    refine List.nodup_cons.2 ⟨fun hmem => ?_, ?_⟩
    · obtain ⟨k, -, heq⟩ := List.mem_map.1 hmem
      exact append_toString_ne base _ heq
    · refine List.Nodup.map (fun k k' heq => ?_) List.nodup_range
      exact Nat.succ.inj (toString_injective (String.append_right_inj base |>.1 heq))
  have hsub : candidates ⊆ used := by
    intro name hname
    rcases List.mem_cons.1 hname with rfl | hname
    · exact hbase
    · obtain ⟨k, hk, rfl⟩ := List.mem_map.1 hname
      have hlt := List.mem_range.1 hk
      exact hbefore (k + 1) (by omega) (by omega)
  have hle := List.Nodup.length_le_of_subset hnodup hsub
  simp only [candidates, List.length_cons, List.length_map, List.length_range] at hle
  omega

/-- The search stops at the least counter from its start on whose candidate is not in use. -/
theorem exists_least_freshFrom (base : String) (used : List String) (counter : Nat) :
    ∃ n, counter ≤ n ∧ freshFrom base used counter = base ++ toString n ∧
      ∀ m, counter ≤ m → m < n → base ++ toString m ∈ used := by
  fun_induction freshFrom base used counter with
  | case1 used counter name hmem ih =>
      obtain ⟨n, hle, heq, hbefore⟩ := ih
      refine ⟨n, by omega, heq, fun m hm hlt => ?_⟩
      by_cases hcounter : m = counter
      · exact hcounter ▸ hmem
      · exact List.mem_of_mem_erase (hbefore m (by omega) hlt)
  | case2 used counter name h => exact ⟨counter, Nat.le_refl _, rfl, fun m hm hlt => by omega⟩

/-- A fresh name is the first free one. -/
theorem firstFree_fresh (raw : String) (used : List String) :
    FirstFree (freshBase raw) used (fresh raw used) := by
  rw [fresh_eq]
  by_cases hbase : freshBase raw ∈ used
  · rw [if_pos hbase]
    obtain ⟨n, hpos, heq, hbefore⟩ := exists_least_freshFrom (freshBase raw) used 1
    have hnew := freshFrom_not_mem (freshBase raw) used 1
    rw [heq] at hnew ⊢
    exact .counted hpos (le_length_of_used hbase hbefore) hbase hbefore hnew
  · rw [if_neg hbase]
    exact .plain hbase

/-- The candidates for a text are the names that it is given where the ones before are in use. -/
theorem candidate_iff {raw name : String} : Candidate raw name ↔ ∃ used, fresh raw used = name := by
  refine ⟨fun h => ?_, fun ⟨used, h⟩ => h ▸ candidate_fresh raw used⟩
  cases h with
  | plain => exact ⟨[], by simp [fresh_eq]⟩
  | @counted n hpos =>
      let used := freshBase raw :: (List.range' 1 (n - 1)).map fun k => freshBase raw ++ toString k
      have hused : ∀ m, 1 ≤ m → (freshBase raw ++ toString m ∈ used ↔ m < n) := by
        intro m hm
        simp only [used, List.mem_cons, append_toString_ne, false_or, List.mem_map,
          List.mem_range'_1]
        constructor
        · rintro ⟨k, hk, heq⟩
          obtain rfl := toString_injective (String.append_right_inj _ |>.1 heq)
          omega
        · exact fun hlt => ⟨m, by omega, rfl⟩
      refine ⟨used, ?_⟩
      have hfirst := firstFree_fresh raw used
      generalize fresh raw used = name at hfirst ⊢
      cases hfirst with
      | plain h => exact absurd List.mem_cons_self h
      | @counted m hm hle hbase hbefore h =>
          have hge : ¬ m < n := fun hlt => h ((hused m hm).2 hlt)
          have hle : ¬ n < m := fun hlt => absurd ((hused n hpos).1 (hbefore n hpos hlt)) (by omega)
          rw [show m = n by omega]

/-! ## Names in turn -/

/-- Fresh names for several texts in turn, and the used names that they join. -/
def reserveAll : List String → List String → List String × List String
  | [], used => ([], used)
  | raw :: rest, used =>
    let (name, used) := reserve raw used
    let (names, used) := reserveAll rest used
    (name :: names, used)

/-- Names for texts in turn, each the first free one for the identifier of its text. -/
inductive FirstFreeInTurn : List String → List String → List String → Prop
  | nil {used : List String} : FirstFreeInTurn used [] []
  | cons {used raws names : List String} {raw name : String}
      (h : FirstFree (freshBase raw) used name)
      (hrest : FirstFreeInTurn (used ++ [name]) raws names) :
      FirstFreeInTurn used (raw :: raws) (name :: names)

theorem reserveAll_cons (raw : String) (rest used : List String) :
    reserveAll (raw :: rest) used =
      (fresh raw used :: (reserveAll rest (used ++ [fresh raw used])).1,
        (reserveAll rest (used ++ [fresh raw used])).2) := rfl

theorem firstFreeInTurn_reserveAll (raws used : List String) :
    FirstFreeInTurn used raws (reserveAll raws used).1 := by
  induction raws generalizing used with
  | nil => exact .nil
  | cons raw rest ih =>
      rw [reserveAll_cons]
      exact .cons (firstFree_fresh raw used) (ih _)

theorem used_reserveAll (raws used : List String) :
    (reserveAll raws used).2 = used ++ (reserveAll raws used).1 := by
  induction raws generalizing used with
  | nil => exact (List.append_nil used).symm
  | cons raw rest ih =>
      rw [reserveAll_cons]
      exact (ih _).trans (by rw [List.append_assoc, List.singleton_append])

/-- The names join those in use without repeating one. -/
theorem nodup_reserveAll (raws used : List String) :
    (reserveAll raws used).1.Nodup ∧ (reserveAll raws used).1.Disjoint used := by
  induction raws generalizing used with
  | nil => exact ⟨List.nodup_nil, List.disjoint_nil_left used⟩
  | cons raw rest ih =>
      rw [reserveAll_cons]
      obtain ⟨hnodup, hdisjoint⟩ := ih (used ++ [fresh raw used])
      rw [List.disjoint_append_right, List.disjoint_singleton] at hdisjoint
      exact ⟨List.nodup_cons.2 ⟨hdisjoint.2, hnodup⟩,
        List.disjoint_cons_left.2 ⟨fresh_not_mem raw used, hdisjoint.1⟩⟩

theorem sanitize_reserveAll (raws used : List String) :
    (reserveAll raws used).1.map sanitize = (reserveAll raws used).1 := by
  induction raws generalizing used with
  | nil => rfl
  | cons raw rest ih =>
      rw [reserveAll_cons, List.map_cons, ih, sanitize_of_clean (clean_fresh raw used)]

/-- Names that are given out in turn never collide: each is the identifier of its text, or the
fallback, with the least counter that makes it new if it is in use; no two are equal, none was in
use before, those in use afterwards are these and the earlier ones, and to sanitize them again
changes none. -/
theorem reserveAll_firstFree (raws used : List String) :
    FirstFreeInTurn used raws (reserveAll raws used).1 ∧
    (reserveAll raws used).1.Nodup ∧ (reserveAll raws used).1.Disjoint used ∧
    (reserveAll raws used).2 = used ++ (reserveAll raws used).1 ∧
    (reserveAll raws used).1.map sanitize = (reserveAll raws used).1 := by
  obtain ⟨hnodup, hdisjoint⟩ := nodup_reserveAll raws used
  exact ⟨firstFreeInTurn_reserveAll raws used, hnodup, hdisjoint, used_reserveAll raws used,
    sanitize_reserveAll raws used⟩

end Typewright.Identifier
