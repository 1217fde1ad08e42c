import Mathlib.Data.List.Nodup
import Typewright.Json.Reader
import Typewright.Schema.Children

/-!
# Objects with one member a key

In a document that is read each object has one member a key (`distinct_of_read`). Then the order of
the members does not matter for what is looked up, and `Members.put` and `Members.remove` change a
single key.
-/

namespace Typewright

/-- Where no key occurs twice, each entry is the one that is looked up under its key. -/
theorem lookup_of_mem_of_nodup {α β : Type} [BEq α] [LawfulBEq α] {l : List (α × β)} {a : α} {b : β}
    (hn : (l.map (·.1)).Nodup) (h : (a, b) ∈ l) : l.lookup a = some b := by
  induction l with
  | nil => cases h
  | cons p rest ih =>
      obtain ⟨hnew, hrest⟩ := List.nodup_cons.1 hn
      rw [List.lookup_cons]
      rcases List.mem_cons.1 h with rfl | h
      · rw [beq_self_eq_true]
      · have hne : (a == p.1) = false :=
          beq_false_of_ne fun heq => hnew (List.mem_map.2 ⟨_, h, heq.symm ▸ rfl⟩)
        rw [hne]
        exact ih hrest h

namespace Members

variable {ms ns : Members} {key other : String} {value : Json}

def keys (ms : Members) : List String := ms.map (·.1)

/-! ## Lookups -/

theorem lookup_of_mem (hk : (keys ms).Nodup) (h : (key, value) ∈ ms) :
    ms.lookup key = some value :=
  lookup_of_mem_of_nodup hk h

theorem lookup_eq_some_iff (hk : (keys ms).Nodup) :
    ms.lookup key = some value ↔ (key, value) ∈ ms :=
  ⟨mem_of_lookup, lookup_of_mem hk⟩

/-- What is looked up does not depend on the order of the members. -/
theorem lookup_perm (h : ms.Perm ns) (hk : (keys ms).Nodup) (key : String) :
    ms.lookup key = ns.lookup key := by
  have hk' : (keys ns).Nodup := (h.map _).nodup_iff.1 hk
  refine Option.ext fun value => ?_
  rw [lookup_eq_some_iff hk, lookup_eq_some_iff hk', h.mem_iff]

theorem lookup_eq_none_iff : ms.lookup key = none ↔ key ∉ keys ms := by
  rw [List.lookup_eq_none_iff, keys, List.mem_map]
  constructor
  · rintro h ⟨m, hm, rfl⟩
    have := h m hm
    simp at this
  · intro h m hm
    exact bne_iff_ne.2 fun heq => h ⟨m, hm, heq.symm⟩

theorem has_eq_true_iff : has ms key = true ↔ key ∈ keys ms := by
  rw [has, Option.isSome_iff_ne_none, ne_eq, lookup_eq_none_iff, not_not]

/-! ## `put` -/

theorem lookup_put_self (ms : Members) (key : String) (value : Json) :
    (put ms key value).lookup key = some value := by
  induction ms with
  | nil => simp [put]
  | cons m rest ih =>
      rw [put]
      split
      · rename_i heq
        rw [List.lookup_cons, eq_of_beq heq, beq_self_eq_true]
      · rename_i hne
        rw [List.lookup_cons, beq_false_of_ne fun heq => hne (beq_of_eq heq.symm)]
        exact ih

theorem lookup_put_of_ne (h : other ≠ key) : (put ms key value).lookup other = ms.lookup other := by
  induction ms with
  | nil => simp [put, h]
  | cons m rest ih =>
      rw [put]
      split
      · rename_i heq
        have hne : (other == m.1) = false :=
          beq_false_of_ne fun h' => h (h'.trans (eq_of_beq heq))
        rw [List.lookup_cons, List.lookup_cons, hne]
      · rw [List.lookup_cons, List.lookup_cons, ih]

theorem keys_put (ms : Members) (key : String) (value : Json) :
    keys (put ms key value) = if key ∈ keys ms then keys ms else keys ms ++ [key] := by
  induction ms with
  | nil => rfl
  | cons m rest ih =>
      rw [put]
      split
      · rename_i heq
        have hmem : key ∈ keys (m :: rest) := by simp [keys, ← eq_of_beq heq]
        rw [if_pos hmem]
        rfl
      · rename_i hne
        have hkey : key ≠ m.1 := fun heq => hne (beq_of_eq heq.symm)
        have hmem : key ∈ keys (m :: rest) ↔ key ∈ keys rest := by simp [keys, hkey]
        show m.1 :: keys (put rest key value) = _
        rw [ih]
        simp only [hmem]
        split <;> rfl

theorem nodup_keys_put (hk : (keys ms).Nodup) (key : String) (value : Json) :
    (keys (put ms key value)).Nodup := by
  rw [keys_put]
  split
  · exact hk
  · rename_i hmem
    exact hk.append (List.nodup_singleton _) (by simpa using hmem)

theorem mem_put {m : String × Json} (h : m ∈ put ms key value) : m = (key, value) ∨ m ∈ ms := by
  induction ms with
  | nil => exact .inl (List.mem_singleton.1 h)
  | cons n rest ih =>
      rw [put] at h
      split at h
      · rename_i heq
        rcases List.mem_cons.1 h with rfl | h
        · exact .inl (by rw [eq_of_beq heq])
        · exact .inr (List.mem_cons_of_mem _ h)
      · rcases List.mem_cons.1 h with rfl | h
        · exact .inr List.mem_cons_self
        · exact (ih h).imp id (List.mem_cons_of_mem _)

/-- A new key goes to the end. -/
theorem put_of_not_mem (h : key ∉ keys ms) : put ms key value = ms ++ [(key, value)] := by
  induction ms with
  | nil => rfl
  | cons m rest ih =>
      have hne : (m.1 == key) = false := beq_false_of_ne fun heq => h (by simp [keys, ← heq])
      rw [put, hne, if_neg Bool.false_ne_true, ih fun hmem => h (List.mem_cons_of_mem _ hmem)]
      rfl

theorem ofList_eq (pairs : List (String × Json)) :
    ofList pairs = pairs.foldl (fun ms m => put ms m.1 m.2) [] := rfl

theorem nodup_keys_ofList (pairs : List (String × Json)) : (keys (ofList pairs)).Nodup := by
  rw [ofList_eq]
  refine List.foldlRecOn (motive := fun ms => (keys ms).Nodup) pairs _ List.nodup_nil
    fun ms hms m _ => ?_
  exact nodup_keys_put hms m.1 m.2

theorem mem_ofList {pairs : List (String × Json)} {m : String × Json} (h : m ∈ ofList pairs) :
    m ∈ pairs := by
  have hall : ∀ m ∈ ofList pairs, m ∈ pairs := by
    rw [ofList_eq]
    refine List.foldlRecOn (motive := fun ms => ∀ m ∈ ms, m ∈ pairs) pairs _
      (fun m hm => by cases hm) fun ms hms p hp m hm => ?_
    rcases mem_put hm with rfl | hm
    · exact hp
    · exact hms m hm
  exact hall m h

/-! ## `remove` -/

/-- The other members of an object. -/
def without (ms : Members) (key : String) : Members := ms.filter (·.1 != key)

theorem without_cons_self (value : Json) : without ((key, value) :: ms) key = without ms key :=
  List.filter_cons_of_neg (by simp)

theorem without_cons_of_ne {m : String × Json} (h : m.1 ≠ key) :
    without (m :: ms) key = m :: without ms key :=
  List.filter_cons_of_pos (bne_iff_ne.2 h)

theorem without_append (ms ns : Members) (key : String) :
    without (ms ++ ns) key = without ms key ++ without ns key :=
  List.filter_append ..

theorem without_of_not_mem (h : key ∉ keys ms) : without ms key = ms :=
  List.filter_eq_self.2 fun m hm => bne_iff_ne.2 fun heq => h (List.mem_map.2 ⟨m, hm, heq⟩)

theorem not_mem_keys_without (ms : Members) (key : String) : key ∉ keys (without ms key) := by
  intro h
  obtain ⟨m, hm, rfl⟩ := List.mem_map.1 h
  exact bne_iff_ne.1 (List.mem_filter.1 hm).2 rfl

theorem perm_overwrite (hk : (keys ms).Nodup) (h : key ∈ keys ms) (last : String × Json) :
    (overwrite ms key last).Perm (last :: without ms key) := by
  induction ms with
  | nil => cases h
  | cons m rest ih =>
      obtain ⟨hnew, hrest⟩ := List.nodup_cons.1 hk
      by_cases heq : m.1 = key
      · subst heq
        rw [overwrite, beq_self_eq_true, if_pos rfl, without_cons_self, without_of_not_mem hnew]
      · have hmem : key ∈ keys rest := (List.mem_cons.1 h).resolve_left fun h => heq h.symm
        rw [overwrite, beq_false_of_ne heq, if_neg Bool.false_ne_true, without_cons_of_ne heq]
        exact ((ih hrest hmem).cons m).trans (.swap _ _ _)

/-- A key is taken out, and the order of the others may change. -/
theorem perm_remove (hk : (keys ms).Nodup) (key : String) :
    (remove ms key).Perm (without ms key) := by
  rw [remove]
  split
  · rename_i hhas
    have hmem := has_eq_true_iff.1 hhas
    split
    · rename_i hlast
      rw [List.getLast?_eq_none_iff.1 hlast]
      exact .refl _
    · rename_i last hlast
      obtain ⟨init, rfl⟩ := List.getLast?_eq_some_iff.1 hlast
      rw [List.dropLast_concat]
      have hkeys : keys (init ++ [last]) = keys init ++ [last.1] := List.map_append
      rw [hkeys] at hk hmem
      obtain ⟨hinit, -, hdisjoint⟩ := List.nodup_append.1 hk
      split
      · rename_i heq
        obtain rfl := eq_of_beq heq
        have hnew : last.1 ∉ keys init := fun h => hdisjoint _ h _ (List.mem_singleton_self _) rfl
        rw [without_append, without_cons_self, without_of_not_mem hnew]
        exact (List.append_nil init).symm ▸ .refl init
      · rename_i hne
        have hne : last.1 ≠ key := fun heq => hne (beq_of_eq heq)
        have hmem : key ∈ keys init :=
          (List.mem_append.1 hmem).resolve_right fun h => hne (List.mem_singleton.1 h).symm
        rw [without_append, without_cons_of_ne hne]
        exact (perm_overwrite hinit hmem last).trans (List.perm_append_singleton _ _).symm
  · rename_i hhas
    rw [without_of_not_mem fun h => hhas (has_eq_true_iff.2 h)]

/-- A member that is taken out and put back comes last. -/
theorem perm_put_remove (hk : (keys ms).Nodup) (h : ms.lookup key = some value) :
    (put (remove ms key) key value).Perm ms := by
  have hperm := perm_remove hk key
  have hnew : key ∉ keys (remove ms key) := fun hmem =>
    not_mem_keys_without ms key ((hperm.map (·.1)).mem_iff.1 hmem)
  rw [put_of_not_mem hnew]
  refine (hperm.append_right _).trans ((List.perm_append_singleton _ _).trans ?_)
  have hnodup : ms.Nodup := hk.of_map
  have hwithout : without ms key = ms.erase (key, value) := by
    rw [hnodup.erase_eq_filter]
    refine List.filter_congr fun m hm => ?_
    rw [Bool.eq_iff_iff, bne_iff_ne, bne_iff_ne]
    refine not_congr ⟨fun heq => ?_, fun heq => heq ▸ rfl⟩
    have hm := lookup_of_mem hk (show (m.1, m.2) ∈ ms from hm)
    rw [heq, h] at hm
    exact Prod.ext heq (Option.some.inj hm).symm
  rw [hwithout]
  exact (List.perm_cons_erase (mem_of_lookup h)).symm

end Members

/-! ## Values -/

namespace Json

mutual
/-- Each object in a value has one member a key. -/
def Distinct : Json → Prop
  | .array xs => DistinctItems xs
  | .object ms => (Members.keys ms).Nodup ∧ DistinctMembers ms
  | _ => True

def DistinctItems : List Json → Prop
  | [] => True
  | v :: rest => v.Distinct ∧ DistinctItems rest

def DistinctMembers : List (String × Json) → Prop
  | [] => True
  | (_, v) :: rest => v.Distinct ∧ DistinctMembers rest
end

theorem distinctItems_iff {xs : List Json} : DistinctItems xs ↔ ∀ v ∈ xs, v.Distinct := by
  induction xs with
  | nil => simp [DistinctItems]
  | cons v rest ih => simp [DistinctItems, ih]

theorem distinctMembers_iff {ms : Members} : DistinctMembers ms ↔ ∀ m ∈ ms, m.2.Distinct := by
  induction ms with
  | nil => simp [DistinctMembers]
  | cons m rest ih => simp [DistinctMembers, ih]

theorem distinct_array {xs : List Json} : (array xs).Distinct ↔ ∀ v ∈ xs, v.Distinct :=
  distinctItems_iff

theorem distinct_object {ms : Members} :
    (object ms).Distinct ↔ (Members.keys ms).Nodup ∧ ∀ m ∈ ms, m.2.Distinct :=
  and_congr_right fun _ => distinctMembers_iff

theorem Distinct.lookup {ms : Members} (h : (object ms).Distinct) {key : String} {value : Json}
    (hl : ms.lookup key = some value) : value.Distinct :=
  (distinct_object.1 h).2 _ (mem_of_lookup hl)

mutual
theorem distinct_mergeRepeats : (v : Json) → v.mergeRepeats.Distinct
  | .array xs => by
      rw [mergeRepeats, distinct_array]
      exact distinct_mergeItems xs
  | .object ms => by
      rw [mergeRepeats, distinct_object]
      exact ⟨Members.nodup_keys_ofList _,
        fun m hm => distinct_mergeMembers ms m (Members.mem_ofList hm)⟩
  | .null | .bool _ | .number _ | .string _ => by simp only [mergeRepeats, Distinct]

theorem distinct_mergeItems : (xs : List Json) → ∀ v ∈ mergeItems xs, v.Distinct
  | [] => by simp [mergeItems]
  | x :: rest => by
      rw [mergeItems]
      intro v hv
      rcases List.mem_cons.1 hv with rfl | hv
      · exact distinct_mergeRepeats x
      · exact distinct_mergeItems rest v hv

theorem distinct_mergeMembers : (ms : List (String × Json)) → ∀ m ∈ mergeMembers ms, m.2.Distinct
  | [] => by simp [mergeMembers]
  | (k, x) :: rest => by
      rw [mergeMembers]
      intro m hm
      rcases List.mem_cons.1 hm with rfl | hm
      · exact distinct_mergeRepeats x
      · exact distinct_mergeMembers rest m hm
end

/-- A document that is read has one member a key in each object. -/
theorem distinct_of_read {text : String} {v : Json} (h : Json.read text = some v) : v.Distinct := by
  obtain ⟨w, -, rfl⟩ := Option.map_eq_some_iff.1 h
  exact distinct_mergeRepeats w

end Json

end Typewright
