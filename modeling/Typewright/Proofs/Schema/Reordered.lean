import Mathlib.Data.List.Forall2
import Typewright.Proofs.Schema.Normal

/-!
# The order of keywords

Two documents may differ in the order of the keywords of their schemas alone (`Reordered`). Then
they have schemas at the same pointers, each pair again such documents (`forall₂_positions`), and
the same faults, and their normal forms are such documents, too (`Reordered.normalize`). Everything
is read off what is looked up: normal form itself moves keywords around.
-/

namespace Typewright.Schema

open Members (keys)

mutual
/-- Two documents that differ in the order of the keywords of their schemas alone. -/
inductive Reordered : Json → Json → Prop
  | object {ms ns : Members} (perm : (keys ms).Perm (keys ns))
      (under : ∀ key v w, ms.lookup key = some v → ns.lookup key = some w →
        ReorderedUnder (shape? key) v w) : Reordered (.object ms) (.object ns)
  | other {v : Json} (h : v.isObject = false) : Reordered v v

/-- The values of a keyword in two such documents. What is no schema is the same in both, and maps
and lists of schemas keep their order. -/
inductive ReorderedUnder : Option Shape → Json → Json → Prop
  | same (shape : Option Shape) (v : Json) : ReorderedUnder shape v v
  | one {shape : Shape} {ms ns : Members} (hs : shape = .one ∨ shape = .oneOrList)
      (h : Reordered (.object ms) (.object ns)) :
      ReorderedUnder (some shape) (.object ms) (.object ns)
  | list {shape : Shape} {xs ys : List Json} (hs : shape = .list ∨ shape = .oneOrList)
      (h : List.Forall₂ Reordered xs ys) : ReorderedUnder (some shape) (.array xs) (.array ys)
  | byName {ms ns : Members} (hkeys : keys ms = keys ns)
      (h : List.Forall₂ Reordered (ms.map (·.2)) (ns.map (·.2))) :
      ReorderedUnder (some .byName) (.object ms) (.object ns)
end

/-- The same place in two such documents. -/
def Matched {α : Type} (c d : α × Json) : Prop := c.1 = d.1 ∧ Reordered c.2 d.2

/-- What two such schemas have under each key. -/
def ReorderedMembers (ms ns : Members) : Prop :=
  ∀ key, Option.Rel (ReorderedUnder (shape? key)) (ms.lookup key) (ns.lookup key)

variable {v w x : Json} {ms ns : Members} {key path : String}

/-! ## Schemas -/

theorem Reordered.refl : (v : Json) → Reordered v v
  | .object ms => .object (.refl _) fun key v w hv hw => by
      obtain rfl := Option.some.inj (hv.symm.trans hw)
      exact .same _ v
  | .null | .bool _ | .number _ | .string _ | .array _ => .other rfl

theorem Matched.refl {α : Type} (c : α × Json) : Matched c c := ⟨rfl, .refl c.2⟩

theorem Reordered.isSchema_eq (h : Reordered v w) : v.isSchema = w.isSchema := by
  cases h <;> rfl

theorem Reordered.members (h : Reordered (.object ms) (.object ns)) : ReorderedMembers ms ns := by
  cases h with
  | object perm under =>
      intro key
      have hnone : ms.lookup key = none ↔ ns.lookup key = none := by
        rw [Members.lookup_eq_none_iff, Members.lookup_eq_none_iff, perm.mem_iff]
      cases hv : ms.lookup key with
      | none =>
          rw [hnone.1 hv]
          exact .none
      | some v =>
          cases hw : ns.lookup key with
          | none =>
              rw [hnone.2 hw] at hv
              cases hv
          | some w => exact .some (under key v w hv hw)
  | other h => cases h

theorem ReorderedMembers.reordered (h : ReorderedMembers ms ns) (hms : (keys ms).Nodup)
    (hns : (keys ns).Nodup) : Reordered (.object ms) (.object ns) := by
  refine .object ((List.perm_ext_iff_of_nodup hms hns).2 fun key => ?_) fun key v w hv hw => ?_
  · have hkey := h key
    rw [← not_iff_not, ← Members.lookup_eq_none_iff, ← Members.lookup_eq_none_iff]
    generalize ms.lookup key = v, ns.lookup key = w at hkey
    cases hkey <;> simp
  · have hkey := h key
    rw [hv, hw] at hkey
    cases hkey with
    | some hu => exact hu

/-- A schema with its members in another order. -/
theorem reordered_of_perm (h : ms.Perm ns) (hk : (keys ms).Nodup) :
    Reordered (.object ms) (.object ns) := by
  refine .object (h.map _) fun key v w hv hw => ?_
  rw [← Members.lookup_perm h hk, hv] at hw
  obtain rfl := Option.some.inj hw
  exact .same _ v

/-- A keyword that holds data holds the same. -/
theorem ReorderedUnder.eq_of_data (h : ReorderedUnder none v w) : v = w := by
  cases h
  rfl

theorem ReorderedMembers.lookup_eq (h : ReorderedMembers ms ns) (hk : shape? key = none) :
    ms.lookup key = ns.lookup key := by
  have hkey := h key
  rw [hk] at hkey
  generalize ms.lookup key = v, ns.lookup key = w at hkey
  cases hkey with
  | some hu => rw [hu.eq_of_data]
  | none => rfl

theorem ReorderedMembers.has_eq (h : ReorderedMembers ms ns) (key : String) :
    Members.has ms key = Members.has ns key := by
  have hkey := h key
  unfold Members.has
  generalize ms.lookup key = v, ns.lookup key = w at hkey
  cases hkey <;> rfl

theorem Reordered.member?_eq (h : Reordered v w) (hk : shape? key = none) :
    v.member? key = w.member? key := by
  cases h with
  | object perm under => exact (Reordered.members (.object perm under)).lookup_eq hk
  | other => rfl

/-! ## Positions -/

theorem matched_of_keys (hkeys : keys ms = keys ns)
    (h : List.Forall₂ Reordered (ms.map (·.2)) (ns.map (·.2))) :
    List.Forall₂ Matched ms ns := by
  induction ms generalizing ns with
  | nil =>
      cases ns with
      | nil => exact .nil
      | cons n rest => cases hkeys
  | cons m rest ih =>
      cases ns with
      | nil => cases hkeys
      | cons n rest' =>
          obtain ⟨hkey, hkeys⟩ := List.cons.inj hkeys
          cases h with
          | cons hv h => exact .cons ⟨hkey, hv⟩ (ih hkeys h)

theorem matched_indexed {xs ys : List Json} (h : List.Forall₂ Reordered xs ys) (start : Nat) :
    List.Forall₂ Matched (Shape.indexed start xs) (Shape.indexed start ys) := by
  induction h generalizing start with
  | nil => exact .nil
  | cons hv _ ih => exact .cons ⟨rfl, hv⟩ (ih (start + 1))

theorem ReorderedUnder.parts {shape : Shape} (h : ReorderedUnder (some shape) v w) :
    List.Forall₂ Matched (shape.parts v) (shape.parts w) := by
  cases h with
  | same => exact List.forall₂_same.2 fun p _ => .refl p
  | one hs h => rcases hs with rfl | rfl <;> exact .cons ⟨rfl, h⟩ .nil
  | list hs h => rcases hs with rfl | rfl <;> exact matched_indexed h 0
  | byName hkeys h =>
      refine List.forall₂_map_left_iff.2 (List.forall₂_map_right_iff.2 ?_)
      exact (matched_of_keys hkeys h).imp fun m n hm => ⟨congrArg ([·]) hm.1, hm.2⟩

/-- The schemas one level down stand at the same pointers. -/
theorem ReorderedMembers.children (h : ReorderedMembers ms ns) (path : String) :
    List.Forall₂ Matched (children ms path) (children ns path) := by
  refine List.rel_flatMap (R := fun e e' => e = e' ∧ e ∈ keywords)
    (List.forall₂_same.2 fun e he => ⟨rfl, he⟩) ?_
  rintro ⟨keyword, shape⟩ _ ⟨rfl, hk⟩
  have hkey := h keyword
  rw [shape?_of_mem hk] at hkey
  dsimp only
  generalize ms.lookup keyword = v, ns.lookup keyword = w at hkey
  cases hkey with
  | none => exact .nil
  | some hu =>
      refine List.rel_filterMap ?_ hu.parts
      rintro ⟨segments, p⟩ ⟨_, q⟩ ⟨rfl, hpq⟩
      dsimp only at hpq ⊢
      rw [hpq.isSchema_eq]
      split
      · exact .some ⟨rfl, hpq⟩
      · exact .none

/-- The schemas of two documents that differ in the order of keywords alone stand at the same
pointers and differ in the order of keywords alone. -/
theorem Reordered.positions (h : Reordered v w) (path : String) :
    List.Forall₂ Matched (positions path v) (positions path w) := by
  induction hn : sizeOf v using Nat.strongRecOn generalizing v w path with
  | _ n ih =>
      cases h with
      | other hv =>
          rw [positions_of_not_object hv]
          exact .cons (.refl _) .nil
      | @object ms ns perm under =>
          have h : Reordered (.object ms) (.object ns) := .object perm under
          rw [positions_object, positions_object]
          refine .cons ⟨rfl, h⟩ (List.rel_flatMap
            (R := fun c d => sizeOf c.2 < sizeOf ms ∧ Matched c d)
            ((List.forall₂_and_left _ _).2
              ⟨fun c hc => sizeOf_children hc, h.members.children path⟩) ?_)
          rintro ⟨p, x⟩ ⟨_, y⟩ ⟨hsize, rfl, hxy⟩
          rw [Json.object.sizeOf_spec] at hn
          exact ih (sizeOf x) (by simp only at hsize; omega) hxy p rfl

/-- The order of keywords does not change which rules are broken and where. -/
theorem Reordered.faults_eq (h : Reordered v w) : faults v = faults w := by
  rw [faults, faults]
  have hflat := List.rel_flatMap (P := Eq) (h.positions "#") (show
    (Relator.LiftFun Matched (List.Forall₂ Eq)) (fun c => (rulesBroken c.2).map (⟨c.1, ·⟩))
      (fun c : String × Json => (rulesBroken c.2).map (Fault.mk c.1 ·)) from ?_)
  · exact List.forall₂_eq_eq_eq ▸ hflat
  · rintro ⟨p, x⟩ ⟨_, y⟩ ⟨rfl, hxy⟩
    dsimp only at hxy ⊢
    rw [rulesBroken_congr (hxy.member?_eq (by decide)) (hxy.member?_eq (by decide))]
    exact List.forall₂_same.2 fun _ _ => rfl

/-! ## Normal form -/

theorem ReorderedMembers.put (h : ReorderedMembers ms ns) (hu : ReorderedUnder (shape? key) v w) :
    ReorderedMembers (Members.put ms key v) (Members.put ns key w) := by
  intro other
  by_cases heq : other = key
  · subst heq
    rw [Members.lookup_put_self, Members.lookup_put_self]
    exact .some hu
  · rw [Members.lookup_put_of_ne heq, Members.lookup_put_of_ne heq]
    exact h other

theorem ReorderedMembers.unwrapType (h : ReorderedMembers ms ns) :
    ReorderedMembers (unwrapType ms) (unwrapType ns) := by
  unfold Schema.unwrapType
  rw [← h.lookup_eq (show shape? "type" = none by decide)]
  split
  · exact h.put (.same _ _)
  · exact h

theorem ReorderedMembers.listRequired (h : ReorderedMembers ms ns) :
    ReorderedMembers (listRequired ms) (listRequired ns) := by
  unfold Schema.listRequired
  rw [← h.lookup_eq (show shape? "required" = none by decide)]
  split
  · exact h.put (.same _ _)
  · exact h

theorem ReorderedMembers.openObject (h : ReorderedMembers ms ns) :
    ReorderedMembers (openObject ms) (openObject ns) := by
  unfold Schema.openObject
  simp only [← h.lookup_eq (show shape? "type" = none by decide), ← h.has_eq]
  split
  · exact h.put (.same _ _)
  · exact h

theorem ReorderedMembers.normalizeMembers (h : ReorderedMembers ms ns) :
    ReorderedMembers (normalizeMembers ms) (normalizeMembers ns) := by
  unfold Schema.normalizeMembers
  rw [← h.has_eq]
  split
  · exact h
  · exact h.unwrapType.listRequired.openObject

theorem ReorderedMembers.complete (h : ReorderedMembers ms ns) (key : String) (value : Json) :
    ReorderedMembers (if Members.has ms key then ms else Members.put ms key value)
      (if Members.has ns key then ns else Members.put ns key value) := by
  rw [← h.has_eq]
  split
  · exact h
  · exact h.put (.same _ _)

theorem ReorderedMembers.completeRoot (h : ReorderedMembers ms ns) (name : String) :
    ReorderedMembers (completeRoot name ms) (completeRoot name ns) := by
  unfold Schema.completeRoot
  rw [← h.has_eq]
  split
  · exact h
  · exact (h.complete "required" _).complete "title" _

theorem forall₂_of_mem {α β : Type} {R S : α → β → Prop} {xs : List α} {ys : List β}
    (h : List.Forall₂ R xs ys) (hS : ∀ x ∈ xs, ∀ y ∈ ys, R x y → S x y) : List.Forall₂ S xs ys := by
  induction h with
  | nil => exact .nil
  | cons hr _ ih =>
      exact .cons (hS _ List.mem_cons_self _ List.mem_cons_self hr) (ih fun x hx y hy =>
        hS x (List.mem_cons_of_mem _ hx) y (List.mem_cons_of_mem _ hy))

theorem rel_map_of_mem {α β γ δ : Type} {R : α → β → Prop} {S : γ → δ → Prop} {f : α → γ}
    {g : β → δ} {x : Option α} {y : Option β} (h : Option.Rel R x y)
    (hS : ∀ a, x = some a → ∀ b, y = some b → R a b → S (f a) (g b)) :
    Option.Rel S (x.map f) (y.map g) := by
  cases h with
  | some hr => exact .some (hS _ rfl _ rfl hr)
  | none => exact .none

theorem ReorderedUnder.normalize {shape : Shape} (h : ReorderedUnder (some shape) v w)
    (hv : v.Distinct) (hw : w.Distinct)
    (ih : ∀ x y, sizeOf x ≤ sizeOf v → Reordered x y → x.Distinct → y.Distinct →
      Reordered (normalizeFragment x) (normalizeFragment y)) :
    ReorderedUnder (some shape) (normalizeUnder shape v) (normalizeUnder shape w) := by
  cases h with
  | same => exact .same _ _
  | one hs h =>
      have hnormal := ih _ _ (Nat.le_refl _) h hv hw
      rw [normalizeFragment, normalizeFragment] at hnormal
      rcases hs with rfl | rfl <;> rw [normalizeUnder, normalizeUnder]
      · exact .one (.inl rfl) hnormal
      · exact .one (.inr rfl) hnormal
  | @list _ xs ys hs h =>
      have hnormal : List.Forall₂ Reordered (normalizeItems xs) (normalizeItems ys) := by
        rw [normalizeItems_eq, normalizeItems_eq]
        refine List.forall₂_map_left_iff.2 (List.forall₂_map_right_iff.2 ?_)
        refine forall₂_of_mem h fun x hx y hy hxy => ih x y ?_ hxy
          (Json.distinct_array.1 hv x hx) (Json.distinct_array.1 hw y hy)
        have := List.sizeOf_lt_of_mem hx
        rw [Json.array.sizeOf_spec]
        omega
      rcases hs with rfl | rfl <;> rw [normalizeUnder, normalizeUnder]
      · exact .list (.inl rfl) hnormal
      · exact .list (.inr rfl) hnormal
  | @byName ms ns hkeys h =>
      rw [normalizeUnder, normalizeUnder, normalizeNamed_eq, normalizeNamed_eq]
      refine .byName ?_ ?_
      · simpa only [keys, List.map_map, Function.comp_def] using hkeys
      · rw [List.map_map, List.map_map]
        refine List.forall₂_map_left_iff.2 (List.forall₂_map_right_iff.2 ?_)
        refine forall₂_of_mem (matched_of_keys hkeys h) fun m hm n hn hmn => ih m.2 n.2 ?_ hmn.2
          ((Json.distinct_object.1 hv).2 m hm) ((Json.distinct_object.1 hw).2 n hn)
        have hsize := List.sizeOf_lt_of_mem hm
        obtain ⟨key, x⟩ := m
        rw [Prod.mk.sizeOf_spec] at hsize
        rw [Json.object.sizeOf_spec]
        dsimp only
        omega

theorem ReorderedUnder.normalizeValue (h : ReorderedUnder (shape? key) v w)
    (hv : v.Distinct) (hw : w.Distinct)
    (ih : ∀ x y, sizeOf x ≤ sizeOf v → Reordered x y → x.Distinct → y.Distinct →
      Reordered (normalizeFragment x) (normalizeFragment y)) :
    ReorderedUnder (shape? key) (normalizeValue key v) (normalizeValue key w) := by
  unfold Schema.normalizeValue
  split
  · rename_i hk
    rwa [hk] at h ⊢
  · rename_i shape hk
    rw [hk] at h ⊢
    exact h.normalize hv hw ih

/-- The rules for one schema and for its parts do not look at the order of keywords. -/
theorem Reordered.normalizeFragment (h : Reordered v w) (hv : v.Distinct) (hw : w.Distinct) :
    Reordered (normalizeFragment v) (normalizeFragment w) := by
  induction hn : sizeOf v using Nat.strongRecOn generalizing v w with
  | _ n ih =>
      cases h with
      | other h => exact .refl _
      | @object ms ns perm under =>
          have h : ReorderedMembers ms ns := Reordered.members (.object perm under)
          have hdv := distinct_normalizeFragment _ hv
          have hdw := distinct_normalizeFragment _ hw
          rw [normalizeFragment_object] at hdv hdw ⊢
          rw [normalizeFragment_object]
          -- the rules move keywords around, so they are compared by what is looked up
          refine ReorderedMembers.reordered (fun key => ?_) (Json.distinct_object.1 hdv).1
            (Json.distinct_object.1 hdw).1
          rw [lookup_settle hv, lookup_settle hw]
          refine ReorderedMembers.normalizeMembers (fun key => ?_) key
          rw [lookup_normalizeEach, lookup_normalizeEach]
          refine rel_map_of_mem (h key) fun x hx y hy hxy => hxy.normalizeValue (hv.lookup hx)
            (hw.lookup hy) fun x' y' hle h hx' hy' => ih (sizeOf x') ?_ h hx' hy' rfl
          have := sizeOf_lookup hx
          rw [Json.object.sizeOf_spec] at hn
          omega

theorem Reordered.normalize (h : Reordered v w) (hv : v.Distinct) (hw : w.Distinct)
    (name : String) : Reordered (normalize name v) (normalize name w) := by
  cases h with
  | other h => exact .refl _
  | @object ms ns perm under =>
      have h : Reordered (.object ms) (.object ns) := .object perm under
      have hdv := distinct_normalize name hv
      have hdw := distinct_normalize name hw
      have hnormal := h.normalizeFragment hv hw
      rw [normalizeFragment_object, normalizeFragment_object] at hnormal
      rw [normalize_object] at hdv hdw ⊢
      rw [normalize_object]
      exact (hnormal.members.completeRoot name).reordered (Json.distinct_object.1 hdv).1
        (Json.distinct_object.1 hdw).1

end Typewright.Schema
