import Mathlib.Data.Set.Basic
import Typewright.Proofs.TypeGraph.Cycles
import Typewright.Proofs.TypeGraph.Fingerprint

/-!
# What a type graph means

A type denotes `any`, or the values that it admits and whether it admits an absent one. Relative to
an assignment of denotations to names, a named node means what its name does and an unnamed one is
read off its structure; the assignment satisfies a graph if each declared name means what its
declaration says. If every cycle passes through a named node there is one such reading
(`Reading.eq_meaning`).
-/

namespace Typewright

variable {V : Type}

/-- What a type denotes: `any`, or the values that it admits, where `none` is the absent one. -/
inductive Meaning (V : Type) where
  | any
  | values (members : Set (Option V))

namespace Meaning

/-- What the text `undefined` denotes. -/
def absent : Meaning V := .values {none}

open Classical in
/-- A union admits what one of its parts admits, an intersection what all of them admit. In both
`any` absorbs the rest. -/
noncomputable def combine (isUnion : Bool) (parts : List (Meaning V)) : Meaning V :=
  if .any ∈ parts then .any
  else .values {x | if isUnion then ∃ s, .values s ∈ parts ∧ x ∈ s else ∀ s, .values s ∈ parts → x ∈ s}

/-- What an optional member admits. -/
noncomputable def optional (d : Meaning V) : Meaning V := combine true [d, absent]

variable {isUnion : Bool} {ds es : List (Meaning V)}

theorem combine_of_any (h : .any ∈ ds) : combine isUnion ds = .any := if_pos h

theorem any_eq_combine_iff : Meaning.any = combine isUnion ds ↔ .any ∈ ds := by
  unfold combine
  split <;> simp_all

@[simp] theorem combine_singleton (d : Meaning V) : combine isUnion [d] = d := by
  cases d with
  | any => simp [combine]
  | values s => cases isUnion <;> simp [combine]

theorem combine_of_not_any (h : .any ∉ ds) : combine isUnion ds = .values
    {x | if isUnion then ∃ s, .values s ∈ ds ∧ x ∈ s else ∀ s, .values s ∈ ds → x ∈ s} :=
  if_neg h

theorem combine_congr (h : ∀ d, d ∈ ds ↔ d ∈ es) : combine isUnion ds = combine isUnion es := by
  by_cases hany : .any ∈ ds
  · rw [combine_of_any hany, combine_of_any ((h _).1 hany)]
  · rw [combine_of_not_any hany, combine_of_not_any (mt (h _).2 hany)]
    simp only [h]

/-- A combination inside one of the same kind may be dissolved. -/
theorem combine_flatMap {α : Type} (isUnion : Bool) (xs : List α) (f : α → List (Meaning V)) :
    combine isUnion (xs.flatMap f) = combine isUnion (xs.map fun x => combine isUnion (f x)) := by
  by_cases hany : .any ∈ xs.flatMap f
  · obtain ⟨x, hx, hmem⟩ := List.mem_flatMap.1 hany
    rw [combine_of_any hany, combine_of_any (List.mem_map.2 ⟨x, hx, combine_of_any hmem⟩)]
  · have hnone : ∀ x ∈ xs, .any ∉ f x := fun x hx hmem => hany (List.mem_flatMap.2 ⟨x, hx, hmem⟩)
    have hmap : .any ∉ xs.map fun x => combine isUnion (f x) := by
      intro hmem
      obtain ⟨x, hx, heq⟩ := List.mem_map.1 hmem
      exact hnone x hx (any_eq_combine_iff.1 heq.symm)
    have hparts : ∀ s, .values s ∈ (xs.map fun x => combine isUnion (f x)) ↔ ∃ x ∈ xs,
        {y | if isUnion then ∃ s, .values s ∈ f x ∧ y ∈ s else ∀ s, .values s ∈ f x → y ∈ s} = s := by
      intro s
      rw [List.mem_map]
      refine exists_congr fun x => and_congr_right fun hx => ?_
      rw [combine_of_not_any (hnone x hx), values.injEq]
    rw [combine_of_not_any hany, combine_of_not_any hmap]
    congr 1
    ext y
    simp only [hparts, Set.mem_ofPred_eq, List.mem_flatMap]
    cases isUnion with
    | true =>
        simp only [if_true]
        constructor
        · rintro ⟨s, ⟨x, hx, hs⟩, hy⟩
          exact ⟨_, ⟨x, hx, rfl⟩, s, hs, hy⟩
        · rintro ⟨_, ⟨x, hx, rfl⟩, s, hs, hy⟩
          exact ⟨s, ⟨x, hx, hs⟩, hy⟩
    | false =>
        simp only [Bool.false_eq_true, if_false]
        constructor
        · rintro h _ ⟨x, hx, rfl⟩ s hs
          exact h s ⟨x, hx, hs⟩
        · rintro h s ⟨x, hx, hs⟩
          exact h _ ⟨x, hx, rfl⟩ s hs

/-- A union with `undefined` is the rest of it, made optional. -/
theorem combine_eq_optional (h : ∀ d, d ∈ ds ↔ d ∈ es ∨ d = absent) :
    combine true ds = (combine true es).optional := by
  have hflat := combine_flatMap true [es, [absent]] id
  simp only [List.flatMap_cons, id, List.flatMap_nil, List.append_nil, List.map_cons,
    combine_singleton, List.map_nil] at hflat
  rw [optional, ← hflat]
  exact combine_congr fun d => by rw [h, List.mem_append, List.mem_singleton]

@[simp] theorem optional_optional (d : Meaning V) : d.optional.optional = d.optional := by
  have h : combine true [d, absent] = (combine true [d, absent]).optional :=
    combine_eq_optional fun e => by simp
  exact h.symm

end Meaning

/-- The meanings of what rewriting does not look into. They are arbitrary: an interface may mean
whatever its rendered members and its super types determine. -/
structure Interpretation (V : Type) where
  boolean : Meaning V
  null : Meaning V
  number : Meaning V
  object : Meaning V
  string : Meaning V
  /-- A text other than `undefined`. -/
  text : String → Meaning V
  literal : Json → Meaning V
  array : Meaning V → Meaning V
  tuple : List (Meaning V) → Meaning V
  /-- The keys of an enum with their values. -/
  enum : List (String × Meaning V) → Meaning V
  /-- The rendered members of an interface, and its super types. -/
  interface : List (String × Meaning V) → List (Meaning V) → Meaning V
  /-- A slot without a node. -/
  unbuilt : Meaning V

namespace Interpretation

variable (M : Interpretation V)

/-- A member of an interface with what it admits, if it is rendered. -/
noncomputable def member (F : NodeId → Meaning V) (m : InterfaceMember) :
    Option (String × Meaning V) :=
  if m.pattern || m.unreachable then none
  else some (m.key, if m.required then F m.node else (F m.node).optional)

/-- The meaning of a kind from those of its children. -/
noncomputable def kind (F : NodeId → Meaning V) : Kind → Meaning V
  | .any => .any
  | .boolean => M.boolean
  | .null => M.null
  | .number => M.number
  | .object => M.object
  | .string => M.string
  | .customType text | .reference text => if text = "undefined" then .absent else M.text text
  | .literal value => M.literal value
  | .array element => M.array (F element)
  | .tuple cs => M.tuple (cs.map F)
  | .union cs => .combine true (cs.map F)
  | .intersection cs => .combine false (cs.map F)
  | .enum members => M.enum (members.map fun m => (m.key, F m.node))
  | .interface members supers => M.interface (members.filterMap (member F)) (supers.map F)

variable {F F' : NodeId → Meaning V}

@[simp] theorem kind_combination (isUnion : Bool) (cs : List NodeId) :
    M.kind F (.combination isUnion cs) = .combine isUnion (cs.map F) := by
  cases isUnion <;> rfl

theorem map_eq_of_forall₂ {α β γ : Type} {f : α → γ} {h : β → γ} {xs : List α} {ys : List β}
    (hxy : List.Forall₂ (fun x y => f x = h y) xs ys) : xs.map f = ys.map h := by
  rwa [← List.forall₂_eq_eq_eq, List.forall₂_map_left_iff, List.forall₂_map_right_iff]

theorem filterMap_eq_of_forall₂ {α β γ : Type} {f : α → Option γ} {h : β → Option γ} {xs : List α}
    {ys : List β} (hxy : List.Forall₂ (fun x y => f x = h y) xs ys) :
    xs.filterMap f = ys.filterMap h := by
  induction hxy with
  | nil => rfl
  | cons heq _ ih => rw [List.filterMap_cons, List.filterMap_cons, heq, ih]

/-- Kinds that are alike but for children that mean the same mean the same. -/
theorem kind_alike {k l : Kind} (h : k.Alike (fun a b => F a = F' b) l) :
    M.kind F k = M.kind F' l := by
  cases h with
  | leaf hleaf =>
      cases k with
      | array => cases hleaf
      | tuple => cases hleaf; rfl
      | union => cases hleaf; rfl
      | intersection => cases hleaf; rfl
      | enum members =>
          obtain rfl := List.map_eq_nil_iff.1 hleaf
          rfl
      | interface members supers =>
          obtain ⟨hm, rfl⟩ := List.append_eq_nil_iff.1 hleaf
          obtain rfl := List.map_eq_nil_iff.1 hm
          rfl
      | _ => rfl
  | array h => exact congrArg M.array h
  | tuple h => exact congrArg M.tuple (map_eq_of_forall₂ h)
  | union h => exact congrArg (Meaning.combine true) (map_eq_of_forall₂ h)
  | intersection h => exact congrArg (Meaning.combine false) (map_eq_of_forall₂ h)
  | enum h =>
      refine congrArg M.enum (map_eq_of_forall₂ (h.imp fun m n hmn => ?_))
      rw [hmn.1, hmn.2]
  | interface hm hs =>
      refine congrArg₂ M.interface (filterMap_eq_of_forall₂ (hm.imp fun m n hmn => ?_))
        (map_eq_of_forall₂ hs)
      obtain ⟨hkey, hr, hp, hu, hnode⟩ := hmn
      rw [member, member, hkey, hr, hp, hu, hnode]

theorem kind_congr {k : Kind} (h : ∀ c ∈ k.children, F c = F' c) : M.kind F k = M.kind F' k := by
  cases k with
  | array element => exact congrArg M.array (h element List.mem_cons_self)
  | tuple cs => exact congrArg M.tuple (List.map_congr_left h)
  | union cs => exact congrArg (Meaning.combine true) (List.map_congr_left h)
  | intersection cs => exact congrArg (Meaning.combine false) (List.map_congr_left h)
  | enum members =>
      refine congrArg M.enum (List.map_congr_left fun m hm => ?_)
      rw [h m.node (List.mem_map_of_mem hm)]
  | interface members supers =>
      refine congrArg₂ M.interface (List.filterMap_congr fun m hm => ?_)
        (List.map_congr_left fun s hs => h s (List.mem_append_right _ hs))
      rw [member, member, h m.node (List.mem_append_left _ (List.mem_map_of_mem hm))]
  | _ => rfl

theorem kind_mapChildren (f : NodeId → NodeId) (k : Kind) :
    M.kind F (k.mapChildren f) = M.kind (F ∘ f) k := by
  cases k with
  | interface members supers =>
      simp only [Kind.mapChildren, kind, List.filterMap_map, List.map_map]
      rfl
  | _ => simp [Kind.mapChildren, kind, Function.comp_def]

end Interpretation

namespace TypeGraph

variable (M : Interpretation V) (rho : String → Meaning V)

/-! ## Meanings of nodes -/

/-- The meaning of a node, where `fresh` holds the nodes that are not being read. -/
noncomputable def meaningFrom (g : TypeGraph) (fresh : List NodeId) (id : NodeId) : Meaning V :=
  match g.get? id with
  | none => M.unbuilt
  | some node =>
    match node.name with
    | some name => rho name
    | none =>
      if _h : id ∈ fresh then M.kind (meaningFrom g (fresh.erase id)) node.kind
      else M.unbuilt
termination_by fresh.length
decreasing_by exact Walk.length_erase_lt_of_mem ‹_›

/-- The meaning of a node. -/
noncomputable def meaning (g : TypeGraph) (id : NodeId) : Meaning V :=
  g.meaningFrom M rho (List.range g.size) id

/-- Each name that the graph declares means what its declaration says. -/
def Satisfies (g : TypeGraph) : Prop :=
  ∀ id node name, g.Reaches id → g.get? id = some node → node.name = some name →
    rho name = M.kind (g.meaning M rho) node.kind

/-- Meanings for live nodes that fit together. -/
structure Reading (g : TypeGraph) (live : NodeId → Prop) (I : NodeId → Meaning V) : Prop where
  unbuilt : ∀ id, live id → g.get? id = none → I id = M.unbuilt
  named : ∀ id node name, live id → g.get? id = some node → node.name = some name → I id = rho name
  inlined : ∀ id node, live id → g.get? id = some node → node.name = none →
    I id = M.kind I node.kind

variable {M rho} {g : TypeGraph} {live : NodeId → Prop} {rank : NodeId → Nat}

theorem meaningFrom_of_none {fresh : List NodeId} {id : NodeId} (h : g.get? id = none) :
    g.meaningFrom M rho fresh id = M.unbuilt := by
  rw [meaningFrom, h]

theorem meaningFrom_of_named {fresh : List NodeId} {id : NodeId} {node : Node} {name : String}
    (h : g.get? id = some node) (hname : node.name = some name) :
    g.meaningFrom M rho fresh id = rho name := by
  rw [meaningFrom, h]
  simp only [hname]

theorem meaningFrom_of_unnamed {fresh : List NodeId} {id : NodeId} {node : Node}
    (h : g.get? id = some node) (hname : node.name = none) (hmem : id ∈ fresh) :
    g.meaningFrom M rho fresh id = M.kind (g.meaningFrom M rho (fresh.erase id)) node.kind := by
  rw [meaningFrom, h]
  simp only [hname, dif_pos hmem]

/-- Only the nodes below an unnamed node must be fresh for its meaning. -/
theorem meaningFrom_eq (hrank : g.Ranking live rank)
    (hchild : ∀ id node, live id → g.get? id = some node → ∀ c ∈ node.kind.children, live c)
    {fresh fresh' : List NodeId} {id : NodeId} (hid : live id)
    (hf : ∀ i < g.size, rank i ≤ rank id → i ∈ fresh)
    (hf' : ∀ i < g.size, rank i ≤ rank id → i ∈ fresh') :
    g.meaningFrom M rho fresh id = g.meaningFrom M rho fresh' id := by
  induction hr : rank id using Nat.strongRecOn generalizing id fresh fresh' with
  | ind r ih =>
      cases hn : g.get? id with
      | none => rw [meaningFrom_of_none hn, meaningFrom_of_none hn]
      | some node =>
          cases hname : node.name with
          | some name => rw [meaningFrom_of_named hn hname, meaningFrom_of_named hn hname]
          | none =>
              have hlt := g.lt_size_of_get? hn
              rw [meaningFrom_of_unnamed hn hname (hf id hlt (Nat.le_refl _)),
                meaningFrom_of_unnamed hn hname (hf' id hlt (Nat.le_refl _))]
              refine M.kind_congr fun c hc => ?_
              have hdown : rank c < rank id := hrank.inlines id c hid ⟨node, hn, hname, hc⟩
              have herase : ∀ {l : List NodeId}, (∀ i < g.size, rank i ≤ rank id → i ∈ l) →
                  ∀ i < g.size, rank i ≤ rank c → i ∈ l.erase id := by
                intro l hl i hi hic
                have hne : i ≠ id := by
                  rintro rfl
                  exact Nat.lt_irrefl _ (Nat.lt_of_le_of_lt hic hdown)
                exact (List.mem_erase_of_ne hne).2
                  (hl i hi (Nat.le_of_lt (Nat.lt_of_le_of_lt hic hdown)))
              exact ih (rank c) (hr ▸ hdown) (hchild id node hid hn c hc) (herase hf) (herase hf') rfl

/-- Meanings fit together. -/
theorem reading_meaning (M : Interpretation V) (rho : String → Meaning V)
    (hrank : g.Ranking live rank)
    (hchild : ∀ id node, live id → g.get? id = some node → ∀ c ∈ node.kind.children, live c) :
    g.Reading M rho live (g.meaning M rho) where
  unbuilt _ _ hn := meaningFrom_of_none hn
  named _ _ _ _ hn hname := meaningFrom_of_named hn hname
  inlined id node hid hn hname := by
    have hrange : ∀ {i}, i < g.size → i ∈ List.range g.size := fun h => List.mem_range.2 h
    rw [meaning, meaningFrom_of_unnamed hn hname (hrange (g.lt_size_of_get? hn))]
    refine M.kind_congr fun c hc => meaningFrom_eq hrank hchild (hchild id node hid hn c hc) ?_
      fun i hi _ => hrange hi
    intro i hi hic
    have hne : i ≠ id := by
      rintro rfl
      exact Nat.not_lt.2 hic (hrank.inlines i c hid ⟨node, hn, hname, hc⟩)
    exact (List.mem_erase_of_ne hne).2 (hrange hi)

/-- There is one reading. -/
theorem Reading.eq_meaning {I : NodeId → Meaning V} (hI : g.Reading M rho live I)
    (hrank : g.Ranking live rank)
    (hchild : ∀ id node, live id → g.get? id = some node → ∀ c ∈ node.kind.children, live c)
    {id : NodeId} (hid : live id) : g.meaning M rho id = I id := by
  have hm := reading_meaning M rho hrank hchild
  induction hr : rank id using Nat.strongRecOn generalizing id with
  | ind r ih =>
      cases hn : g.get? id with
      | none => rw [hm.unbuilt id hid hn, hI.unbuilt id hid hn]
      | some node =>
          cases hname : node.name with
          | some name => rw [hm.named id node name hid hn hname, hI.named id node name hid hn hname]
          | none =>
              rw [hm.inlined id node hid hn hname, hI.inlined id node hid hn hname]
              refine M.kind_congr fun c hc => ?_
              exact ih (rank c) (hr ▸ hrank.inlines id c hid ⟨node, hn, hname, hc⟩)
                (hchild id node hid hn c hc) rfl

end TypeGraph

end Typewright
