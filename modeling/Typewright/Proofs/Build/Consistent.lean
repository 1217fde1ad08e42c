import Typewright.Proofs.Build.Basic
import Typewright.Proofs.Identifier

/-!
# The invariant of a build

Between the steps of a build every recorded fragment has a slot, every built node describes its
fragment, and an unfinished node that some child leads back to is going to be named. So no cycle of
unnamed nodes can close. Each primitive step keeps this.
-/

namespace Typewright

namespace Build

variable {α β : Type} {ctx : BuildContext} {asked : Request → Prop} {s t : Builder}

/-! ## The invariant -/

/-- A kind that a node of the graph may have. -/
structure Fits (s : Builder) (kind : Kind) : Prop where
  children : ∀ c ∈ kind.children, Known s c
  supers : ∀ members supers, kind = .interface members supers →
    ∀ x ∈ supers, s.graph.NamedInterface x
  enums : ∀ members, kind = .enum members → ∀ m ∈ members, s.graph.PlainLiteral m.node

theorem Fits.keeps {kind : Kind} (h : Fits s kind) (hk : Keeps s t) : Fits t kind where
  children c hc := (h.children c hc).keeps hk
  supers members supers heq x hx := hk.namedInterface (h.supers members supers heq x hx)
  enums members heq m hm := hk.plainLiteral (h.enums members heq m hm)

theorem Fits.of_childless {kind : Kind} (h : kind.children = []) : Fits s kind where
  children c hc := by rw [h] at hc; cases hc
  supers members supers heq x hx := by
    subst heq
    exact absurd (List.mem_append_right _ hx) (h ▸ List.not_mem_nil)
  enums members heq m hm := by
    subst heq
    exact absurd (List.mem_map_of_mem hm) (h ▸ List.not_mem_nil)

/-- A name that a node of the graph may have. -/
def Named (s : Builder) (name : String) : Prop :=
  Identifier.Clean name.toList ∧ name ∈ s.usedNames

/-- The built nodes are sound. -/
structure Shaped (s : Builder) : Prop where
  fits : ∀ i node, s.graph.get? i = some node → Fits s node.kind
  names : ∀ i node name, s.graph.get? i = some node → node.name = some name → Named s name
  distinct : ∀ i j node node' name, s.graph.get? i = some node → s.graph.get? j = some node' →
    node.name = some name → node'.name = some name → i = j
  cycles : ∀ i, ¬ Relation.TransGen s.graph.Inlines i i

/-- The text for a reference that is not loaded. -/
def externalText (name : String) : String :=
  if (Identifier.sanitize name).isEmpty then "unknown" else Identifier.sanitize name

/-- A node is named after the hint of its fragment. Without a hint it has a name only if it refers to
itself, made of the key under which it was met. -/
def Titled (ctx : BuildContext) (id : Fragment) (schema : Json) (isRoot : Bool) (node : Node) :
    Prop :=
  match nameHint ctx id schema node.key isRoot with
  | some hint => ∃ used, node.name = some (Identifier.fresh hint used)
  | none => ∀ name, node.name = some name →
    ∃ used, name = Identifier.fresh (node.key.getD "Recursive") used

/-- The kind of a node that stands for no fragment. -/
inductive Loose (ctx : BuildContext) : Kind → Prop
  | any : Loose ctx .any
  | literal (value : Json) : Loose ctx (.literal value)
  | external {site : Fragment} {name : String}
      (h : ctx.schemas.resolve site = .ok (.external name)) :
      Loose ctx (.reference (externalText name))

theorem Loose.children {kind : Kind} (h : Loose ctx kind) : kind.children = [] := by
  cases h <;> rfl

/-- Where a node comes from: it is named after the fragment it was made for, without a hint only if
one of its parts led back to it, or it stands for no fragment and has no name. -/
def Sourced (ctx : BuildContext) (asked : Request → Prop) (s : Builder) (i : NodeId) (node : Node) :
    Prop :=
  (∃ id schema isRoot, s.processed.lookup id = some i ∧ Occurs ctx asked id schema ∧
    Met ctx asked id node.key isRoot ∧ Titled ctx id schema isRoot node ∧
    (nameHint ctx id schema node.key isRoot = none → node.name.isSome → i ∈ s.needsName)) ∨
  (node.name = none ∧ (∀ id, s.processed.lookup id ≠ some i) ∧ Loose ctx node.kind)

/-- What holds between the steps of a build. -/
structure Consistent (ctx : BuildContext) (asked : Request → Prop) (s : Builder) : Prop
    extends Shaped s where
  /-- A recorded fragment is no reference and has a slot, and its node describes it. -/
  processed : ∀ id i, s.processed.lookup id = some i → i < s.graph.size ∧
    ctx.schemas.refs.lookup id = none ∧ ∃ schema, Occurs ctx asked id schema ∧
      ∀ node, s.graph.get? i = some node → Describes ctx s id schema node.kind
  /-- Distinct fragments have distinct slots. -/
  separate : ∀ id id' i, s.processed.lookup id = some i → s.processed.lookup id' = some i → id = id'
  references : ∀ name i, s.references.lookup name = some i →
    Leaf s (.reference (externalText name)) i
  pending : ∀ i, i ∈ s.inProgress ↔ i < s.graph.size ∧ s.graph.get? i = none
  sourced : ∀ i node, s.graph.get? i = some node → Sourced ctx asked s i node

/-- Where nothing is under construction, each slot is built. -/
theorem Consistent.exists_node (h : Consistent ctx asked s) (hin : s.inProgress = []) {i : NodeId}
    (hi : i < s.graph.size) : ∃ node, s.graph.get? i = some node := by
  cases hn : s.graph.get? i with
  | some node => exact ⟨node, rfl⟩
  | none =>
      have hpending := (h.pending i).2 ⟨hi, hn⟩
      rw [hin] at hpending
      cases hpending

/-- The node of a recorded fragment is named after it. -/
theorem Consistent.sourced_of_lookup (h : Consistent ctx asked s) {id : Fragment} {i : NodeId}
    {node : Node} (hl : s.processed.lookup id = some i) (hn : s.graph.get? i = some node) :
    ∃ schema isRoot, Occurs ctx asked id schema ∧ Met ctx asked id node.key isRoot ∧
      Titled ctx id schema isRoot node ∧
      (nameHint ctx id schema node.key isRoot = none → node.name.isSome → i ∈ s.needsName) := by
  rcases h.sourced i node hn with ⟨id', schema, isRoot, hl', hsource⟩ | ⟨-, hfree, -⟩
  · obtain rfl := h.separate id id' i hl hl'
    exact ⟨schema, isRoot, hsource⟩
  · exact absurd hl (hfree id)

theorem Shaped.alike (h : Shaped s) (hk : Keeps s t)
    (hslot : ∀ i node, t.graph.get? i = some node →
      ∃ old, s.graph.get? i = some old ∧ Alike old node) : Shaped t where
  fits i node hn := by
    obtain ⟨old, hold, hkind, -⟩ := hslot i node hn
    exact hkind ▸ (h.fits i old hold).keeps hk
  names i node name hn hname := by
    obtain ⟨old, hold, -, hsame⟩ := hslot i node hn
    obtain ⟨hclean, hused⟩ := h.names i old name hold (hsame ▸ hname)
    exact ⟨hclean, hk.usedNames name hused⟩
  distinct i j node node' name hi hj hni hnj := by
    obtain ⟨old, hold, -, hsame⟩ := hslot i node hi
    obtain ⟨old', hold', -, hsame'⟩ := hslot j node' hj
    exact h.distinct i j old old' name hold hold' (hsame ▸ hni) (hsame' ▸ hnj)
  cycles i hcycle := by
    refine h.cycles i (hcycle.lift id fun a b hab => ?_)
    obtain ⟨node, hn, hname, hb⟩ := hab
    obtain ⟨old, hold, hkind, hsame⟩ := hslot a node hn
    exact ⟨old, hold, hsame ▸ hname, hkind ▸ hb⟩

/-- A cycle of unnamed nodes needs an edge to each of its nodes. -/
theorem not_transGen_of_avoids {r r' : NodeId → NodeId → Prop} {n : NodeId}
    (hr : ∀ a b, r' a b → a ≠ n → r a b) (havoid : ∀ a, ¬ r' a n)
    (h : ∀ i, ¬ Relation.TransGen r i i) (i : NodeId) : ¬ Relation.TransGen r' i i := by
  intro hcycle
  have hne : i ≠ n := by
    rintro rfl
    obtain ⟨b, -, hb⟩ := Relation.TransGen.tail'_iff.1 hcycle
    exact havoid b hb
  have hpath : ∀ b, Relation.TransGen r' i b → b ≠ n ∧ Relation.TransGen r i b := by
    intro b hb
    induction hb with
    | single hab => exact ⟨fun heq => havoid _ (heq ▸ hab), .single (hr _ _ hab hne)⟩
    | tail _ hbc ih => exact ⟨fun heq => havoid _ (heq ▸ hbc), ih.2.tail (hr _ _ hbc ih.1)⟩
  exact h i (hpath i hcycle).2

/-- A further node keeps the nodes sound: if it has no name, none refers to it. -/
theorem Shaped.insert (h : Shaped s) (hk : Keeps s t) {n : NodeId} {node : Node}
    (hn : t.graph.get? n = some node)
    (hslot : ∀ i other, i ≠ n → t.graph.get? i = some other →
      ∃ old, s.graph.get? i = some old ∧ Alike old other)
    (hfits : Fits t node.kind) (hname : ∀ name, node.name = some name → Named t name ∧
      ∀ i old, s.graph.get? i = some old → i ≠ n → old.name ≠ some name)
    (hfree : node.name = none → n ∉ node.kind.children ∧
      ∀ i old, s.graph.get? i = some old → n ∉ old.kind.children) : Shaped t where
  fits i other ho := by
    by_cases hi : i = n
    · subst hi
      obtain rfl := Option.some.inj (hn.symm.trans ho)
      exact hfits
    · obtain ⟨old, hold, hkind, -⟩ := hslot i other hi ho
      exact hkind ▸ (h.fits i old hold).keeps hk
  names i other name ho hother := by
    by_cases hi : i = n
    · subst hi
      obtain rfl := Option.some.inj (hn.symm.trans ho)
      exact (hname name hother).1
    · obtain ⟨old, hold, -, hsame⟩ := hslot i other hi ho
      obtain ⟨hclean, hused⟩ := h.names i old name hold (hsame ▸ hother)
      exact ⟨hclean, hk.usedNames name hused⟩
  distinct i j nodei nodej name hi hj hni hnj := by
    have hnew : ∀ {k other}, t.graph.get? k = some other → other.name = some name →
        node.name = some name → k = n := by
      intro k other hk' hother hnode
      by_contra hne
      obtain ⟨old, hold, -, hsame⟩ := hslot k other hne hk'
      exact (hname name hnode).2 k old hold hne (hsame ▸ hother)
    by_cases hin : i = n
    · subst hin
      obtain rfl := Option.some.inj (hn.symm.trans hi)
      exact (hnew hj hnj hni).symm
    · by_cases hjn : j = n
      · subst hjn
        obtain rfl := Option.some.inj (hn.symm.trans hj)
        exact hnew hi hni hnj
      · obtain ⟨old, hold, -, hsame⟩ := hslot i nodei hin hi
        obtain ⟨old', hold', -, hsame'⟩ := hslot j nodej hjn hj
        exact h.distinct i j old old' name hold hold' (hsame ▸ hni) (hsame' ▸ hnj)
  cycles := by
    have hold : ∀ a b, t.graph.Inlines a b → a ≠ n → s.graph.Inlines a b := by
      rintro a b ⟨other, ho, hother, hb⟩ hne
      obtain ⟨old, hold, hkind, hsame⟩ := hslot a other hne ho
      exact ⟨old, hold, hsame ▸ hother, hkind ▸ hb⟩
    cases hnone : node.name with
    | some name =>
        -- a named node inlines nothing
        intro i hcycle
        refine h.cycles i (hcycle.lift id fun a b hab => hold a b hab ?_)
        rintro rfl
        obtain ⟨other, ho, hother, -⟩ := hab
        obtain rfl := Option.some.inj (hn.symm.trans ho)
        rw [hnone] at hother
        cases hother
    | none =>
        refine not_transGen_of_avoids hold ?_ h.cycles
        rintro a ⟨other, ho, -, hb⟩
        by_cases ha : a = n
        · subst ha
          obtain rfl := Option.some.inj (hn.symm.trans ho)
          exact (hfree hnone).1 hb
        · obtain ⟨old, hold, hkind, -⟩ := hslot a other ha ho
          exact (hfree hnone).2 a old hold (hkind ▸ hb)

end Build

end Typewright
