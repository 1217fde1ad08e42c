import Mathlib.Data.List.Forall2
import Typewright.Proofs.TypeGraph.Basic
import Typewright.TypeGraph.Simplify

/-!
# The edits of a simplification

`Combined` says once what reducing a union or an intersection can do, and `Edit` what a
simplification can do to a graph, both with all guards. Every sweep is a run of edits
(`edits_settle`), so an invariant of simplification is an invariant of each edit.

A `Stage` adds to a graph under work what proofs keep about it: the nodes that count as live, which
the root leads to, and for each node that was made for the rest of a union the union itself.
-/

namespace Typewright

/-- A union, or else an intersection. -/
def Kind.combination (isUnion : Bool) (children : List NodeId) : Kind :=
  if isUnion then .union children else .intersection children

@[simp] theorem Kind.children_combination (isUnion : Bool) (children : List NodeId) :
    (combination isUnion children).children = children := by
  cases isUnion <;> rfl

theorem Kind.of_mapChildren_combination {kind : Kind} {f : NodeId → NodeId} {isUnion : Bool}
    {cs : List NodeId} (h : kind.mapChildren f = combination isUnion cs) :
    ∃ ds, kind = combination isUnion ds ∧ cs = ds.map f := by
  cases isUnion <;> cases kind <;> cases h
  · exact ⟨_, rfl, rfl⟩
  · exact ⟨_, rfl, rfl⟩

theorem Kind.of_mapChildren_interface {kind : Kind} {f : NodeId → NodeId} {ms : List InterfaceMember}
    {ss : List NodeId} (h : kind.mapChildren f = .interface ms ss) :
    ∃ members supers, kind = .interface members supers ∧
      ms = members.map (fun m => { m with node := f m.node }) ∧ ss = supers.map f := by
  cases kind <;> cases h
  exact ⟨_, _, rfl, rfl, rfl⟩

/-- A property of the texts and literals that a kind holds. -/
structure Kind.Textual (Q : Kind → Prop) : Prop where
  map : ∀ f kind, Q kind → Q (kind.mapChildren f)
  combination : ∀ isUnion children, Q (.combination isUnion children)
  any : Q .any
  interface : ∀ members supers, Q (.interface members supers)

namespace Reduction

variable (w : Reduction)

/-- What is left of the members of a combination after flattening and dropping duplicates. -/
def members (id : NodeId) (isUnion : Bool) (children : List NodeId) : List NodeId :=
  w.dropDuplicates [] (w.flatten id isUnion (children.map w.resolve))

/-- The branches of a union that are not the text `undefined`. -/
def defined (branches : List NodeId) : List NodeId := branches.filter (!w.isUndefined ·)

/-- The members of an interface that a simplification keeps. -/
def kept (keep : Bool) (members : List InterfaceMember) : List InterfaceMember :=
  if keep then members else members.filter (!·.unreachable)

@[simp] theorem setMembers_eq (isUnion : Bool) (node : Node) (ms : List NodeId) :
    setMembers isUnion node ms = { node with kind := Kind.combination isUnion ms } := rfl

/-! ## Redirects -/

/-- A redirect leads from one node to another. -/
def Leads (a b : NodeId) : Prop := (a, b) ∈ w.redirects

/-- No redirect starts at a node. -/
def Free (id : NodeId) : Prop := ∀ b, ¬ w.Leads id b

theorem lookup_ne_none {α β : Type} [BEq α] [LawfulBEq α] {l : List (α × β)} {a : α} {b : β}
    (h : (a, b) ∈ l) : l.lookup a ≠ none := by
  intro hnone
  have hne := List.lookup_eq_none_iff.1 hnone (a, b) h
  simp at hne

theorem leads_resolveFrom (hops : Nat) (id : NodeId) :
    Relation.ReflTransGen w.Leads id (w.resolveFrom hops id) := by
  induction hops generalizing id with
  | zero => exact .refl
  | succ hops ih =>
      rw [resolveFrom]
      split
      · exact .refl
      · rename_i next hl
        split
        · exact .refl
        · exact .head (mem_of_lookup hl) (ih next)

/-- The node that stands for another is found along redirects. -/
theorem leads_resolve (id : NodeId) : Relation.ReflTransGen w.Leads id (w.resolve id) :=
  w.leads_resolveFrom _ id

variable {w} in
/-- A node without redirect stands for itself. -/
theorem Free.resolve_eq {id : NodeId} (h : w.Free id) : w.resolve id = id := by
  rcases (Relation.ReflTransGen.cases_head_iff).1 (w.leads_resolve id) with heq | ⟨b, hl, -⟩
  · exact heq.symm
  · exact (h b hl).elim

/-- What holds of a node and passes on along redirects holds of the node that stands for it. -/
theorem resolve_induction {P : NodeId → Prop} {id : NodeId} (h : P id)
    (hl : ∀ a b, w.Leads a b → P a → P b) : P (w.resolve id) := by
  have hall : ∀ b, Relation.ReflTransGen w.Leads id b → P b := by
    intro b hpath
    induction hpath with
    | refl => exact h
    | tail _ hbc ih => exact hl _ _ hbc ih
  exact hall _ (w.leads_resolve id)

/-! ## Members -/

theorem mem_dropDuplicates {seen : List String} {ids : List NodeId} {id : NodeId}
    (h : id ∈ w.dropDuplicates seen ids) : id ∈ ids := by
  induction ids generalizing seen with
  | nil => simp [dropDuplicates] at h
  | cons a rest ih =>
      simp only [dropDuplicates] at h
      split at h
      · exact List.mem_cons_of_mem _ (ih h)
      · rcases List.mem_cons.1 h with rfl | h
        · exact List.mem_cons_self
        · exact List.mem_cons_of_mem _ (ih h)

/-- A flattened member is a member, or one of a dissolved member. -/
theorem mem_flatten {id m : NodeId} {isUnion : Bool} {children : List NodeId}
    (h : m ∈ w.flatten id isUnion children) :
    m ∈ children ∨ ∃ c ∈ children, ∃ node, w.graph.get? c = some node ∧ c ≠ id ∧
      dissolves isUnion node = true ∧ ∃ d ∈ node.kind.children, m = w.resolve d := by
  obtain ⟨c, hc, hm⟩ := List.mem_flatMap.1 h
  split at hm
  · exact .inl (List.mem_singleton.1 hm ▸ hc)
  · rename_i node hn
    split at hm
    · rename_i hd
      obtain ⟨d, hd', rfl⟩ := List.mem_map.1 hm
      simp only [Bool.and_eq_true, bne_iff_ne, ne_eq] at hd
      exact .inr ⟨c, hc, node, hn, hd.1, hd.2, d, hd', rfl⟩
    · exact .inl (List.mem_singleton.1 hm ▸ hc)

/-- What holds of the members and passes on from dissolved ones to their own holds of the flattened
members. -/
theorem of_mem_flatten {P : NodeId → Prop} {id m : NodeId} {isUnion : Bool} {cs : List NodeId}
    (hcs : ∀ c ∈ cs, P (w.resolve c))
    (hchild : ∀ c node, P c → w.graph.get? c = some node → dissolves isUnion node = true →
      ∀ d ∈ node.kind.children, P (w.resolve d))
    (h : m ∈ w.flatten id isUnion (cs.map w.resolve)) : P m := by
  have hresolved : ∀ c ∈ cs.map w.resolve, P c := by
    intro c hc
    obtain ⟨d, hd, rfl⟩ := List.mem_map.1 hc
    exact hcs d hd
  rcases w.mem_flatten h with hm | ⟨c, hc, node, hn, -, hdis, d, hd, rfl⟩
  · exact hresolved m hm
  · exact hchild c node (hresolved c hc) hn hdis d hd

/-- What dissolves is an unnamed combination of the same kind. -/
theorem dissolves_iff {isUnion : Bool} {node : Node} :
    dissolves isUnion node = true ↔ node.name = none ∧ node.comment = none ∧
      node.kind = Kind.combination isUnion node.kind.children := by
  obtain ⟨kind, name, comment, key⟩ := node
  cases kind <;> cases isUnion <;>
    simp [dissolves, Kind.combination, Kind.children]

/-! ## Reducing a combination -/

/-- What reducing a combination can do, with all guards, where `members` is what is left of its
members. -/
inductive Combined (id : NodeId) (isUnion : Bool) (node : Node) (members : List NodeId) :
    Reduction → Prop where
  /-- A member `any` takes its place. -/
  | absorb {m : NodeId} (mem : m ∈ members) (any : w.isAny m = true) :
      Combined id isUnion node members (w.fill id { node with kind := .any })
  /-- It keeps what is left. A single member is only kept if it is named, and the combination is
  named or has a comment. -/
  | combine (any : ∀ m ∈ members, w.isAny m = false)
      (single : ∀ only child, members = [only] → only ≠ id → w.graph.get? only = some child →
        child.name.isSome ∧ (node.name.isSome ∨ node.comment.isSome)) :
      Combined id isUnion node members (w.fill id { node with kind := .combination isUnion members })
  /-- It becomes its single unnamed member. -/
  | copy {only : NodeId} {child : Node} (single : members = [only]) (any : w.isAny only = false)
      (ne : only ≠ id) (member : w.graph.get? only = some child) (unnamed : child.name = none) :
      Combined id isUnion node members
        (w.fill id { node with kind := child.kind, comment := node.comment <|> child.comment })
  /-- Its single named member is to stand for it. -/
  | redirect {only : NodeId} {child : Node} (single : members = [only])
      (any : w.isAny only = false) (ne : only ≠ id) (member : w.graph.get? only = some child)
      (named : child.name.isSome) (unnamed : node.name = none) (bare : node.comment = none) :
      Combined id isUnion node members (w.redirect id only)

theorem combined_collapse {id only : NodeId} {isUnion : Bool} {node : Node}
    (any : w.isAny only = false) :
    Combined w id isUnion node [only] (w.collapse id isUnion node only) := by
  have hkeep : (∀ child, only ≠ id → w.graph.get? only = some child →
      child.name.isSome ∧ (node.name.isSome ∨ node.comment.isSome)) →
        Combined w id isUnion node [only] (w.fill id (setMembers isUnion node [only])) := by
    refine fun h => .combine (by simpa using any) fun only' child heq => ?_
    obtain rfl := (List.cons.inj heq).1
    exact h child
  unfold collapse
  split
  · rename_i heq
    exact hkeep fun _ hne => absurd heq hne
  · rename_i ne
    split
    · rename_i hnone
      exact hkeep fun child _ hchild => by simp [hnone] at hchild
    · rename_i child member
      split
      · rename_i unnamed
        exact .copy rfl any ne member (by simpa using unnamed)
      · rename_i hnamed
        have named : child.name.isSome := by simpa [Option.isSome_iff_ne_none] using hnamed
        split
        · rename_i hbare
          simp only [Bool.and_eq_true, Option.isNone_iff_eq_none] at hbare
          exact .redirect rfl any ne member named hbare.1 hbare.2
        · rename_i hmarked
          refine hkeep fun child' _ hchild' => ?_
          obtain rfl := Option.some.inj (member.symm.trans hchild')
          rw [Bool.and_eq_true, not_and_or, Bool.not_eq_true, Bool.not_eq_true] at hmarked
          exact ⟨named, by simpa using hmarked⟩

theorem combined_reduceCombination (id : NodeId) (isUnion : Bool) (node : Node)
    (children : List NodeId) : Combined w id isUnion node (w.members id isUnion children)
      (w.reduceCombination id isUnion node children) := by
  have hmembers : w.dropDuplicates [] (w.flatten id isUnion (children.map w.resolve)) =
      w.members id isUnion children := rfl
  simp only [reduceCombination, hmembers]
  split
  · rename_i hany
    obtain ⟨m, mem, any⟩ := List.any_eq_true.1 hany
    exact .absorb mem any
  · rename_i hnot
    have any : ∀ m ∈ w.members id isUnion children, w.isAny m = false := by simpa using hnot
    split
    · rename_i only single
      rw [single] at any ⊢
      exact w.combined_collapse (any only (List.mem_singleton_self only))
    · rename_i hsingle
      exact .combine any fun only _ heq => (hsingle only heq).elim

end Reduction

/-! ## Stages -/

/-- A graph under work with the nodes that are live and the unions of which nodes are the rest. -/
structure Stage where
  work : Reduction
  live : NodeId → Prop
  rests : List (NodeId × NodeId) := []

namespace Stage

def fill (s : Stage) (id : NodeId) (node : Node) : Stage := { s with work := s.work.fill id node }

def redirect (s : Stage) (id target : NodeId) : Stage :=
  { s with work := s.work.redirect id target }

/-- Adds a live node for the rest of the union `u`. -/
def branch (s : Stage) (u : NodeId) (node : Node) : Stage where
  work := { s.work with graph := (s.work.graph.add node).2 }
  live id := s.live id ∨ id = s.work.graph.size
  rests := (u, s.work.graph.size) :: s.rests

section Operations

variable (s : Stage) (id target u : NodeId) (node : Node)

@[simp] theorem graph_fill : (s.fill id node).work.graph = s.work.graph.fill id node := rfl

@[simp] theorem redirects_fill : (s.fill id node).work.redirects = s.work.redirects := rfl

@[simp] theorem live_fill : (s.fill id node).live = s.live := rfl

@[simp] theorem rests_fill : (s.fill id node).rests = s.rests := rfl

@[simp] theorem graph_redirect : (s.redirect id target).work.graph = s.work.graph := rfl

@[simp] theorem live_redirect : (s.redirect id target).live = s.live := rfl

@[simp] theorem rests_redirect : (s.redirect id target).rests = s.rests := rfl

@[simp] theorem graph_branch : (s.branch u node).work.graph = (s.work.graph.add node).2 := rfl

@[simp] theorem redirects_branch : (s.branch u node).work.redirects = s.work.redirects := rfl

@[simp] theorem rests_branch : (s.branch u node).rests = (u, s.work.graph.size) :: s.rests := rfl

@[simp] theorem live_branch (i : NodeId) :
    (s.branch u node).live i ↔ s.live i ∨ i = s.work.graph.size := .rfl

/-- A redirect after a new one is the new one or an old one. -/
theorem leads_redirect {a b : NodeId} (h : (s.redirect id target).work.Leads a b) :
    (a = id ∧ b = target) ∨ (a ≠ id ∧ s.work.Leads a b) := by
  rcases List.mem_cons.1 h with h | h
  · exact .inl (Prod.mk.inj h)
  · have h := List.mem_filter.1 h
    exact .inr ⟨by simpa using h.2, h.1⟩

end Operations

/-- A member of an interface as it is, or as an optional one of the rest of its union. -/
inductive Relaxed (s : Stage) (m : InterfaceMember) : InterfaceMember → Prop where
  | same : Relaxed s m m
  | rest {n : NodeId} (h : (m.node, n) ∈ s.rests) :
      Relaxed s m { m with node := n, required := false }

/-- The live nodes contain the root, the children of live nodes and all that redirects and rests
mention. -/
structure Closed (s : Stage) : Prop where
  root : s.live s.work.graph.root
  child : ∀ id, s.live id → ∀ c ∈ s.work.graph.childrenOf id, s.live c
  lead : ∀ a b, s.work.Leads a b → s.live a ∧ s.live b
  rest : ∀ u n, (u, n) ∈ s.rests → s.live u ∧ s.live n

end Stage

/-- What a simplification can write into the slot of a node. -/
inductive Rewrite (keep : Bool) (s : Stage) (id : NodeId) (node : Node) : Node → Prop where
  /-- The children are replaced by the nodes that stand for them. -/
  | resolve : Rewrite keep s id node { node with kind := node.kind.mapChildren s.work.resolve }
  /-- A combination keeps what is left of its members. -/
  | combine {isUnion : Bool} {children : List NodeId}
      (kind : node.kind = .combination isUnion children)
      (any : ∀ m ∈ s.work.members id isUnion children, s.work.isAny m = false) :
      Rewrite keep s id node
        { node with kind := .combination isUnion (s.work.members id isUnion children) }
  /-- A combination with a member `any` becomes `any`. -/
  | absorb {m : NodeId} {isUnion : Bool} {children : List NodeId}
      (kind : node.kind = .combination isUnion children)
      (mem : m ∈ s.work.members id isUnion children) (any : s.work.isAny m = true) :
      Rewrite keep s id node { node with kind := .any }
  /-- A combination with a single unnamed member becomes that member. -/
  | copy {only : NodeId} {child : Node} {isUnion : Bool} {children : List NodeId}
      (kind : node.kind = .combination isUnion children)
      (single : s.work.members id isUnion children = [only]) (any : s.work.isAny only = false)
      (ne : only ≠ id) (member : s.work.graph.get? only = some child) (unnamed : child.name = none) :
      Rewrite keep s id node
        { node with kind := child.kind, comment := node.comment <|> child.comment }
  /-- An interface keeps the members that count, some of them relaxed. -/
  | interface {members members' : List InterfaceMember} {supers : List NodeId}
      (kind : node.kind = .interface members supers)
      (relaxed : List.Forall₂ s.Relaxed (Reduction.kept keep members) members') :
      Rewrite keep s id node { node with kind := .interface members' supers }

/-- What a simplification can do to a graph. -/
inductive Edit (keep : Bool) (s : Stage) : Stage → Prop where
  /-- The slot of a live node is rewritten. -/
  | rewrite {id : NodeId} {node node' : Node} (live : s.live id)
      (get : s.work.graph.get? id = some node) (rewrite : Rewrite keep s id node node') :
      Edit keep s (s.fill id node')
  /-- A single named member stands for an unnamed combination without comment. -/
  | redirect {id only : NodeId} {node child : Node} {isUnion : Bool} {children : List NodeId}
      (live : s.live id) (get : s.work.graph.get? id = some node)
      (kind : node.kind = .combination isUnion children)
      (single : s.work.members id isUnion children = [only]) (any : s.work.isAny only = false)
      (ne : only ≠ id) (member : s.work.graph.get? only = some child)
      (named : child.name.isSome) (unnamed : node.name = none) (bare : node.comment = none)
      (free : s.work.Free id) : Edit keep s (s.redirect id only)
  /-- A node is made for the rest of an unnamed union with `undefined`. -/
  | branch {u : NodeId} {node : Node} {branches : List NodeId}
      (live : s.live u) (get : s.work.graph.get? u = some node)
      (kind : node.kind = .union branches) (unnamed : node.name = none)
      (undef : (s.work.defined branches).length ≠ branches.length) :
      Edit keep s (s.branch u
        { kind := .union (s.work.defined branches), comment := node.comment, key := node.key })
  /-- The node that stands for the rest of a union is the rest of that union. -/
  | restate {u n : NodeId} (mem : (u, n) ∈ s.rests) :
      Edit keep s { s with rests := (u, s.work.resolve n) :: s.rests }

theorem Rewrite.name {keep : Bool} {s : Stage} {id : NodeId} {node node' : Node}
    (h : Rewrite keep s id node node') : node'.name = node.name := by
  cases h <;> rfl

/-- A run of edits. -/
abbrev Edits (keep : Bool) : Stage → Stage → Prop := Relation.ReflTransGen (Edit keep)

/-! ## What becomes of a slot -/

section Slots

variable {keep : Bool} {s t : Stage}

/-- A slot that is built stays built, with the node it held or a rewritten one. -/
theorem Edit.get? {i : NodeId} {node : Node} (he : Edit keep s t)
    (h : s.work.graph.get? i = some node) :
    ∃ node', t.work.graph.get? i = some node' ∧ (node' = node ∨ Rewrite keep s i node node') := by
  cases he with
  | @rewrite id old new live get hr =>
      rw [Stage.graph_fill, TypeGraph.get?_fill _ (s.work.graph.lt_size_of_get? get)]
      split
      · rename_i hid
        rw [hid, get] at h
        obtain rfl := Option.some.inj h
        exact ⟨new, rfl, .inr (hid ▸ hr)⟩
      · exact ⟨node, h, .inl rfl⟩
  | redirect => exact ⟨node, h, .inl rfl⟩
  | restate => exact ⟨node, h, .inl rfl⟩
  | branch =>
      have hlt := s.work.graph.lt_size_of_get? h
      exact ⟨node, (s.work.graph.get?_add_of_lt hlt).trans h, .inl rfl⟩

/-- Where the node in a slot comes from. -/
theorem Edit.of_get? {i : NodeId} {node' : Node} (he : Edit keep s t)
    (h : t.work.graph.get? i = some node') :
    s.work.graph.get? i = some node' ∨
      (∃ node, s.live i ∧ s.work.graph.get? i = some node ∧ Rewrite keep s i node node') ∨
      (i = s.work.graph.size ∧ ∃ u node branches, s.live u ∧ s.work.graph.get? u = some node ∧
        node.kind = .union branches ∧ node.name = none ∧ node'.name = none ∧
        node'.kind = .union (s.work.defined branches)) := by
  cases he with
  | @rewrite id old new live get hr =>
      rw [Stage.graph_fill, TypeGraph.get?_fill _ (s.work.graph.lt_size_of_get? get)] at h
      split at h
      · rename_i hid
        obtain rfl := Option.some.inj h
        exact .inr (.inl ⟨old, hid ▸ live, hid ▸ get, hid ▸ hr⟩)
      · exact .inl h
  | redirect => exact .inl h
  | restate => exact .inl h
  | @branch u node branches live get kind unnamed undef =>
      rw [Stage.graph_branch] at h
      by_cases hsize : i = s.work.graph.size
      · subst hsize
        rw [TypeGraph.get?_add_self] at h
        obtain rfl := Option.some.inj h
        exact .inr (.inr ⟨rfl, u, node, branches, live, get, kind, unnamed, rfl, rfl⟩)
      · rw [TypeGraph.get?_add_of_ne _ hsize] at h
        exact .inl h

/-- A slot keeps its name, and a new slot has none. -/
theorem Edit.name {i : NodeId} {node' : Node} (he : Edit keep s t)
    (h : t.work.graph.get? i = some node') :
    (∃ node, s.work.graph.get? i = some node ∧ node'.name = node.name) ∨ node'.name = none := by
  rcases he.of_get? h with h | ⟨node, -, hn, hr⟩ | ⟨-, _, _, _, -, -, -, -, hname, -⟩
  · exact .inl ⟨node', h, rfl⟩
  · exact .inl ⟨node, hn, hr.name⟩
  · exact .inr hname

/-- A live node is an old one or a new one. -/
theorem Edit.of_live {i : NodeId} (he : Edit keep s t) (h : t.live i) :
    s.live i ∨ (i = s.work.graph.size ∧ ∃ node, t.work.graph.get? i = some node) := by
  cases he with
  | branch =>
      rcases h with h | rfl
      · exact .inl h
      · exact .inr ⟨rfl, _, s.work.graph.get?_add_self _⟩
  | rewrite => exact .inl h
  | redirect => exact .inl h
  | restate => exact .inl h

/-- A redirect is an old one, or leads from an unnamed combination to a named node. -/
theorem Edit.of_leads {a b : NodeId} (he : Edit keep s t) (h : t.work.Leads a b) :
    s.work.Leads a b ∨ ∃ node child isUnion children, s.work.graph.get? a = some node ∧
      node.kind = .combination isUnion children ∧ node.name = none ∧
      s.work.graph.get? b = some child ∧ child.name.isSome := by
  cases he with
  | @redirect id only node child isUnion children live get kind _ _ _ member named unnamed =>
      rcases s.leads_redirect id only h with ⟨rfl, rfl⟩ | ⟨-, h⟩
      · exact .inr ⟨node, child, isUnion, children, get, kind, unnamed, member, named⟩
      · exact .inl h
  | rewrite => exact .inl h
  | branch => exact .inl h
  | restate => exact .inl h

end Slots

namespace Stage

variable {keep : Bool} {s t : Stage}

/-! ## Live nodes stay closed -/

theorem Closed.resolve (h : s.Closed) {id : NodeId} (hid : s.live id) :
    s.live (s.work.resolve id) :=
  s.work.resolve_induction hid fun _ _ hl _ => (h.lead _ _ hl).2

theorem Closed.child_of_get (h : s.Closed) {id c : NodeId} {node : Node} (hid : s.live id)
    (hn : s.work.graph.get? id = some node) (hc : c ∈ node.kind.children) : s.live c :=
  h.child id hid c (by rwa [s.work.graph.childrenOf_eq hn])

theorem Closed.flatten (h : s.Closed) {id m : NodeId} {isUnion : Bool} {children : List NodeId}
    (hc : ∀ c ∈ children, s.live c)
    (hm : m ∈ s.work.flatten id isUnion (children.map s.work.resolve)) : s.live m :=
  s.work.of_mem_flatten (fun c hmem => h.resolve (hc c hmem))
    (fun _ _ hlive hn _ _ hd => h.resolve (h.child_of_get hlive hn hd)) hm

theorem Closed.members (h : s.Closed) {id m : NodeId} {isUnion : Bool} {children : List NodeId}
    (hc : ∀ c ∈ children, s.live c) (hm : m ∈ s.work.members id isUnion children) : s.live m :=
  h.flatten hc (s.work.mem_dropDuplicates hm)

/-- A node may be filled with whatever has live children. -/
theorem Closed.fill (h : s.Closed) {id : NodeId} {node : Node}
    (hc : ∀ c ∈ node.kind.children, s.live c) : (s.fill id node).Closed where
  root := h.root
  child := by
    intro i hi c hmem
    rw [graph_fill] at hmem
    by_cases hlt : id < s.work.graph.size
    · simp only [TypeGraph.childrenOf, TypeGraph.get?_fill _ hlt] at hmem
      split at hmem
      · simp at hmem
      · rename_i found hfound
        split at hfound
        · exact hc c (Option.some.inj hfound ▸ hmem)
        · exact h.child_of_get hi hfound hmem
    · have hsame : s.work.graph.fill id node = s.work.graph :=
        s.work.graph.fill_of_size_le (Nat.not_lt.1 hlt)
      exact h.child i hi c (by rwa [hsame] at hmem)
  lead := h.lead
  rest := h.rest

theorem kept_subset {members : List InterfaceMember} {m : InterfaceMember}
    (h : m ∈ Reduction.kept keep members) : m ∈ members := by
  unfold Reduction.kept at h
  split at h
  · exact h
  · exact (List.mem_filter.1 h).1

/-- A relaxed member leads to a live node. -/
theorem Closed.relaxed (h : s.Closed) {members members' : List InterfaceMember}
    (hm : ∀ m ∈ members, s.live m.node) (hr : List.Forall₂ s.Relaxed members members') :
    ∀ m ∈ members', s.live m.node := by
  induction hr with
  | nil => simp
  | cons hab _ ih =>
      intro m hmem
      rcases List.mem_cons.1 hmem with rfl | hmem
      · cases hab with
        | same => exact hm _ List.mem_cons_self
        | rest hu => exact (h.rest _ _ hu).2
      · exact ih (fun m hm' => hm m (List.mem_cons_of_mem _ hm')) m hmem

/-- What is written into the slot of a live node has live children. -/
theorem Closed.rewrite (h : s.Closed) {id : NodeId} {node node' : Node} (live : s.live id)
    (get : s.work.graph.get? id = some node) (hr : Rewrite keep s id node node') :
    ∀ c ∈ node'.kind.children, s.live c := by
  have hchild : ∀ c ∈ node.kind.children, s.live c := fun c hc => h.child_of_get live get hc
  have hmembers : ∀ {isUnion children}, node.kind = .combination isUnion children →
      ∀ m ∈ s.work.members id isUnion children, s.live m := by
    intro isUnion children kind m hm
    exact h.members (fun d hd => hchild d (by rwa [kind, Kind.children_combination])) hm
  intro c hc
  cases hr with
  | resolve =>
      rw [Kind.children_mapChildren] at hc
      obtain ⟨d, hd, rfl⟩ := List.mem_map.1 hc
      exact h.resolve (hchild d hd)
  | combine kind any =>
      rw [Kind.children_combination] at hc
      exact hmembers kind c hc
  | absorb => simp [Kind.children] at hc
  | @copy only child isUnion children kind single any ne member =>
      exact h.child_of_get (hmembers kind only (single ▸ List.mem_singleton_self only)) member hc
  | @interface members members' supers kind relaxed =>
      have hkind : ∀ c ∈ (Kind.interface members supers).children, s.live c :=
        fun c hc => hchild c (kind ▸ hc)
      rcases List.mem_append.1 hc with hc | hc
      · obtain ⟨m, hm, rfl⟩ := List.mem_map.1 hc
        refine h.relaxed (fun m hm => hkind m.node ?_) relaxed m hm
        exact List.mem_append_left _ (List.mem_map_of_mem (kept_subset hm))
      · exact hkind c (List.mem_append_right _ hc)

theorem Closed.edit (h : s.Closed) (he : Edit keep s t) : t.Closed := by
  cases he with
  | rewrite live get hr => exact h.fill (h.rewrite live get hr)
  | @redirect id only node child isUnion children live get kind single any ne member =>
      have honly : s.live only :=
        h.members (fun d hd => h.child_of_get live get (by rwa [kind, Kind.children_combination]))
          (single ▸ List.mem_singleton_self only)
      refine ⟨h.root, h.child, fun a b hl => ?_, h.rest⟩
      rcases s.leads_redirect id only hl with ⟨rfl, rfl⟩ | ⟨-, hl⟩
      · exact ⟨live, honly⟩
      · exact h.lead a b hl
  | @branch u node branches live get kind unnamed undef =>
      refine ⟨.inl h.root, fun i hi c hc => ?_, fun a b hl => (h.lead a b hl).imp .inl .inl, ?_⟩
      · rw [graph_branch] at hc
        by_cases hsize : i = s.work.graph.size
        · subst hsize
          rw [TypeGraph.childrenOf_eq _ (TypeGraph.get?_add_self ..)] at hc
          exact .inl (h.child_of_get live get (by rw [kind]; exact (List.mem_filter.1 hc).1))
        · simp only [TypeGraph.childrenOf, TypeGraph.get?_add_of_ne _ hsize] at hc
          exact .inl (h.child i (hi.resolve_right hsize) c hc)
      · intro v n hn
        rcases List.mem_cons.1 hn with hn | hn
        · obtain ⟨rfl, rfl⟩ := Prod.mk.inj hn
          exact ⟨.inl live, .inr rfl⟩
        · exact (h.rest v n hn).imp .inl .inl
  | @restate u n mem =>
      refine ⟨h.root, h.child, h.lead, fun v m hm => ?_⟩
      rcases List.mem_cons.1 hm with hm | hm
      · obtain ⟨rfl, rfl⟩ := Prod.mk.inj hm
        exact ⟨(h.rest _ _ mem).1, h.resolve (h.rest _ _ mem).2⟩
      · exact h.rest v m hm

theorem Closed.edits (h : s.Closed) (he : Edits keep s t) : t.Closed := by
  induction he with
  | refl => exact h
  | tail _ he ih => exact ih.edit he

/-! ## Names and texts that stay -/

/-- Only texts that were there are written into slots. -/
theorem textual_rewrite {Q : Kind → Prop} (hQ : Kind.Textual Q)
    (h : ∀ id node, s.live id → s.work.graph.get? id = some node → Q node.kind) (hc : s.Closed)
    {id : NodeId} {node node' : Node} (live : s.live id) (get : s.work.graph.get? id = some node)
    (hr : Rewrite keep s id node node') : Q node'.kind := by
  cases hr with
  | resolve => exact hQ.map _ _ (h id node live get)
  | combine => exact hQ.combination ..
  | absorb => exact hQ.any
  | @copy only child isUnion children kind single any ne member =>
      have honly : s.live only :=
        hc.members (fun d hd => hc.child_of_get live get (by rwa [kind, Kind.children_combination]))
          (single ▸ List.mem_singleton_self only)
      exact h only child honly member
  | interface => exact hQ.interface ..

theorem live_of_edit (he : Edit keep s t) {i : NodeId} {node : Node}
    (get : s.work.graph.get? i = some node) (hi : t.live i) : s.live i := by
  rcases he.of_live hi with hi | ⟨rfl, -⟩
  · exact hi
  · exact absurd (s.work.graph.lt_size_of_get? get) (Nat.lt_irrefl _)

theorem textual_edit {Q : Kind → Prop} (hQ : Kind.Textual Q)
    (h : ∀ id node, s.live id → s.work.graph.get? id = some node → Q node.kind) (hc : s.Closed)
    (he : Edit keep s t) (id : NodeId) (node : Node) (live : t.live id)
    (get : t.work.graph.get? id = some node) : Q node.kind := by
  rcases he.of_get? get with hold | ⟨old, hlive, hold, hr⟩ | ⟨-, _, _, _, -, -, -, -, -, hkind⟩
  · exact h id node (live_of_edit he hold live) hold
  · exact textual_rewrite hQ h hc hlive hold hr
  · rw [hkind]
    exact hQ.combination true _

/-- A live node has had its name before. -/
theorem exists_name_of_edit (he : Edit keep s t) {id : NodeId} {node : Node} {name : String}
    (live : t.live id) (get : t.work.graph.get? id = some node) (hname : node.name = some name) :
    ∃ old, s.live id ∧ s.work.graph.get? id = some old ∧ old.name = some name := by
  rcases he.name get with ⟨old, hold, hsame⟩ | hnone
  · exact ⟨old, live_of_edit he hold live, hold, hsame ▸ hname⟩
  · rw [hnone] at hname
    cases hname

theorem name_edit {N : String → Prop}
    (h : ∀ id node name, s.live id → s.work.graph.get? id = some node → node.name = some name →
      N name) (he : Edit keep s t) (id : NodeId) (node : Node) (name : String) (live : t.live id)
    (get : t.work.graph.get? id = some node) (hname : node.name = some name) : N name := by
  obtain ⟨old, hlive, hold, hname⟩ := exists_name_of_edit he live get hname
  exact h id old name hlive hold hname

/-! ## Live nodes have slots -/

/-- Live nodes have slots. -/
def Bounded (s : Stage) : Prop := ∀ id, s.live id → id < s.work.graph.size

theorem Bounded.edit (h : s.Bounded) (he : Edit keep s t) : t.Bounded := by
  cases he with
  | branch =>
      intro i hi
      rw [graph_branch, TypeGraph.size_add]
      rcases hi with hi | rfl
      · exact Nat.lt_succ_of_lt (h i hi)
      · exact Nat.lt_succ_self _
  | restate => exact h
  | _ => intro i hi; simpa using h i hi

theorem Bounded.edits (h : s.Bounded) (he : Edits keep s t) : t.Bounded := by
  induction he with
  | refl => exact h
  | tail _ he ih => exact ih.edit he

/-! ## Redirects lead from unnamed nodes to named ones -/

/-- Redirects lead from unnamed nodes to named ones. -/
structure Oriented (s : Stage) : Prop where
  source : ∀ a b, s.work.Leads a b → ∃ node, s.work.graph.get? a = some node ∧ node.name = none
  target : ∀ a b, s.work.Leads a b →
    ∃ node, s.work.graph.get? b = some node ∧ node.name.isSome

theorem Oriented.edit (h : s.Oriented) (he : Edit keep s t) : t.Oriented := by
  have hkeep : ∀ {i node}, s.work.graph.get? i = some node →
      ∃ node', t.work.graph.get? i = some node' ∧ node'.name = node.name := by
    intro i node hn
    obtain ⟨node', hn', rfl | hr⟩ := he.get? hn
    · exact ⟨node', hn', rfl⟩
    · exact ⟨node', hn', hr.name⟩
  refine ⟨fun a b hl => ?_, fun a b hl => ?_⟩
  · obtain ⟨node, hn, hname⟩ : ∃ node, s.work.graph.get? a = some node ∧ node.name = none := by
      rcases he.of_leads hl with hl | ⟨node, _, _, _, hn, -, hname, -⟩
      · exact h.source a b hl
      · exact ⟨node, hn, hname⟩
    obtain ⟨node', hn', hsame⟩ := hkeep hn
    exact ⟨node', hn', hsame.trans hname⟩
  · obtain ⟨node, hn, hname⟩ : ∃ node, s.work.graph.get? b = some node ∧ node.name.isSome := by
      rcases he.of_leads hl with hl | ⟨_, child, _, _, -, -, -, hn, hname⟩
      · exact h.target a b hl
      · exact ⟨child, hn, hname⟩
    obtain ⟨node', hn', hsame⟩ := hkeep hn
    exact ⟨node', hn', hsame ▸ hname⟩

theorem Oriented.edits (h : s.Oriented) (he : Edits keep s t) : t.Oriented := by
  induction he with
  | refl => exact h
  | tail _ he ih => exact ih.edit he

/-- No redirect starts at a named node. -/
theorem Oriented.free (h : s.Oriented) {id : NodeId} {node : Node}
    (hn : s.work.graph.get? id = some node) (hname : node.name.isSome) : s.work.Free id := by
  intro b hl
  obtain ⟨node', hn', hnone⟩ := h.source id b hl
  obtain rfl := Option.some.inj (hn.symm.trans hn')
  rw [hnone] at hname
  cases hname

/-- No redirect starts where redirects lead. -/
theorem Oriented.free_resolve (h : s.Oriented) (id : NodeId) :
    s.work.Free (s.work.resolve id) := by
  unfold Reduction.resolve
  rw [Reduction.resolveFrom]
  split
  · rename_i hnone
    intro b hl
    exact (Reduction.lookup_ne_none hl hnone).elim
  · rename_i next hl
    have hl : s.work.Leads id next := mem_of_lookup hl
    obtain ⟨node, hn, hname⟩ := h.target id next hl
    have hfree : s.work.Free next := h.free hn hname
    split
    · rename_i heq
      exact (hfree id (heq ▸ hl)).elim
    · have hpath := s.work.leads_resolveFrom s.work.redirects.length next
      rcases (Relation.ReflTransGen.cases_head_iff).1 hpath with heq | ⟨b, hl, -⟩
      · exact heq ▸ hfree
      · exact (hfree b hl).elim

end Stage

end Typewright
