import Typewright.Proofs.Declaration.Walk
import Typewright.Proofs.Graph.Load

/-!
# When a type has a text

The text of an unnamed node is made of the texts of the nodes that its kind shows, and these nodes
are expanded in turn; a named node is not. A type expression exists if all nodes that are expanded
are built and none is expanded inside of itself, and only then (`expression_unexpanded`).
-/

namespace Typewright

namespace Kind

/-- The nodes whose texts stand in the text of a kind. The members of an interface that are only
patterns or definitions have none. -/
def rendered : Kind → List NodeId
  | .array element => [element]
  | .tuple cs | .union cs | .intersection cs => cs
  | .enum members => members.map (·.node)
  | .interface members _ => (members.filter fun m => !m.pattern && !m.unreachable).map (·.node)
  | _ => []

theorem rendered_subset (kind : Kind) : kind.rendered ⊆ kind.children := by
  cases kind with
  | interface members supers =>
      exact fun c hc => List.mem_append_left _ (List.map_subset _ (List.filter_subset_self _) hc)
  | _ => exact fun _ => id

end Kind

namespace TypeGraph

/-- A node is written out, and another one for it. -/
def Expands (g : TypeGraph) (a b : NodeId) : Prop :=
  ∃ node, g.get? a = some node ∧ node.name = none ∧ b ∈ node.kind.rendered

/-- Why a node has no type expression. -/
inductive Refuses (g : TypeGraph) (id : NodeId) : NodeFailure → Prop where
  | foreign (outside : g.size ≤ id) : Refuses g id .foreign
  | unbuilt (inside : id < g.size) (empty : g.get? id = none) : Refuses g id .unbuilt
  | unnamedCycle (cycle : Relation.TransGen g.Expands id id) : Refuses g id .unnamedCycle

end TypeGraph

namespace Declaration

open Relation

variable {g : TypeGraph} {fresh : List NodeId} {id : NodeId} {node : Node} {path : String}

/-! ## Lists of results -/

/-- A list is mapped if each of its entries is. -/
theorem exists_mapM {α β ε : Type} {f : α → Except ε β} {R : α → β → Prop} {l : List α}
    (h : ∀ a ∈ l, ∃ b, f a = .ok b ∧ R a b) : ∃ bs, l.mapM f = .ok bs ∧ List.Forall₂ R l bs := by
  induction l with
  | nil => exact ⟨[], rfl, .nil⟩
  | cons a rest ih =>
      obtain ⟨b, hb, hab⟩ := h a List.mem_cons_self
      obtain ⟨bs, hbs, hrest⟩ := ih fun a ha => h a (List.mem_cons_of_mem _ ha)
      exact ⟨b :: bs, by rw [List.mapM_cons, hb, hbs]; rfl, .cons hab hrest⟩

theorem exists_mapM_ok {α β ε : Type} {f : α → Except ε β} {l : List α}
    (h : ∀ a ∈ l, ∃ b, f a = .ok b) : ∃ bs, l.mapM f = .ok bs := by
  obtain ⟨bs, hbs, -⟩ := exists_mapM (R := fun _ _ => True) fun a ha =>
    (h a ha).imp fun _ hb => ⟨hb, trivial⟩
  exact ⟨bs, hbs⟩

theorem forall₂_of_mapM {α β ε : Type} {f : α → Except ε β} {l : List α} {bs : List β}
    (h : l.mapM f = .ok bs) : List.Forall₂ (fun a b => f a = .ok b) l bs := by
  induction l generalizing bs with
  | nil =>
      obtain rfl := Except.ok.inj h
      exact .nil
  | cons a rest ih =>
      rw [List.mapM_cons] at h
      obtain ⟨b, hb, h⟩ := Loading.ok_of_bind h
      obtain ⟨more, hmore, h⟩ := Loading.ok_of_bind h
      obtain rfl := Except.ok.inj h
      exact .cons hb (ih hmore)

theorem exists_of_mapM {α β ε : Type} {f : α → Except ε β} {l : List α} {bs : List β}
    (h : l.mapM f = .ok bs) {b : β} (hb : b ∈ bs) : ∃ a ∈ l, f a = .ok b :=
  exists_of_forall₂_left (forall₂_of_mapM h).flip hb

/-- The error of a list is that of one of its entries. -/
theorem exists_error_of_mapM {α β ε : Type} {f : α → Except ε β} {l : List α} {e : ε}
    (h : l.mapM f = .error e) : ∃ a ∈ l, f a = .error e := by
  induction l with
  | nil => cases h
  | cons a rest ih =>
      rw [List.mapM_cons] at h
      cases hfirst : f a with
      | error e' =>
          rw [hfirst] at h
          obtain rfl := Except.error.inj h
          exact ⟨a, List.mem_cons_self, hfirst⟩
      | ok b =>
          rw [hfirst] at h
          cases hrest : rest.mapM f with
          | error e' =>
              rw [hrest] at h
              obtain rfl := Except.error.inj h
              obtain ⟨a, ha, he⟩ := ih hrest
              exact ⟨a, List.mem_cons_of_mem _ ha, he⟩
          | ok bs =>
              rw [hrest] at h
              cases h

/-! ## One node -/

theorem map_shown (kind : Kind) : (shown kind).map (·.2) = kind.rendered := by
  have indexed : ∀ nodes : List NodeId, (shown.indexed nodes).map (·.2) = nodes := fun nodes => by
    rw [shown.indexed, List.map_map]
    exact List.zipIdx_map_fst 0 nodes
  cases kind with
  | tuple cs => exact indexed cs
  | union cs => exact indexed cs
  | intersection cs => exact indexed cs
  | enum members => exact indexed _
  | interface members supers => exact List.map_map
  | _ => rfl

/-- What is shown in the text of a kind is rendered in it. -/
theorem mem_rendered_of_mem_shown {kind : Kind} {p : String × NodeId} (h : p ∈ shown kind) :
    p.2 ∈ kind.rendered := map_shown kind ▸ List.mem_map_of_mem h

theorem exists_mem_shown {kind : Kind} {c : NodeId} (h : c ∈ kind.rendered) :
    ∃ segment, (segment, c) ∈ shown kind := by
  rw [← map_shown] at h
  obtain ⟨p, hp, rfl⟩ := List.mem_map.1 h
  exact ⟨p.1, hp⟩

/-- What the text of a kind shows is among its children. -/
theorem mem_children_of_mem_shown {kind : Kind} {p : String × NodeId} (h : p ∈ shown kind) :
    p.2 ∈ kind.children := kind.rendered_subset (mem_rendered_of_mem_shown h)

/-- What becomes of a type expression. -/
inductive Outcome (g : TypeGraph) (fresh : List NodeId) (id : NodeId) (path : String) :
    Except CompileError String → Prop where
  | foreign (outside : g.size ≤ id) :
      Outcome g fresh id path (.error (.unsupportedNode id path .foreign))
  | unbuilt (inside : id < g.size) (empty : g.get? id = none) :
      Outcome g fresh id path (.error (.unsupportedNode id path .unbuilt))
  | unnamedCycle {node : Node} (built : g.get? id = some node) (unnamed : node.name = none)
      (expanded : id ∉ fresh) :
      Outcome g fresh id path (.error (.unsupportedNode id path .unnamedCycle))
  /-- A part has no text. -/
  | part {node : Node} (built : g.get? id = some node) (unnamed : node.name = none)
      (mem : id ∈ fresh) {p : String × NodeId} (shown : p ∈ shown node.kind) {e : CompileError}
      (failed : expression g (fresh.erase id) p.2 (Pointer.build path [p.1]) = .error e) :
      Outcome g fresh id path (.error e)
  /-- A named node is written as its name. -/
  | named {node : Node} {name : String} (built : g.get? id = some node)
      (named : node.name = some name) : Outcome g fresh id path (.ok (Identifier.sanitize name))
  /-- An unnamed node is written out. -/
  | unnamed {node : Node} (built : g.get? id = some node) (unnamed : node.name = none)
      (mem : id ∈ fresh) {parts : List String}
      (written : (Declaration.shown node.kind).mapM (fun p =>
        expression g (fresh.erase id) p.2 (Pointer.build path [p.1])) = .ok parts) :
      Outcome g fresh id path (.ok (kindText g node.kind parts))

theorem outcome_expression (g : TypeGraph) (fresh : List NodeId) (id : NodeId) (path : String) :
    Outcome g fresh id path (expression g fresh id path) := by
  rw [expression]
  cases hn : g.get? id with
  | none =>
      unfold nodeAt
      rw [hn]
      by_cases hid : id < g.size
      · have hcontains : g.contains id = true := decide_eq_true hid
        rw [if_pos hcontains]
        exact .unbuilt hid hn
      · have hcontains : ¬ g.contains id = true := fun h => hid (of_decide_eq_true h)
        rw [if_neg hcontains]
        exact .foreign (Nat.le_of_not_lt hid)
  | some node =>
      rw [nodeAt_eq hn]
      cases hname : node.name with
      | some name =>
          simp only [bind, Except.bind, hname]
          exact .named hn hname
      | none =>
          simp only [bind, Except.bind, hname]
          by_cases hmem : id ∈ fresh
          · rw [dif_pos hmem]
            cases hparts : (shown node.kind).mapM fun p =>
                expression g (fresh.erase id) p.2 (Pointer.build path [p.1]) with
            | error e =>
                obtain ⟨p, hp, he⟩ := exists_error_of_mapM hparts
                exact .part hn hname hmem hp he
            | ok parts => exact .unnamed hn hname hmem hparts
          · rw [dif_neg hmem]
            exact .unnamedCycle hn hname hmem

/-- A named node is written as its name. -/
theorem expression_of_named {name : String} (hn : g.get? id = some node)
    (hname : node.name = some name) (path : String) :
    expression g fresh id path = .ok (Identifier.sanitize name) := by
  rw [expression, nodeAt_eq hn]
  simp only [bind, Except.bind, hname]
  rfl

/-! ## Texts -/

/-- What holds of names and of texts that are made of parts for which it holds, holds of every type
expression. -/
theorem expression_induction {P : NodeId → String → Prop}
    (named : ∀ {id node name}, g.get? id = some node → node.name = some name →
      P id (Identifier.sanitize name))
    (unnamed : ∀ {id node parts}, g.get? id = some node → node.name = none →
      List.Forall₂ P node.kind.rendered parts → P id (kindText g node.kind parts))
    {text : String} (h : expression g fresh id path = .ok text) : P id text := by
  induction fresh, id, path using expression.induct generalizing text with
  | case1 fresh id path ih =>
      have hout := outcome_expression g fresh id path
      rw [h] at hout
      cases hout with
      | named hn hname => exact named hn hname
      | unnamed hn hname hmem hparts =>
          refine unnamed hn hname ?_
          rw [← map_shown, List.forall₂_map_left_iff]
          exact (forall₂_of_mapM hparts).imp fun p part hpart => ih hmem p.1 p.2 hpart

/-- If a node has a text, then all nodes that are expanded for it are built, and none is expanded
inside of itself. -/
theorem built_of_expression {text : String} (h : expression g fresh id path = .ok text)
    (hfresh : fresh.Nodup) {j : NodeId} (hj : ReflTransGen g.Expands id j) :
    (∃ node, g.get? j = some node ∧ (node.name = none → j ∈ fresh)) ∧
      ¬ TransGen g.Expands j j := by
  induction fresh, id, path using expression.induct generalizing text j with
  | case1 fresh id path ih =>
      have hout := outcome_expression g fresh id path
      rw [h] at hout
      cases hout with
      | @named node name hn hname =>
          have hstop : ∀ c, ¬ g.Expands id c := by
            rintro c ⟨node', hn', hnone, -⟩
            obtain rfl := Option.some.inj (hn.symm.trans hn')
            rw [hname] at hnone
            cases hnone
          obtain rfl | ⟨c, hc, -⟩ := hj.cases_head
          · refine ⟨⟨node, hn, fun hnone => ?_⟩, fun hcycle => ?_⟩
            · rw [hname] at hnone
              cases hnone
            · obtain ⟨c, hc, -⟩ := TransGen.head'_iff.1 hcycle
              exact hstop c hc
          · exact absurd hc (hstop c)
      | @unnamed node hn hname hmem parts hparts =>
          have hpart : ∀ {c j}, g.Expands id c → ReflTransGen g.Expands c j →
              (∃ node, g.get? j = some node ∧ (node.name = none → j ∈ fresh.erase id)) ∧
                ¬ TransGen g.Expands j j := by
            rintro c j ⟨node', hn', -, hc⟩ hj
            obtain rfl := Option.some.inj (hn.symm.trans hn')
            obtain ⟨segment, hshown⟩ := exists_mem_shown hc
            obtain ⟨part, -, hpart⟩ := exists_of_forall₂_left (forall₂_of_mapM hparts) hshown
            exact ih hmem segment c hpart (hfresh.erase id) hj
          obtain rfl | ⟨c, hc, hj⟩ := hj.cases_head
          · refine ⟨⟨node, hn, fun _ => hmem⟩, fun hcycle => ?_⟩
            -- a part that leads back to the node would expand it where it may not be expanded
            obtain ⟨c, hc, hback⟩ := TransGen.head'_iff.1 hcycle
            obtain ⟨node', hn', hagain⟩ := (hpart hc hback).1
            obtain rfl := Option.some.inj (hn.symm.trans hn')
            exact hfresh.not_mem_erase (hagain hname)
          · obtain ⟨⟨node, hn, hagain⟩, hcycle⟩ := hpart hc hj
            exact ⟨⟨node, hn, fun hname => List.mem_of_mem_erase (hagain hname)⟩, hcycle⟩

/-- A node has a text if all nodes that are expanded for it are built and may be expanded, and none
is expanded inside of itself. -/
theorem exists_expression
    (h : ∀ j, ReflTransGen g.Expands id j → (∃ node, g.get? j = some node) ∧
      ¬ TransGen g.Expands j j)
    (hfresh : ∀ j node, ReflTransGen g.Expands id j → g.get? j = some node → node.name = none →
      j ∈ fresh) : ∃ text, expression g fresh id path = .ok text := by
  induction fresh, id, path using expression.induct with
  | case1 fresh id path ih =>
      have hout := outcome_expression g fresh id path
      obtain ⟨⟨node, hn⟩, hcycle⟩ := h id .refl
      generalize expression g fresh id path = r at hout ⊢
      cases hout with
      | foreign outside => exact absurd (g.lt_size_of_get? hn) (Nat.not_lt.2 outside)
      | unbuilt _ empty => rw [hn] at empty; cases empty
      | unnamedCycle hn hname expanded => exact absurd (hfresh id _ .refl hn hname) expanded
      | @part node hn hname hmem p hp e failed =>
          have hc : g.Expands id p.2 := ⟨node, hn, hname, mem_rendered_of_mem_shown hp⟩
          obtain ⟨text, hwritten⟩ := ih hmem p.1 p.2 (fun j hj => h j (.head hc hj))
            fun j nodej hj hnj hnamej => by
              have hne : j ≠ id := by
                rintro rfl
                exact hcycle (.head' hc hj)
              exact (List.mem_erase_of_ne hne).2 (hfresh j nodej (.head hc hj) hnj hnamej)
          rw [failed] at hwritten
          cases hwritten
      | named => exact ⟨_, rfl⟩
      | unnamed => exact ⟨_, rfl⟩

/-- If a node has no text, this is told of a node that is expanded for it and has none. -/
theorem refuses_of_expression {e : CompileError} (h : expression g fresh id path = .error e)
    (hstack : ∀ j node, g.get? j = some node → node.name = none → j ∉ fresh →
      TransGen g.Expands j id) : ∃ j p why, e = .unsupportedNode j p why ∧
        ReflTransGen g.Expands id j ∧ g.Refuses j why := by
  induction fresh, id, path using expression.induct with
  | case1 fresh id path ih =>
      have hout := outcome_expression g fresh id path
      rw [h] at hout
      cases hout with
      | foreign outside => exact ⟨id, path, _, rfl, .refl, .foreign outside⟩
      | unbuilt inside empty => exact ⟨id, path, _, rfl, .refl, .unbuilt inside empty⟩
      | unnamedCycle hn hname expanded =>
          exact ⟨id, path, _, rfl, .refl, .unnamedCycle (hstack id _ hn hname expanded)⟩
      | @part node hn hname hmem p hp e failed =>
          have hc : g.Expands id p.2 := ⟨node, hn, hname, mem_rendered_of_mem_shown hp⟩
          obtain ⟨j, q, why, he, hj, hwhy⟩ := ih hmem p.1 p.2 failed
            fun j nodej hnj hnamej hexpanded => by
              by_cases hid : j = id
              · exact hid ▸ .single hc
              · exact (hstack j nodej hnj hnamej fun hmem =>
                  hexpanded ((List.mem_erase_of_ne hid).2 hmem)).tail hc
          exact ⟨j, q, why, he, .head hc hj, hwhy⟩

theorem mem_unexpanded {stack : List NodeId} {j : NodeId} :
    j ∈ unexpanded g stack ↔ j < g.size ∧ j ∉ stack := by
  simp [unexpanded]

/-- A node has a text if and only if every node that is expanded for it is built and none is expanded
inside of itself. Otherwise the error is about one of these nodes, for a reason that it has. -/
theorem expression_unexpanded (g : TypeGraph) (id : NodeId) (path : String) :
    ((∃ text, expression g (unexpanded g []) id path = .ok text) ↔
      ∀ j, ReflTransGen g.Expands id j → (∃ node, g.get? j = some node) ∧
        ¬ TransGen g.Expands j j) ∧
    ((∃ text, expression g (unexpanded g []) id path = .ok text) ∨
      ∃ j p why, expression g (unexpanded g []) id path = .error (.unsupportedNode j p why) ∧
        ReflTransGen g.Expands id j ∧ g.Refuses j why) := by
  have hall : ∀ j node, g.get? j = some node → j ∈ unexpanded g [] := fun j node hn =>
    mem_unexpanded.2 ⟨g.lt_size_of_get? hn, List.not_mem_nil⟩
  refine ⟨⟨fun ⟨text, h⟩ j hj => ?_, fun h => ?_⟩, ?_⟩
  · have hnodup : (unexpanded g []).Nodup := List.nodup_range.filter _
    obtain ⟨⟨node, hn, -⟩, hcycle⟩ := built_of_expression h hnodup hj
    exact ⟨⟨node, hn⟩, hcycle⟩
  · exact exists_expression h fun j node _ hn _ => hall j node hn
  · cases h : expression g (unexpanded g []) id path with
    | ok text => exact .inl ⟨text, rfl⟩
    | error e =>
        obtain ⟨j, p, why, rfl, hj, hwhy⟩ := refuses_of_expression h fun j node hn _ hexpanded =>
          absurd (hall j node hn) hexpanded
        exact .inr ⟨j, p, why, rfl, hj, hwhy⟩

/-- A list of lists of itself. -/
example : expression ⟨#[some ⟨.array 1, none, none, none⟩, some ⟨.array 0, none, none, none⟩], 0⟩
    [0, 1] 0 "#" = .error (.unsupportedNode 0 "#/items/items" .unnamedCycle) := by
  cbv

end Declaration

end Typewright
