import Mathlib
import Typewright.Proofs.TypeGraph.Frame

/-!
# Redirects do not chain

A simplification writes one slot or one redirect at a time, and each `Change` keeps the names of all
slots. `TypeGraph.trail` lists the states between the changes, those inside a step at an interface
included (`runs_settleTrail`). In each of them redirects lead from unnamed nodes to named ones, so
none starts where another ends, and whoever follows them makes one hop at most (`redirects_direct`).
Nothing is asked of the graph: children may lead to slots that are not built, or that are only added
on the way.
-/

namespace Typewright

namespace Reduction

variable {keep : Bool} {w v u : Reduction} {id : NodeId} {node : Node}

/-! ## Changes -/

/-- What a simplification changes at a time. -/
inductive Change (w : Reduction) : Reduction → Prop where
  /-- A built node is replaced by one of the same name. -/
  | fill {id : NodeId} {node node' : Node} (get : w.graph.get? id = some node)
      (name : node'.name = node.name) : Change w (w.fill id node')
  /-- An unnamed node is added. -/
  | add {node : Node} (unnamed : node.name = none) :
      Change w { w with graph := (w.graph.add node).2 }
  /-- A named node is to stand for an unnamed one. -/
  | redirect {id target : NodeId} {node child : Node} (get : w.graph.get? id = some node)
      (unnamed : node.name = none) (member : w.graph.get? target = some child)
      (named : child.name.isSome) : Change w (w.redirect id target)

theorem change_reduceCombination (get : w.graph.get? id = some node) (isUnion : Bool)
    (children : List NodeId) : Change w (w.reduceCombination id isUnion node children) := by
  have hcombined := w.combined_reduceCombination id isUnion node children
  generalize w.reduceCombination id isUnion node children = v at hcombined ⊢
  cases hcombined with
  | redirect _ _ _ member named unnamed => exact .redirect get unnamed member named
  | _ => exact .fill get rfl

/-! ## The states between changes -/

/-- The states through which relaxing a member passes, after the one in which it starts. -/
def memberTrail (w : Reduction) (m : InterfaceMember) : List Reduction :=
  match w.graph.get? m.node with
  | none => []
  | some union =>
    match union.kind, union.name with
    | .union branches, none =>
      if (w.defined branches).length = branches.length then []
      else [w.branched union branches, (w.relaxMember m).1]
    | _, _ => []

def membersTrail (w : Reduction) : List InterfaceMember → List Reduction
  | [] => []
  | m :: rest => w.memberTrail m ++ (w.relaxMember m).1.membersTrail rest

/-- The states through which a step at a node passes. Only that at an interface makes more than one
change. -/
def stepTrail (keep : Bool) (w : Reduction) (id : NodeId) : List Reduction :=
  match w.graph.get? id with
  | none => []
  | some node =>
    match (w.resolved node).kind with
    | .interface members _ =>
      let v := w.fill id (w.resolved node)
      v :: v.membersTrail (kept keep members) ++ [w.reduce keep id]
    | _ => [w.reduce keep id]

def stepsTrail (keep : Bool) (w : Reduction) : List NodeId → List Reduction
  | [] => []
  | id :: rest => w.stepTrail keep id ++ (w.reduce keep id).stepsTrail keep rest

def sweepTrail (keep : Bool) (w : Reduction) : List Reduction := w.stepsTrail keep w.postorder

/-- The states through which the sweeps pass. -/
def settleTrail (keep : Bool) : Nat → Reduction → List Reduction
  | 0, w => w.sweepTrail keep
  | limit + 1, w =>
    let next := w.sweep keep
    w.sweepTrail keep ++
      if next.graph = w.graph ∧ next.redirects.length = w.redirects.length then []
      else settleTrail keep limit next

/-- States that follow a first one, each a change after the one before, up to a last one. -/
inductive Runs : Reduction → List Reduction → Reduction → Prop where
  | nil (w : Reduction) : Runs w [] w
  | cons {w v u : Reduction} {states : List Reduction} (change : Change w v)
      (rest : Runs v states u) : Runs w (v :: states) u

variable {states states' : List Reduction}

theorem Runs.append (h : Runs w states v) (h' : Runs v states' u) : Runs w (states ++ states') u := by
  induction h with
  | nil => exact h'
  | cons change _ ih => exact .cons change (ih h')

/-- What holds at first and lasts with each change holds in every state. -/
theorem Runs.forall_of {P : Reduction → Prop} (h : Runs w states v) (hw : P w)
    (hP : ∀ w v, Change w v → P w → P v) : ∀ s ∈ w :: states, P s := by
  induction h with
  | nil => exact List.forall_mem_singleton.2 hw
  | cons change _ ih => exact List.forall_mem_cons.2 ⟨hw, ih (hP _ _ change hw)⟩

theorem runs_memberTrail (w : Reduction) (m : InterfaceMember) :
    Runs w (w.memberTrail m) (w.relaxMember m).1 := by
  cases get : w.graph.get? m.node with
  | none =>
      simp only [memberTrail, relaxMember, get]
      exact .nil w
  | some union =>
      obtain ⟨kind, name, comment, key⟩ := union
      have hdefined : ∀ branches : List NodeId,
          branches.filter (!w.isUndefined ·) = w.defined branches := fun _ => rfl
      simp only [memberTrail, relaxMember, get, hdefined]
      cases kind with
      | union branches =>
          cases name with
          | none =>
              dsimp only
              split
              · exact .nil w
              · exact .cons (.add rfl)
                  (.cons (change_reduceCombination (w.graph.get?_add_self _) true _) (.nil _))
          | some name => exact .nil w
      | _ => exact .nil w

theorem runs_membersTrail (w : Reduction) (members : List InterfaceMember) :
    Runs w (w.membersTrail members) (w.relaxMembers members).1 := by
  induction members generalizing w with
  | nil => exact .nil w
  | cons m rest ih => exact (w.runs_memberTrail m).append (ih _)

theorem runs_stepTrail (keep : Bool) (w : Reduction) (id : NodeId) :
    Runs w (w.stepTrail keep id) (w.reduce keep id) := by
  cases get : w.graph.get? id with
  | none =>
      have hself : w.reduce keep id = w := by
        unfold reduce
        rw [get]
      simp only [stepTrail, get, hself]
      exact .nil w
  | some node =>
      have hlt := w.graph.lt_size_of_get? get
      simp only [stepTrail, get]
      split
      · rename_i members supers kind
        have hfill : Change w (w.fill id (w.resolved node)) := .fill get rfl
        have hslot : (w.fill id (w.resolved node)).graph.get? id = some (w.resolved node) :=
          w.graph.get?_fill_self hlt
        refine .cons hfill ((runs_membersTrail _ _).append (.cons ?_ (.nil _)))
        rw [reduce_interface get kind]
        -- the slot of the interface is not touched while its members are relaxed
        refine .fill ((get?_relaxMembers_of_lt ?_).trans hslot) rfl
        rwa [fill, TypeGraph.size_fill]
      · rename_i hother
        refine .cons ?_ (.nil _)
        rcases w.reduce_of_get? keep get with ⟨isUnion, cs, kind⟩ | ⟨members, supers, kind⟩ | heq
        · rw [reduce_combination get kind]
          exact change_reduceCombination get isUnion cs
        · exact absurd (congrArg (Kind.mapChildren w.resolve) kind) (hother _ _)
        · rw [heq]
          exact .fill get rfl

theorem runs_stepsTrail (keep : Bool) (w : Reduction) (ids : List NodeId) :
    Runs w (w.stepsTrail keep ids) (ids.foldl (reduce keep) w) := by
  induction ids generalizing w with
  | nil => exact .nil w
  | cons id rest ih => exact (w.runs_stepTrail keep id).append (ih _)

/-- Nothing is changed but from one state of the trail to the next, and the last is the result of the
sweeps. -/
theorem runs_settleTrail (keep : Bool) (limit : Nat) (w : Reduction) :
    Runs w (settleTrail keep limit w) (settle keep limit w) := by
  induction limit generalizing w with
  | zero => exact w.runs_stepsTrail keep _
  | succ limit ih =>
      have hsweep : Runs w (w.sweepTrail keep) (w.sweep keep) := w.runs_stepsTrail keep _
      simp only [settleTrail, settle]
      split
      · rw [List.append_nil]
        exact hsweep
      · exact hsweep.append (ih _)

/-! ## Names -/

/-- The name of the node in a slot. -/
def name? (w : Reduction) (id : NodeId) : Option String := (w.graph.get? id).bind (·.name)

/-- A built slot stays built, under its name. -/
theorem Change.exists_get? (h : Change w v) {i : NodeId} {old : Node}
    (hi : w.graph.get? i = some old) :
    ∃ new, v.graph.get? i = some new ∧ new.name = old.name := by
  cases h with
  | @fill id node node' get name =>
      rw [Reduction.fill, w.graph.get?_fill (w.graph.lt_size_of_get? get)]
      split
      · rename_i heq
        obtain rfl := Option.some.inj (get.symm.trans (heq ▸ hi))
        exact ⟨node', rfl, name⟩
      · exact ⟨old, hi, rfl⟩
  | add => exact ⟨old, (w.graph.get?_add_of_lt (w.graph.lt_size_of_get? hi)).trans hi, rfl⟩
  | redirect => exact ⟨old, hi, rfl⟩

/-- No slot gains or loses a name. -/
theorem Change.name?_eq (h : Change w v) (i : NodeId) : v.name? i = w.name? i := by
  cases hi : w.graph.get? i with
  | some old =>
      obtain ⟨new, hnew, hname⟩ := h.exists_get? hi
      rw [name?, name?, hi, hnew]
      exact hname
  | none =>
      have hnone : w.name? i = none := by rw [name?, hi, Option.bind_none]
      rw [hnone]
      cases h with
      | @fill id node node' get =>
          have hne : i ≠ id := by
            rintro rfl
            rw [hi] at get
            cases get
          rw [name?, Reduction.fill, w.graph.get?_fill_of_ne hne, hi, Option.bind_none]
      | @add node unnamed =>
          rw [name?]
          by_cases hsize : i = w.graph.size
          · rw [hsize, w.graph.get?_add_self]
            exact unnamed
          · rw [w.graph.get?_add_of_ne hsize, hi, Option.bind_none]
      | redirect => exact hnone

/-! ## Redirects -/

/-- Redirects lead from unnamed nodes to named ones, whatever counts as live. -/
abbrev Oriented (w : Reduction) : Prop := (Stage.mk w (fun _ => True) []).Oriented

/-- A redirect is an old one, or leads from an unnamed node to a named one. -/
theorem Change.of_leads (h : Change w v) {a b : NodeId} (hl : v.Leads a b) : w.Leads a b ∨
    (∃ node, w.graph.get? a = some node ∧ node.name = none) ∧
      ∃ node, w.graph.get? b = some node ∧ node.name.isSome := by
  cases h with
  | fill => exact .inl hl
  | add => exact .inl hl
  | @redirect id target node child get unnamed member named =>
      rcases (Stage.mk w (fun _ => True) []).leads_redirect id target hl with ⟨rfl, rfl⟩ | ⟨-, hl⟩
      · exact .inr ⟨⟨node, get, unnamed⟩, child, member, named⟩
      · exact .inl hl

theorem Oriented.change (hw : w.Oriented) (h : Change w v) : v.Oriented := by
  refine ⟨fun a b hl => ?_, fun a b hl => ?_⟩
  · obtain ⟨node, get, hname⟩ := (h.of_leads hl).elim (hw.source a b) (·.1)
    obtain ⟨node', get', hsame⟩ := h.exists_get? get
    exact ⟨node', get', hsame.trans hname⟩
  · obtain ⟨node, get, hname⟩ := (h.of_leads hl).elim (hw.target a b) (·.2)
    obtain ⟨node', get', hsame⟩ := h.exists_get? get
    exact ⟨node', get', hsame ▸ hname⟩

/-- Whoever follows redirects without limit comes to a node without one after so many hops. -/
inductive Ends (w : Reduction) : Nat → NodeId → NodeId → Prop where
  | here {id : NodeId} (free : w.redirects.lookup id = none) : Ends w 0 id id
  | hop {n : Nat} {id next last : NodeId} (lead : w.redirects.lookup id = some next)
      (rest : Ends w n next last) : Ends w (n + 1) id last

theorem Oriented.lookup_eq_none (hw : w.Oriented) {a b : NodeId}
    (hl : w.redirects.lookup a = some b) : w.redirects.lookup b = none := by
  obtain ⟨node, get, hname⟩ := hw.target a b (mem_of_lookup hl)
  exact free_iff.1 (Stage.Oriented.free hw get hname)

theorem Oriented.ends (hw : w.Oriented) (id : NodeId) :
    ∃ hops ≤ 1, hops ≤ w.redirects.length ∧ w.Ends hops id (w.resolve id) := by
  cases hl : w.redirects.lookup id with
  | none =>
      rw [(free_iff.2 hl).resolve_eq]
      exact ⟨0, Nat.zero_le 1, Nat.zero_le _, .here hl⟩
  | some next =>
      have hnext := hw.lookup_eq_none hl
      rw [resolve_of_lookup hl (free_iff.2 hnext)]
      exact ⟨1, Nat.le_refl 1, List.length_pos_of_mem (mem_of_lookup hl), .hop hl (.here hnext)⟩

/-- One hop is enough. -/
theorem Oriented.resolveFrom_eq (hw : w.Oriented) (limit : Nat) (id : NodeId) :
    w.resolveFrom (limit + 1) id = w.resolve id := by
  cases hl : w.redirects.lookup id with
  | none =>
      have hfree := free_iff.2 hl
      rw [hfree.resolveFrom_eq, hfree.resolve_eq]
  | some next =>
      have hnext := free_iff.2 (hw.lookup_eq_none hl)
      rw [resolve_of_lookup hl hnext, resolveFrom, hl]
      dsimp only
      split
      · rename_i heq
        exact heq.symm
      · exact hnext.resolveFrom_eq limit

end Reduction

namespace TypeGraph

open Reduction (settle settleTrail Runs Ends)

/-- The states through which a simplification passes, one after each change. -/
def trail (keep : Bool) (g : TypeGraph) : List Reduction := settleTrail keep g.size ⟨g, []⟩

/-- From the graph itself to what the sweeps make of it, in every state between two changes, slots
have the names that they had, each redirect leads from an unnamed node to another one that is named
and not redirected, and whoever follows redirects comes after one hop at most, however many are
allowed, to a node that is not redirected. -/
theorem redirects_direct (keep : Bool) (g : TypeGraph) :
    Runs ⟨g, []⟩ (g.trail keep) (settle keep g.size ⟨g, []⟩) ∧
    ∀ w ∈ ⟨g, []⟩ :: g.trail keep,
      (∀ id, w.name? id = Reduction.name? ⟨g, []⟩ id) ∧
      (∀ a b, w.redirects.lookup a = some b →
        a ≠ b ∧ (∃ node, w.graph.get? a = some node ∧ node.name = none) ∧
          (∃ node, w.graph.get? b = some node ∧ node.name.isSome) ∧
          w.redirects.lookup b = none) ∧
      ∀ id, w.redirects.lookup (w.resolve id) = none ∧
        (∃ hops ≤ 1, hops ≤ w.redirects.length ∧ Ends w hops id (w.resolve id)) ∧
        ∀ limit, w.resolveFrom (limit + 1) id = w.resolve id := by
  have hruns : Runs ⟨g, []⟩ (g.trail keep) (settle keep g.size ⟨g, []⟩) :=
    Reduction.runs_settleTrail keep g.size ⟨g, []⟩
  have hstart : Reduction.Oriented ⟨g, []⟩ :=
    ⟨fun _ _ hl => absurd hl List.not_mem_nil, fun _ _ hl => absurd hl List.not_mem_nil⟩
  refine ⟨hruns, fun w hw => ?_⟩
  have hnames := hruns.forall_of (P := fun v => ∀ id, v.name? id = Reduction.name? ⟨g, []⟩ id)
    (fun _ => rfl) (fun _ _ change h id => (change.name?_eq id).trans (h id)) w hw
  have horiented := hruns.forall_of hstart (fun _ _ change h => h.change change) w hw
  refine ⟨hnames, fun a b hl => ?_, fun id => ⟨?_, horiented.ends id, fun limit => ?_⟩⟩
  · have hlead : w.Leads a b := mem_of_lookup hl
    have hfree := horiented.lookup_eq_none hl
    refine ⟨?_, horiented.source a b hlead, horiented.target a b hlead, hfree⟩
    rintro rfl
    rw [hl] at hfree
    cases hfree
  · exact Reduction.free_iff.1 (Stage.Oriented.free_resolve horiented id)
  · exact horiented.resolveFrom_eq limit id

/-- An interface with two members: a union of the named node `Text` alone, and one with `undefined`
beside it. -/
def aliased : TypeGraph where
  nodes := #[
    some { kind := .interface [{ key := "first", node := 1 }, { key := "second", node := 2 }] [],
           name := some "Root" },
    some { kind := .union [4] },
    some { kind := .union [3, 4] },
    some { kind := .customType "undefined" },
    some { kind := .string, name := some "Text" }]

/-- The rest of the second union is a node of its own, which is redirected while the interface waits
for its members. -/
theorem redirects_direct_aliased :
    ∃ w ∈ aliased.trail false, w.redirects = [(5, 4), (1, 4)] ∧ w.redirects.lookup 4 = none ∧
      (∃ node, w.graph.get? 5 = some node ∧ node.name = none) ∧
      (∃ node, w.graph.get? 4 = some node ∧ node.name.isSome) ∧
      (∃ hops ≤ 1, Ends w hops 5 (w.resolve 5)) ∧ ∀ limit, w.resolveFrom (limit + 1) 5 = 4 := by
  have hstate : (aliased.trail false)[6]?.map (·.redirects) = some [(5, 4), (1, 4)] := by cbv
  obtain ⟨w, hw, hredirects⟩ := Option.map_eq_some_iff.1 hstate
  have hmem : w ∈ aliased.trail false := List.mem_of_getElem? hw
  obtain ⟨-, hall⟩ := redirects_direct false aliased
  obtain ⟨-, hredirect, hresolve⟩ := hall w (List.mem_cons_of_mem _ hmem)
  have hlookup : w.redirects.lookup 5 = some 4 := by rw [hredirects]; rfl
  obtain ⟨-, hunnamed, hnamed, hfree⟩ := hredirect 5 4 hlookup
  obtain ⟨-, ⟨hops, hone, -, hends⟩, hlimit⟩ := hresolve 5
  refine ⟨w, hmem, hredirects, hfree, hunnamed, hnamed, ⟨hops, hone, hends⟩, fun limit => ?_⟩
  rw [hlimit, Reduction.resolve_of_lookup hlookup (Reduction.free_iff.2 hfree)]

end TypeGraph

end Typewright
