import Mathlib
import Typewright.Proofs.TypeGraph.Cycles
import Typewright.Proofs.TypeGraph.Fingerprint

/-!
# The duplicates that a simplification drops

A member of a union or an intersection is dropped if its fingerprint is that of an earlier one. If
the names and texts of a graph have no commas, a dropped member has the structure of one that stays
(`merges_of_reduces`). Texts are not quoted in fingerprints, so one with a comma may look like a
list of parts, and a member is dropped that no other one is like (`exists_distinct_merged`).
-/

namespace Typewright

theorem map_eq_map_of_forall₂ {α β γ : Type} {r : α → β → Prop} {f : α → γ} {h : β → γ}
    (hr : ∀ a b, r a b → f a = h b) {xs : List α} {ys : List β} (hxy : List.Forall₂ r xs ys) :
    xs.map f = ys.map h := by
  induction hxy with
  | nil => rfl
  | cons hab _ ih => rw [List.map_cons, List.map_cons, hr _ _ hab, ih]

theorem eq_of_mem_zip_self {α : Type} {xs : List α} {p : α × α} (h : p ∈ xs.zip xs) :
    p.1 = p.2 ∧ p.1 ∈ xs := by
  have hself : xs.zip xs = xs.map fun x => (x, x) := List.zipWith_self ..
  obtain ⟨x, hx, rfl⟩ := List.mem_map.1 (hself ▸ h)
  exact ⟨rfl, hx⟩

/-! ## The same structure -/

namespace Kind

/-- A kind without the numbers of its children. -/
def shape (kind : Kind) : Kind := kind.mapChildren fun _ => 0

variable {R : NodeId → NodeId → Prop} {k l : Kind}

theorem Alike.shape_eq (h : Alike R k l) : k.shape = l.shape := by
  have hlist : ∀ {as bs : List NodeId}, List.Forall₂ R as bs →
      as.map (fun _ => 0) = bs.map fun _ => (0 : NodeId) :=
    map_eq_map_of_forall₂ fun _ _ _ => rfl
  cases h with
  | leaf => rfl
  | array => rfl
  | tuple h => simp only [shape, mapChildren, hlist h]
  | union h => simp only [shape, mapChildren, hlist h]
  | intersection h => simp only [shape, mapChildren, hlist h]
  | enum h =>
      have hvalues := map_eq_map_of_forall₂ (f := fun m : EnumMember => { m with node := 0 })
        (h := fun m : EnumMember => { m with node := 0 })
        (fun m n (hmn : ValueAlike R m n) => by rw [hmn.1]) h
      simp only [shape, mapChildren, hvalues]
  | interface hm hs =>
      have hmembers := map_eq_map_of_forall₂ (f := fun m : InterfaceMember => { m with node := 0 })
        (h := fun m : InterfaceMember => { m with node := 0 })
        (fun m n (hmn : MemberAlike R m n) => by
          rw [hmn.1, hmn.2.1, hmn.2.2.1, hmn.2.2.2.1]) hm
      simp only [shape, mapChildren, hmembers, hlist hs]

theorem Alike.children (h : Alike R k l) : List.Forall₂ R k.children l.children := by
  cases h with
  | leaf h =>
      rw [h]
      exact .nil
  | array h => exact .cons h .nil
  | tuple h => exact h
  | union h => exact h
  | intersection h => exact h
  | enum h =>
      refine List.forall₂_map_left_iff.2 (List.forall₂_map_right_iff.2 (h.imp fun m n hmn => ?_))
      exact hmn.2
  | interface hm hs =>
      refine List.rel_append ?_ hs
      refine List.forall₂_map_left_iff.2 (List.forall₂_map_right_iff.2 (hm.imp fun m n hmn => ?_))
      exact hmn.2.2.2.2

theorem textual_delimited : Textual Delimited where
  map _ kind h := by cases kind <;> exact h
  combination isUnion _ := by cases isUnion <;> trivial
  any := trivial
  interface _ _ := trivial

end Kind

namespace TypeGraph

/-- Two nodes have the same structure: the same kind with the same texts, literals, keys and flags,
and children of which this holds again. At the top their names do not count; below, a named node has
the structure of itself alone. -/
inductive Same (g : TypeGraph) (resolve : NodeId → NodeId) : Bool → NodeId → NodeId → Prop where
  | unbuilt {top : Bool} {a b : NodeId} (get : g.get? (resolve a) = none)
      (eq : resolve a = resolve b) : Same g resolve top a b
  | named {a b : NodeId} {node : Node} (get : g.get? (resolve a) = some node)
      (named : node.name.isSome) (eq : resolve a = resolve b) : Same g resolve false a b
  | built {top : Bool} {a b : NodeId} {node node' : Node} (get : g.get? (resolve a) = some node)
      (get' : g.get? (resolve b) = some node')
      (unnamed : top = true ∨ node.name = none ∧ node'.name = none)
      (shape : node.kind.shape = node'.kind.shape)
      (children : ∀ p ∈ node.kind.children.zip node'.kind.children,
        Same g resolve false p.1 p.2) : Same g resolve top a b

/-- No two live nodes have the same name. -/
def DistinctNames (g : TypeGraph) (live : NodeId → Prop) : Prop :=
  ∀ a b node node' name, live a → live b → g.get? a = some node → g.get? b = some node' →
    node.name = some name → node'.name = some name → a = b

end TypeGraph

namespace Stage

variable {keep : Bool} {s t : Stage} {rank : NodeId → Nat}

/-- A node has its own structure. The induction is on the rank, which falls from an unnamed node to
its children. -/
theorem Ranked.same_of_eq (h : s.Ranked rank) (hc : s.Closed) {a b : NodeId} (ha : s.live a)
    (hab : s.work.resolve a = s.work.resolve b) :
    s.work.graph.Same s.work.resolve false a b := by
  induction hrank : rank a using Nat.strong_induction_on generalizing a b with
  | _ n ih =>
      cases get : s.work.graph.get? (s.work.resolve a) with
      | none => exact .unbuilt get hab
      | some node =>
          cases hname : node.name with
          | some name => exact .named get (by simp [hname]) hab
          | none =>
              refine .built get (hab ▸ get) (.inr ⟨hname, hname⟩) rfl fun p hp => ?_
              obtain ⟨heq, hmem⟩ := eq_of_mem_zip_self hp
              have hlt : rank p.1 < rank (s.work.resolve a) :=
                h.child_lt (hc.resolve ha) get hname hmem
              refine ih _ (hrank ▸ Nat.lt_of_lt_of_le hlt (h.resolve_le a))
                (hc.child_of_get (hc.resolve ha) get hmem) (congrArg _ heq) rfl

/-- A stage in which fingerprints tell structures apart. -/
structure Legible (s : Stage) : Prop where
  closed : s.Closed
  bounded : s.Bounded
  delimited : s.work.graph.Delimited s.live
  distinct : s.work.graph.DistinctNames s.live
  ranked : ∃ rank, s.Ranked rank

theorem distinctNames_edit (h : s.work.graph.DistinctNames s.live) (he : Edit keep s t) :
    t.work.graph.DistinctNames t.live := by
  intro a b node node' name ha hb get get' hname hname'
  obtain ⟨old, ha, hold, hname⟩ := exists_name_of_edit he ha get hname
  obtain ⟨old', hb, hold', hname'⟩ := exists_name_of_edit he hb get' hname'
  exact h a b old old' name ha hb hold hold' hname hname'

theorem Legible.edit (h : s.Legible) (he : Edit keep s t) : t.Legible where
  closed := h.closed.edit he
  bounded := h.bounded.edit he
  delimited := ⟨textual_edit Kind.textual_delimited h.delimited.kind h.closed he,
    name_edit h.delimited.name he⟩
  distinct := distinctNames_edit h.distinct he
  ranked := by
    obtain ⟨rank, hr⟩ := h.ranked
    exact hr.edit h.closed h.bounded he

theorem Legible.edits (h : s.Legible) (he : Edits keep s t) : t.Legible := by
  induction he with
  | refl => exact h
  | tail _ he ih => exact ih.edit he

/-- Having the same structure does not see more of a node than a fingerprint shows. -/
theorem Legible.likeness (h : s.Legible) :
    s.work.graph.Likeness s.work.resolve s.live (s.work.graph.Same s.work.resolve) := by
  obtain ⟨rank, hr⟩ := h.ranked
  refine ⟨fun top a b ha _ hab => ?_, fun a b node node' name ha hb get get' hname hname' => ?_,
    fun top a b node node' _ _ get get' hname halike => ?_⟩
  · cases top with
    | false => exact hr.same_of_eq h.closed ha hab
    | true =>
        cases get : s.work.graph.get? (s.work.resolve a) with
        | none => exact .unbuilt get hab
        | some node =>
            refine .built get (hab ▸ get) (.inl rfl) rfl fun p hp => ?_
            obtain ⟨heq, hmem⟩ := eq_of_mem_zip_self hp
            exact hr.same_of_eq h.closed (h.closed.child_of_get (h.closed.resolve ha) get hmem)
              (congrArg _ heq)
  · have hab := h.distinct _ _ node node' name (h.closed.resolve ha) (h.closed.resolve hb) get get'
      hname hname'
    exact .named get (by simp [hname]) hab
  · refine .built get get' hname halike.shape_eq fun p hp => ?_
    exact List.forall₂_zip halike.children hp

/-- Live nodes with the same fingerprint have the same structure. -/
theorem Legible.same_of_fingerprint (h : s.Legible) {a b : NodeId} (ha : s.live a) (hb : s.live b)
    (heq : s.work.graph.fingerprint s.work.resolve a = s.work.graph.fingerprint s.work.resolve b) :
    s.work.graph.Same s.work.resolve true a b :=
  h.likeness.of_fingerprint h.delimited (fun _ => h.closed.resolve)
    (fun _ _ hid get _ => h.closed.child_of_get hid get) ha hb heq

end Stage

/-! ## What is left of a list -/

/-- `kept` is what is left of a list if what is dropped is like one that is kept before it, or like
one of `earlier`. -/
inductive Merges (like : NodeId → NodeId → Prop) :
    List NodeId → List NodeId → List NodeId → Prop where
  | nil {earlier : List NodeId} : Merges like earlier [] []
  | keep {a : NodeId} {earlier ids kept : List NodeId}
      (rest : Merges like (a :: earlier) ids kept) : Merges like earlier (a :: ids) (a :: kept)
  | drop {a b : NodeId} {earlier ids kept : List NodeId} (mem : b ∈ earlier) (same : like b a)
      (rest : Merges like earlier ids kept) : Merges like earlier (a :: ids) kept

/-- What is not kept is like something that is. -/
theorem Merges.exists_like {like : NodeId → NodeId → Prop} {earlier ids kept : List NodeId}
    (h : Merges like earlier ids kept) {a : NodeId} (ha : a ∈ ids) :
    a ∈ kept ∨ ∃ b ∈ earlier ++ kept, like b a := by
  induction h with
  | nil => cases ha
  | keep _ ih =>
      rcases List.mem_cons.1 ha with rfl | ha
      · exact .inl List.mem_cons_self
      · refine (ih ha).imp (List.mem_cons_of_mem _) fun ⟨b, hb, hlike⟩ => ⟨b, ?_, hlike⟩
        simp only [List.cons_append, List.mem_append, List.mem_cons] at hb ⊢
        tauto
  | drop hmem hlike _ ih =>
      rcases List.mem_cons.1 ha with rfl | ha
      · exact .inr ⟨_, List.mem_append_left _ hmem, hlike⟩
      · exact ih ha

theorem Reduction.merges_dropDuplicates (w : Reduction) {like : NodeId → NodeId → Prop}
    {earlier ids : List NodeId}
    (h : ∀ a ∈ earlier ++ ids, ∀ b ∈ ids,
      w.graph.fingerprint w.resolve a = w.graph.fingerprint w.resolve b → like a b) :
    Merges like earlier ids
      (w.dropDuplicates (earlier.map (w.graph.fingerprint w.resolve)) ids) := by
  induction ids generalizing earlier with
  | nil => exact .nil
  | cons b rest ih =>
      simp only [dropDuplicates]
      split
      · rename_i hmem
        obtain ⟨a, ha, heq⟩ := List.mem_map.1 hmem
        refine .drop ha (h a (List.mem_append_left _ ha) b List.mem_cons_self heq) (ih ?_)
        intro c hc d hd
        refine h c ?_ d (List.mem_cons_of_mem _ hd)
        simp only [List.mem_append, List.mem_cons] at hc ⊢
        exact hc.imp_right .inr
      · have hrest : ∀ c ∈ (b :: earlier) ++ rest, ∀ d ∈ rest,
            w.graph.fingerprint w.resolve c = w.graph.fingerprint w.resolve d → like c d := by
          intro c hc d hd
          refine h c ?_ d (List.mem_cons_of_mem _ hd)
          simp only [List.cons_append, List.mem_append, List.mem_cons] at hc ⊢
          tauto
        exact .keep (ih hrest)

/-- In a legible stage only members that have the structure of another one are dropped. -/
theorem Stage.Legible.merges {s : Stage} (h : s.Legible) (id : NodeId) (isUnion : Bool)
    {children : List NodeId} (hc : ∀ c ∈ children, s.live c) :
    Merges (s.work.graph.Same s.work.resolve true) []
      (s.work.flatten id isUnion (children.map s.work.resolve))
      (s.work.members id isUnion children) := by
  refine s.work.merges_dropDuplicates fun a ha b hb heq => ?_
  exact h.same_of_fingerprint (h.closed.flatten hc ha) (h.closed.flatten hc hb) heq

/-! ## The combinations that a simplification reduces -/

/-- In one of its sweeps a simplification comes to the node `id`, with the graph `w` under work. -/
def Visits (keep : Bool) (g : TypeGraph) (w : Reduction) (id : NodeId) : Prop :=
  ∃ n before after,
    ((Reduction.sweep keep)^[n] ⟨g, []⟩).postorder = before ++ id :: after ∧
    before.foldl (Reduction.reduce keep) ((Reduction.sweep keep)^[n] ⟨g, []⟩) = w

/-- A simplification reduces the union, or else the intersection, `id` with the members `children`,
with the graph `w` under work: a node to which it comes, or the rest of a union with `undefined`
that is the type of a member of an interface. -/
inductive Reduces (keep : Bool) (g : TypeGraph) :
    Reduction → NodeId → Bool → List NodeId → Prop where
  | node {w : Reduction} {id : NodeId} {node : Node} {isUnion : Bool} {children : List NodeId}
      (visits : Visits keep g w id) (get : w.graph.get? id = some node)
      (kind : node.kind = .combination isUnion children) : Reduces keep g w id isUnion children
  | rest {w v : Reduction} {id : NodeId} {node union : Node} {m : InterfaceMember}
      {members before after : List InterfaceMember} {supers branches : List NodeId}
      (visits : Visits keep g w id) (get : w.graph.get? id = some node)
      (kind : node.kind.mapChildren w.resolve = .interface members supers)
      (order : Reduction.kept keep members = before ++ m :: after)
      (state :
        ((w.fill id { node with kind := .interface members supers }).relaxMembers before).1 = v)
      (member : v.graph.get? m.node = some union) (branching : union.kind = .union branches)
      (unnamed : union.name = none) (undef : (v.defined branches).length ≠ branches.length) :
      Reduces keep g
        { v with graph := (v.graph.add
          { kind := .union (v.defined branches), comment := union.comment, key := union.key }).2 }
        v.graph.size true (v.defined branches)

namespace Stage

variable {keep : Bool} {s : Stage}

/-- Any number of sweeps is a run of edits. -/
theorem edits_sweeps (keep : Bool) (n : Nat) (hc : s.Closed) (hb : s.Bounded) (ho : s.Oriented) :
    ∃ t, Reached keep s ((Reduction.sweep keep)^[n] s.work) t := by
  induction n with
  | zero => exact ⟨s, .refl keep s⟩
  | succ n ih =>
      obtain ⟨t, ht⟩ := ih
      obtain ⟨u, hu⟩ :=
        edits_sweep keep (hc.edits ht.edits) (hb.edits ht.edits) (ho.edits ht.edits)
      rw [ht.work, ← Function.iterate_succ_apply' (Reduction.sweep keep)] at hu
      exact ⟨u, ht.trans hu⟩

end Stage

section

variable {keep : Bool} {g : TypeGraph} {w : Reduction} {id : NodeId}

/-- The root of a graph leads to nothing but itself if no node is built there. -/
theorem Visits.get?_of_unbuilt (h : Visits keep g w id) (hroot : g.get? g.root = none) :
    w.graph.get? id = none := by
  obtain ⟨n, before, after, horder, rfl⟩ := h
  rw [Function.iterate_fixed (Reduction.sweep_of_unbuilt keep hroot)] at horder ⊢
  have hnone := Reduction.get?_of_unbuilt hroot
  rw [horder] at hnone
  rw [Reduction.foldl_of_unbuilt keep fun i hi => hnone i (List.mem_append_left _ hi)]
  exact hnone id (List.mem_append_right _ List.mem_cons_self)

/-- A node to which a simplification comes is live, in a stage that edits lead to. -/
theorem Visits.exists_stage (h : Visits keep g w id) (hg : g.Inside) (hroot : g.root < g.size) :
    ∃ t, Edits keep (Stage.start g) t ∧ t.work = w ∧ t.live id := by
  obtain ⟨n, before, after, horder, rfl⟩ := h
  have hc := Stage.closed_start g
  have hb := hg.bounded_start hroot
  have ho := Stage.oriented_start g
  obtain ⟨s, hs⟩ := Stage.edits_sweeps keep n hc hb ho
  replace hc := hc.edits hs.edits
  replace hb := hb.edits hs.edits
  replace ho := ho.edits hs.edits
  have hpost : s.work.postorder = before ++ id :: after := hs.work ▸ horder
  have hbefore : ∀ i ∈ before, i ∈ s.work.postorder := fun i hi =>
    hpost ▸ List.mem_append_left _ hi
  have hnodup : s.work.postorder.Nodup := Walk.nodup_postorder (Walk.nodup_eraseDups _)
  obtain ⟨t, ht⟩ := Stage.edits_foldl keep hc hb (fun i hi => hc.postorder i (hbefore i hi))
    (fun i hi => ho.postorder i (hbefore i hi)) (List.nodup_append.1 (hpost ▸ hnodup)).1
  refine ⟨t, hs.edits.trans ht.edits, by rw [ht.work, hs.work]; rfl, ht.live id ?_⟩
  exact hc.postorder id (hpost ▸ List.mem_append_right _ List.mem_cons_self)

theorem Reduces.root_lt {isUnion : Bool} {children : List NodeId}
    (h : Reduces keep g w id isUnion children) : g.root < g.size := by
  by_contra hroot
  have hnone := g.get?_eq_none_of_size_le (Nat.not_lt.1 hroot)
  cases h with
  | node visits get =>
      rw [visits.get?_of_unbuilt hnone] at get
      cases get
  | rest visits get =>
      rw [visits.get?_of_unbuilt hnone] at get
      cases get

/-- What a simplification reduces has live members, in a stage that edits lead to. -/
theorem Reduces.exists_stage {isUnion : Bool} {children : List NodeId}
    (h : Reduces keep g w id isUnion children) (hg : g.Inside) :
    ∃ t, Edits keep (Stage.start g) t ∧ t.work = w ∧ ∀ c ∈ children, t.live c := by
  have hroot := h.root_lt
  have hc := Stage.closed_start g
  have hb := hg.bounded_start hroot
  cases h with
  | node visits get kind =>
      obtain ⟨t, ht, rfl, hid⟩ := visits.exists_stage hg hroot
      refine ⟨t, ht, rfl, fun c hmem => (hc.edits ht).child_of_get hid get ?_⟩
      rwa [kind, Kind.children_combination]
  | @rest w v id node union m members before after supers branches visits get kind order state
      member branching unnamed undef =>
      obtain ⟨s, hs, rfl, hid⟩ := visits.exists_stage hg hroot
      have hfill : Edit keep s _ := .rewrite hid get .resolve
      rw [kind] at hfill
      have hs₁ := hs.tail hfill
      have get₁ : (s.work.graph.fill id { node with kind := .interface members supers }).get? id =
          some { node with kind := .interface members supers } :=
        s.work.graph.get?_fill_self (s.work.graph.lt_size_of_get? get)
      have hlive : ∀ n ∈ before ++ m :: after, s.live n.node := fun n hn =>
        (hc.edits hs₁).child_of_get hid get₁
          (List.mem_append_left _ (List.mem_map_of_mem (Stage.kept_subset (order ▸ hn))))
      obtain ⟨t, ht, -⟩ := Stage.edits_relaxMembers keep (hc.edits hs₁) (hb.edits hs₁)
        fun n hn => hlive n (List.mem_append_left _ hn)
      obtain rfl : t.work = v := ht.work.trans state
      have hm : t.live m.node := ht.live _ (hlive m (List.mem_append_right _ List.mem_cons_self))
      refine ⟨_, (hs₁.trans ht.edits).tail (.branch hm member branching unnamed undef), rfl,
        fun c hmem => .inl ?_⟩
      refine (hc.edits (hs₁.trans ht.edits)).child_of_get hm member ?_
      rw [branching]
      exact (List.mem_filter.1 hmem).1

end

namespace TypeGraph

/-- A simplification of a graph whose names and texts have no commas drops a member of a union or an
intersection only if one that stays, before it, has the same structure. -/
theorem merges_of_reduces {g : TypeGraph} (hg : g.Inside) (hn : g.DistinctNames g.Reaches)
    (hcycles : g.CyclesNamed) (hd : g.Delimited g.Reaches) {keep : Bool} {w : Reduction}
    {id : NodeId} {isUnion : Bool} {children : List NodeId}
    (h : Reduces keep g w id isUnion children) :
    Merges (w.graph.Same w.resolve true) [] (w.flatten id isUnion (children.map w.resolve))
      (w.members id isUnion children) := by
  obtain ⟨rank, hrank⟩ := g.exists_ranking hcycles
  have hstart : (Stage.start g).Legible :=
    ⟨Stage.closed_start g, hg.bounded_start h.root_lt, hd, hn, rank, hrank,
      fun _ _ hl => absurd hl List.not_mem_nil, fun _ _ hl => absurd hl List.not_mem_nil⟩
  obtain ⟨t, ht, rfl, hlive⟩ := h.exists_stage hg
  exact (hstart.edits ht).merges id isUnion hlive

/-- A union of three tuples, of which the last two are the same and the first holds one text. -/
def tuples (text : String) : TypeGraph where
  nodes := #[
    some { kind := .union [1, 2, 3], name := some "Root" },
    some { kind := .tuple [4] },
    some { kind := .tuple [5, 6] },
    some { kind := .tuple [5, 6] },
    some { kind := .customType text },
    some { kind := .customType "a" },
    some { kind := .customType "b" }]

section Tuples

variable {text : String}

/-- In this graph nodes refer to later ones only. -/
theorem lt_of_refers_tuples {a b : NodeId} (h : (tuples text).Refers a b) : a < b ∧ b < 7 := by
  have hall : ∀ i < 7, ∀ c ∈ (tuples text).childrenOf i, i < c ∧ c < 7 := by
    intro i hi
    interval_cases i <;> simp [tuples, childrenOf, get?, Kind.children]
  by_cases hlt : a < 7
  · exact hall a hlt b h
  · rw [Refers, childrenOf, (tuples text).get?_eq_none_of_size_le (Nat.not_lt.1 hlt)] at h
    cases h

theorem inside_tuples : (tuples text).Inside := fun _ _ _ hc => (lt_of_refers_tuples hc).2

theorem cyclesNamed_tuples : (tuples text).CyclesNamed := by
  have hlt : ∀ a b, Relation.TransGen (tuples text).Inlines a b → a < b := by
    intro a b h
    induction h with
    | single h => exact (lt_of_refers_tuples (refers_of_inlines _ h)).1
    | tail _ h ih => exact Nat.lt_trans ih (lt_of_refers_tuples (refers_of_inlines _ h)).1
  exact fun id _ h => Nat.lt_irrefl id (hlt id id h)

theorem eq_zero_of_name_tuples {id : NodeId} {node : Node} {name : String}
    (get : (tuples text).get? id = some node) (hname : node.name = some name) :
    id = 0 ∧ name = "Root" := by
  have hlt : id < 7 := (tuples text).lt_size_of_get? get
  interval_cases id <;> simp [tuples, get?] at get <;> subst get <;> simp_all

theorem distinctNames_tuples (live : NodeId → Prop) : (tuples text).DistinctNames live :=
  fun _ _ _ _ _ _ _ get get' hname hname' =>
    (eq_zero_of_name_tuples get hname).1.trans (eq_zero_of_name_tuples get' hname').1.symm

/-- A simplification comes to the union last, when nothing has changed. -/
theorem reduces_tuples : Reduces false (tuples text) ⟨tuples text, []⟩ 0 true [1, 2, 3] := by
  refine .node ⟨0, [4, 1, 5, 6, 2, 3], [], ?_, ?_⟩ rfl rfl
  · cbv
  · cbv

theorem flatten_tuples :
    (⟨tuples text, []⟩ : Reduction).flatten 0 true
      ([1, 2, 3].map (⟨tuples text, []⟩ : Reduction).resolve) = [1, 2, 3] := by cbv

end Tuples

theorem delimited_tuples (live : NodeId → Prop) : (tuples "c").Delimited live where
  kind id node _ get := by
    have hlt : id < 7 := (tuples "c").lt_size_of_get? get
    interval_cases id <;> obtain rfl := Option.some.inj get <;> simp [Kind.Delimited]
  name id node name _ get hname := by
    rw [(eq_zero_of_name_tuples get hname).2]
    decide

/-- The last tuple is dropped, and the one before it has the same structure. -/
theorem merges_of_reduces_tuples :
    (tuples "c").Inside ∧ (tuples "c").DistinctNames (tuples "c").Reaches ∧
      (tuples "c").CyclesNamed ∧ (tuples "c").Delimited (tuples "c").Reaches ∧
      Reduces false (tuples "c") ⟨tuples "c", []⟩ 0 true [1, 2, 3] ∧
      Merges ((tuples "c").Same (Reduction.resolve ⟨tuples "c", []⟩) true) [] [1, 2, 3] [1, 2] := by
  have hmembers : (⟨tuples "c", []⟩ : Reduction).members 0 true [1, 2, 3] = [1, 2] := by cbv
  have hmerges := merges_of_reduces inside_tuples (distinctNames_tuples _) cyclesNamed_tuples
    (delimited_tuples _) reduces_tuples
  rw [flatten_tuples, hmembers] at hmerges
  exact ⟨inside_tuples, distinctNames_tuples _, cyclesNamed_tuples, delimited_tuples _,
    reduces_tuples, hmerges⟩

/-- A member may be dropped that has the structure of no other one: a tuple of the text
`a,custom:b` has the fingerprint of a tuple of two texts. -/
theorem exists_distinct_merged : ¬ ∀ (keep : Bool) (g : TypeGraph) (w : Reduction) (id : NodeId)
    (isUnion : Bool) (children : List NodeId), g.Inside → g.DistinctNames g.Reaches →
    g.CyclesNamed → Reduces keep g w id isUnion children →
    Merges (w.graph.Same w.resolve true) [] (w.flatten id isUnion (children.map w.resolve))
      (w.members id isUnion children) := by
  intro h
  have hmembers : (⟨tuples "a,custom:b", []⟩ : Reduction).members 0 true [1, 2, 3] = [1] := by cbv
  have hmerges := h false (tuples "a,custom:b") _ 0 true _ inside_tuples (distinctNames_tuples _)
    cyclesNamed_tuples reduces_tuples
  rw [flatten_tuples, hmembers] at hmerges
  rcases hmerges.exists_like (a := 2) (by decide) with hkept | ⟨b, hb, hsame⟩
  · simp at hkept
  · obtain rfl := List.mem_singleton.1 hb
    cases hsame with
    | unbuilt get => cases get
    | built get get' _ shape =>
        obtain rfl := Option.some.inj get
        obtain rfl := Option.some.inj get'
        cases shape

end TypeGraph

end Typewright
