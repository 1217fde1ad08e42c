import Typewright.Proofs.TypeGraph.Marks
import Typewright.Proofs.TypeGraph.Settled

/-!
# A simplified graph in its own numbers

The result of a simplification is the graph under work with its nodes renumbered. What the sweeps do
depends on the numbers only through the mentions in fingerprints, so where no text looks like a
mention, each step does the same before and after the renumbering.
-/

namespace Typewright

/-- No text in the fingerprint of a node looks like the mention of a node. -/
def Node.Unmarked (node : Node) : Prop :=
  ∀ t ∈ node.kind.texts ++ node.name.toList, unmarked t.toList = true

instance (node : Node) : Decidable node.Unmarked :=
  inferInstanceAs (Decidable (∀ t ∈ node.kind.texts ++ node.name.toList, unmarked t.toList = true))

namespace Reduction

@[simp] theorem resolve_nil (g : TypeGraph) : (⟨g, []⟩ : Reduction).resolve = id := rfl

/-- A graph under work whose nodes can be renumbered. -/
structure Clear (w : Reduction) : Prop where
  free : ∀ id, w.Free (w.resolve id)
  bounded : ∀ id ∈ w.order, id < w.graph.size
  unmarked : ∀ id node, id ∈ w.order → w.graph.get? id = some node → node.Unmarked

variable {w : Reduction}

/-! ## Numbers -/

theorem Clear.resolve_resolve (h : w.Clear) (id : NodeId) :
    w.resolve (w.resolve id) = w.resolve id := (h.free id).resolve_eq

theorem Clear.number_resolve (h : w.Clear) (id : NodeId) :
    w.number (w.resolve id) = w.number id := by
  rw [number, h.resolve_resolve, number]

theorem Clear.resolve_of_mem (h : w.Clear) {id : NodeId} (hid : id ∈ w.order) :
    w.resolve id = id := by
  have hall : ∀ id ∈ w.order, w.resolve id = id :=
    w.order_induction (h.resolve_resolve _) fun _ _ _ _ c _ => h.resolve_resolve c
  exact hall id hid

theorem number_inj {a b : NodeId} (ha : w.resolve a ∈ w.order) :
    w.number a = w.number b ↔ w.resolve a = w.resolve b := by
  rw [number, number]
  exact ⟨fun heq => (List.idxOf_inj ha).1 heq, fun heq => by rw [heq]⟩

/-! ## Fingerprints -/

/-- The old number of a node of the result. -/
def Stands (w : Reduction) (m n : NodeId) : Prop := w.order[m]? = some n

theorem stands_number {id : NodeId} (h : w.resolve id ∈ w.order) :
    w.Stands (w.number id) (w.resolve id) := w.getElem?_order_number h

theorem Stands.unique {m n n' : NodeId} (h : w.Stands m n) (h' : w.Stands m n') : n = n' :=
  Option.some.inj (h.symm.trans h')

theorem Stands.unique_left {m m' n : NodeId} (h : w.Stands m n) (h' : w.Stands m' n) : m = m' := by
  obtain ⟨hlt, -⟩ := List.getElem?_eq_some_iff.1 h
  exact (List.getElem?_inj hlt w.nodup_order).1 (h.trans h'.symm)

/-- Mentions of a node under both numbers. -/
theorem written_mention {c : Char} (hc : isMark c = true) {m n : NodeId} (h : w.Stands m n) :
    Written w.Stands (c :: '#' :: (toString m).toList) (c :: '#' :: (toString n).toList) :=
  fun _ _ hr => .mark hc h hr

/-- The fingerprint of a built node that is not only named. -/
theorem fingerprintFrom_of_get? {g : TypeGraph} (resolve : NodeId → NodeId) {fresh : List NodeId}
    {top : Bool} {id : NodeId} {node : Node} (hn : g.get? (resolve id) = some node)
    (hname : top = true ∨ node.name = none) :
    g.fingerprintFrom resolve fresh top id =
      if resolve id ∈ fresh then
        node.kind.fingerprint
          (node.kind.children.map (g.fingerprintFrom resolve (fresh.erase (resolve id)) false))
      else "^#" ++ toString (resolve id) := by
  rw [TypeGraph.fingerprintFrom, hn]
  dsimp only
  split
  · rename_i name hname'
    rcases hname with htop | hnone
    · cases htop
    · rw [hnone] at hname'
      cases hname'
  · rfl

theorem fingerprintFrom_of_name {g : TypeGraph} (resolve : NodeId → NodeId) {fresh : List NodeId}
    {id : NodeId} {node : Node} {name : String} (hn : g.get? (resolve id) = some node)
    (hname : node.name = some name) : g.fingerprintFrom resolve fresh false id = "@" ++ name := by
  rw [TypeGraph.fingerprintFrom, hn]
  dsimp only
  rw [hname]

theorem fingerprintFrom_of_unbuilt {g : TypeGraph} (resolve : NodeId → NodeId)
    {fresh : List NodeId} {top : Bool} {id : NodeId} (hn : g.get? (resolve id) = none) :
    g.fingerprintFrom resolve fresh top id = "?#" ++ toString (resolve id) := by
  rw [TypeGraph.fingerprintFrom, hn]

/-- The fingerprints of a node in the result and in the graph under work. -/
theorem Clear.written_fingerprintFrom (h : w.Clear) {fresh fresh' : List NodeId}
    (hf : fresh.Nodup) (hf' : fresh'.Nodup)
    (hfresh : ∀ id ∈ w.order, (w.number id ∈ fresh' ↔ id ∈ fresh)) (top : Bool) {id : NodeId}
    (hid : w.resolve id ∈ w.order) :
    Written w.Stands (w.compact.fingerprintFrom (fun i => i) fresh' top (w.number id)).toList
      (w.graph.fingerprintFrom w.resolve fresh top id).toList := by
  induction hn : fresh.length using Nat.strongRecOn generalizing fresh fresh' top id with
  | _ n ih =>
      have hcompact := w.get?_compact_number hid
      cases hget : w.graph.get? (w.resolve id) with
      | none =>
          rw [hget] at hcompact
          rw [fingerprintFrom_of_unbuilt w.resolve hget,
            fingerprintFrom_of_unbuilt (fun i => i) hcompact, String.toList_append,
            String.toList_append]
          exact written_mention (by decide) (stands_number hid)
      | some node =>
          have hu := h.unmarked _ node hid hget
          rw [hget] at hcompact
          by_cases hname : top = true ∨ node.name = none
          · rw [fingerprintFrom_of_get? w.resolve hget hname,
              fingerprintFrom_of_get? (fun i => i) hcompact hname]
            have hmem : w.number id ∈ fresh' ↔ w.resolve id ∈ fresh := by
              rw [← h.number_resolve, hfresh _ hid]
            by_cases hid' : w.resolve id ∈ fresh
            · rw [if_pos hid', if_pos (hmem.2 hid')]
              refine Kind.written_fingerprint (fun t ht => hu t (List.mem_append_left _ ht))
                fun c hc => ?_
              have hlt := Walk.length_erase_lt_of_mem hid'
              refine ih _ (hn ▸ hlt) (hf.erase _) (hf'.erase _) (fun i hi => ?_) false
                (w.child_mem_order hid hget hc) rfl
              rw [hf'.mem_erase_iff, hf.mem_erase_iff, hfresh i hi]
              have hne : w.number i = w.number id ↔ i = w.resolve id := by
                rw [number_inj ((h.resolve_of_mem hi).symm ▸ hi), h.resolve_of_mem hi]
              rw [ne_eq, hne]
            · rw [if_neg hid', if_neg (mt hmem.1 hid'), String.toList_append, String.toList_append]
              exact written_mention (by decide) (stands_number hid)
          · obtain ⟨htop, hsome⟩ := not_or.1 hname
            obtain rfl := Bool.eq_false_of_not_eq_true htop
            obtain ⟨name, hname⟩ := Option.ne_none_iff_exists'.1 hsome
            rw [fingerprintFrom_of_name w.resolve hget hname,
              fingerprintFrom_of_name (fun i => i) hcompact hname, String.toList_append]
            exact .append (by decide) (.text (hu name (List.mem_append_right _ (by simp [hname]))))

/-- Nodes have the same fingerprint in the result just when they have in the graph under work. -/
theorem Clear.fingerprint_inj (h : w.Clear) {a b : NodeId} (ha : w.resolve a ∈ w.order)
    (hb : w.resolve b ∈ w.order) :
    w.compact.fingerprint (fun i => i) (w.number a) = w.compact.fingerprint (fun i => i) (w.number b) ↔
      w.graph.fingerprint w.resolve a = w.graph.fingerprint w.resolve b := by
  have hwritten : ∀ {id}, w.resolve id ∈ w.order →
      Written w.Stands (w.compact.fingerprint (fun i => i) (w.number id)).toList
        (w.graph.fingerprint w.resolve id).toList := by
    intro id hid
    refine h.written_fingerprintFrom List.nodup_range List.nodup_range (fun i hi => ?_) true hid
    rw [List.mem_range, List.mem_range]
    exact iff_of_true (w.number_lt ((h.resolve_of_mem hi).symm ▸ hi)) (h.bounded i hi)
  rw [← String.toList_inj, ← String.toList_inj]
  constructor
  · intro heq
    exact (hwritten ha).unique (fun _ _ _ hm hm' => hm.unique hm') (heq ▸ hwritten hb)
  · intro heq
    exact (hwritten ha).symm.unique (fun _ _ _ hm hm' => hm.unique_left hm')
      (heq ▸ (hwritten hb).symm)

/-! ## Members -/

/-- The result of a simplification as a graph under work. -/
def result (w : Reduction) : Reduction := ⟨w.compact, []⟩

theorem get?_result {id : NodeId} (h : w.resolve id ∈ w.order) :
    w.result.graph.get? (w.number id) = (w.graph.get? (w.resolve id)).map w.renumber :=
  w.get?_compact_number h

theorem mem_order_of_mem_flatten {id : NodeId} {isUnion : Bool} {cs : List NodeId}
    (hcs : ∀ c ∈ cs, w.resolve c ∈ w.order) :
    ∀ m ∈ w.flatten id isUnion (cs.map w.resolve), m ∈ w.order := fun _ hm =>
  w.of_mem_flatten hcs (fun _ _ hc hn _ _ hd => w.child_mem_order hc hn hd) hm

theorem dissolves_renumber (isUnion : Bool) (node : Node) :
    dissolves isUnion (w.renumber node) = dissolves isUnion node := by
  obtain ⟨kind, name, comment, key⟩ := node
  cases kind <;> rfl

theorem Clear.flatten_result (h : w.Clear) {id : NodeId} (hid : id ∈ w.order) (isUnion : Bool)
    {cs : List NodeId} (hcs : ∀ c ∈ cs, w.resolve c ∈ w.order) :
    w.result.flatten (w.number id) isUnion (cs.map w.number) =
      (w.flatten id isUnion (cs.map w.resolve)).map w.number := by
  unfold flatten
  rw [List.flatMap_map, List.flatMap_map, List.map_flatMap]
  refine List.flatMap_congr fun c hc => ?_
  rw [get?_result (hcs c hc)]
  cases hget : w.graph.get? (w.resolve c) with
  | none => exact congrArg (fun i => [i]) (h.number_resolve c).symm
  | some node =>
      have hne : (w.number c != w.number id) = (w.resolve c != id) := by
        have hiff : w.number c = w.number id ↔ w.resolve c = id := by
          rw [number_inj (hcs c hc), h.resolve_of_mem hid]
        rw [bne, bne, Bool.beq_eq_decide_eq, Bool.beq_eq_decide_eq, decide_eq_decide.2 hiff]
      dsimp only [Option.map_some]
      rw [hne, dissolves_renumber]
      split
      · rw [renumber, Kind.children_mapChildren, List.map_map, List.map_map]
        exact List.map_congr_left fun d _ => (h.number_resolve d).symm
      · exact congrArg (fun i => [i]) (h.number_resolve c).symm

/-- Duplicates are the same in the result. -/
theorem Clear.dropDuplicates_result (h : w.Clear) {seen seen' : List String} {ids : List NodeId}
    (hids : ∀ i ∈ ids, i ∈ w.order)
    (hseen : ∀ i ∈ w.order, w.result.graph.fingerprint w.result.resolve (w.number i) ∈ seen' ↔
      w.graph.fingerprint w.resolve i ∈ seen) :
    w.result.dropDuplicates seen' (ids.map w.number) = (w.dropDuplicates seen ids).map w.number := by
  induction ids generalizing seen seen' with
  | nil => rfl
  | cons i rest ih =>
      have hi := hids i List.mem_cons_self
      have hrest : ∀ i ∈ rest, i ∈ w.order := fun i hi => hids i (List.mem_cons_of_mem _ hi)
      rw [List.map_cons, dropDuplicates, dropDuplicates]
      by_cases hmem : w.graph.fingerprint w.resolve i ∈ seen
      · rw [if_pos hmem, if_pos ((hseen i hi).2 hmem)]
        exact ih hrest hseen
      · rw [if_neg hmem, if_neg (mt (hseen i hi).1 hmem), List.map_cons]
        refine congrArg _ (ih hrest fun j hj => ?_)
        have hsame := h.fingerprint_inj ((h.resolve_of_mem hj).symm ▸ hj)
          ((h.resolve_of_mem hi).symm ▸ hi)
        rw [List.mem_cons, List.mem_cons, hseen j hj]
        exact or_congr_left hsame

/-- The members of a combination are the same in the result. -/
theorem Clear.members_result (h : w.Clear) {id : NodeId} (hid : id ∈ w.order) (isUnion : Bool)
    {cs : List NodeId} (hcs : ∀ c ∈ cs, w.resolve c ∈ w.order) :
    w.result.members (w.number id) isUnion (cs.map w.number) =
      (w.members id isUnion cs).map w.number := by
  have hresolve : (cs.map w.number).map w.result.resolve = cs.map w.number := List.map_id _
  rw [members, hresolve, h.flatten_result hid isUnion hcs]
  exact h.dropDuplicates_result (mem_order_of_mem_flatten hcs) fun i _ => by simp

theorem isAny_result {id : NodeId} (hid : w.resolve id ∈ w.order) :
    w.result.isAny (w.number id) = w.isAny (w.resolve id) := by
  unfold isAny
  rw [get?_result hid]
  cases w.graph.get? (w.resolve id) with
  | none => rfl
  | some node =>
      obtain ⟨kind, name, comment, key⟩ := node
      cases kind <;> rfl

end Reduction

end Typewright
