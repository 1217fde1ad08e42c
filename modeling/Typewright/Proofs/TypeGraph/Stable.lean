import Typewright.Proofs.TypeGraph.Renumber

/-!
# Steps that change nothing

What a step does in the result of a simplification is what it does in the graph under work,
renumbered. So a step that changes nothing changes nothing in the result
(`Clear.reduce_result`). In a graph where no step changes anything the members of every combination
stand for themselves, also where a combination was made a copy of its single member.
-/

namespace Typewright

namespace Kind

theorem texts_combination (isUnion : Bool) (cs : List NodeId) :
    (combination isUnion cs).texts = [] := by
  cases isUnion <;> rfl

theorem mapChildren_eq_self {kind : Kind} {f : NodeId → NodeId} (h : ∀ c ∈ kind.children, f c = c) :
    kind.mapChildren f = kind := by
  rw [mapChildren_congr (h := id) h]
  cases kind <;> simp [mapChildren]

end Kind

namespace Reduction

variable {keep : Bool} {w : Reduction}

/-! ## Combinations -/

theorem get?_of_fill_eq_self {id : NodeId} {n : Node} (hid : id < w.graph.size)
    (h : w.fill id n = w) : w.graph.get? id = some n := by
  have hget : (w.fill id n).graph.get? id = some n := w.graph.get?_fill_self hid
  rwa [h] at hget

/-- No redirect is made that is already there. -/
theorem redirect_ne_self {id target : NodeId} (hfree : w.Free id) : w.redirect id target ≠ w := by
  intro h
  have hmem : (id, target) ∈ (w.redirect id target).redirects := List.mem_cons_self
  rw [h] at hmem
  exact hfree target hmem

theorem Clear.mem_order (h : w.Clear) {id : NodeId} (hid : id ∈ w.order) :
    w.resolve id ∈ w.order := (h.resolve_of_mem hid).symm ▸ hid

theorem Clear.free_of_mem (h : w.Clear) {id : NodeId} (hid : id ∈ w.order) : w.Free id :=
  h.resolve_of_mem hid ▸ h.free id

/-- What a slot is filled with already, it is filled with in the result. -/
theorem Clear.fill_result (h : w.Clear) {id : NodeId} {n : Node} (hid : id ∈ w.order)
    (hfill : w.fill id n = w) : w.result.fill (w.number id) (w.renumber n) = w.result := by
  refine fill_eq_self ?_
  rw [get?_result (h.mem_order hid), h.resolve_of_mem hid,
    get?_of_fill_eq_self (h.bounded id hid) hfill]
  rfl

theorem renumber_setMembers (w : Reduction) (isUnion : Bool) (node : Node) (ms : List NodeId) :
    setMembers isUnion (w.renumber node) (ms.map w.number) =
      w.renumber (setMembers isUnion node ms) := by
  cases isUnion <;> rfl

/-- Reducing a combination with a single member writes the same node in the result, or redirects. -/
theorem Clear.collapse_result (h : w.Clear) {id only : NodeId} (hid : id ∈ w.order)
    (honly : only ∈ w.order) (isUnion : Bool) (node : Node) :
    (∃ n, w.collapse id isUnion node only = w.fill id n ∧
      w.result.collapse (w.number id) isUnion (w.renumber node) (w.number only) =
        w.result.fill (w.number id) (w.renumber n)) ∨
      ∃ target, w.collapse id isUnion node only = w.redirect id target := by
  have hkeep : w.result.fill (w.number id) (setMembers isUnion (w.renumber node) [w.number only]) =
      w.result.fill (w.number id) (w.renumber (setMembers isUnion node [only])) :=
    congrArg _ (w.renumber_setMembers isUnion node [only])
  have hsame : w.number only = w.number id ↔ only = id := by
    rw [number_inj (h.mem_order honly), h.resolve_of_mem honly, h.resolve_of_mem hid]
  have hget := get?_result (h.mem_order honly)
  rw [h.resolve_of_mem honly] at hget
  unfold collapse
  dsimp only
  rw [hget]
  by_cases heq : only = id
  · rw [if_pos heq, if_pos (hsame.2 heq)]
    exact .inl ⟨_, rfl, hkeep⟩
  · rw [if_neg heq, if_neg (mt hsame.1 heq)]
    cases w.graph.get? only with
    | none => exact .inl ⟨_, rfl, hkeep⟩
    | some child =>
        dsimp only [Option.map_some]
        by_cases hname : child.name.isNone = true
        · rw [if_pos hname, if_pos (show (w.renumber child).name.isNone = true from hname)]
          exact .inl ⟨_, rfl, rfl⟩
        · rw [if_neg hname, if_neg (show ¬(w.renumber child).name.isNone = true from hname)]
          by_cases hbare : (node.name.isNone && node.comment.isNone) = true
          · rw [if_pos hbare]
            exact .inr ⟨_, rfl⟩
          · rw [if_neg hbare]
            exact .inl ⟨_, rfl, (if_neg hbare).trans hkeep⟩

/-- Reducing a combination writes the same node in the result, or redirects. -/
theorem Clear.reduceCombination_result (h : w.Clear) {id : NodeId} (hid : id ∈ w.order)
    (isUnion : Bool) (node : Node) {cs : List NodeId} (hcs : ∀ c ∈ cs, w.resolve c ∈ w.order) :
    (∃ n, w.reduceCombination id isUnion node cs = w.fill id n ∧
      w.result.reduceCombination (w.number id) isUnion (w.renumber node) (cs.map w.number) =
        w.result.fill (w.number id) (w.renumber n)) ∨
      ∃ target, w.reduceCombination id isUnion node cs = w.redirect id target := by
  have hmembers : w.dropDuplicates [] (w.flatten id isUnion (cs.map w.resolve)) =
      w.members id isUnion cs := rfl
  have hresult : w.result.dropDuplicates []
      (w.result.flatten (w.number id) isUnion ((cs.map w.number).map w.result.resolve)) =
      (w.members id isUnion cs).map w.number := h.members_result hid isUnion hcs
  have hmem : ∀ m ∈ w.members id isUnion cs, m ∈ w.order := fun m hm =>
    mem_order_of_mem_flatten hcs m (w.mem_dropDuplicates hm)
  have hany : ((w.members id isUnion cs).map w.number).any w.result.isAny =
      (w.members id isUnion cs).any w.isAny := by
    rw [List.any_map, Bool.eq_iff_iff, List.any_eq_true, List.any_eq_true]
    refine exists_congr fun m => and_congr_right fun hm => ?_
    rw [Function.comp_apply, isAny_result (h.mem_order (hmem m hm)), h.resolve_of_mem (hmem m hm)]
  unfold reduceCombination
  rw [hmembers, hresult]
  dsimp only
  rw [hany]
  split
  · exact .inl ⟨_, rfl, rfl⟩
  · generalize w.members id isUnion cs = ms at hmem
    have hset := congrArg (w.result.fill (w.number id)) (w.renumber_setMembers isUnion node ms)
    rcases ms with - | ⟨only, - | ⟨m, rest⟩⟩
    · exact .inl ⟨_, rfl, hset⟩
    · exact h.collapse_result hid (hmem only List.mem_cons_self) isUnion node
    · exact .inl ⟨_, rfl, hset⟩

/-! ## Settled combinations -/

/-- A search finds the same where the values that differ are those looked for. -/
theorem findSome?_eq_of_eq {α : Type} [DecidableEq α] {p q : α → Option α} {x y : α} (hne : x ≠ y)
    (hp : p y = some y) (hq : q x = some x) (hpq : ∀ c, c ≠ x → c ≠ y → q c = p c) {cs : List α}
    (h : cs.findSome? p = some x) : cs.findSome? q = some x := by
  induction cs with
  | nil => simp at h
  | cons c rest ih =>
      rw [List.findSome?_cons] at h ⊢
      by_cases hx : c = x
      · rw [hx, hq]
      · have hy : c ≠ y := by
          rintro rfl
          rw [hp] at h
          exact hne (Option.some.inj h).symm
        rw [hpq c hx hy]
        cases hc : p c with
        | none =>
            rw [hc] at h
            exact ih h
        | some b =>
            rw [hc] at h
            exact h

theorem head?_members (w : Reduction) (id : NodeId) (isUnion : Bool) (cs : List NodeId) :
    (w.members id isUnion cs).head? =
      (cs.map w.resolve).findSome? fun c => (w.flatten id isUnion [c]).head? := by
  have hflatten : w.flatten id isUnion (cs.map w.resolve) =
      (cs.map w.resolve).flatMap fun c => w.flatten id isUnion [c] := by
    simp [flatten]
  have hhead : ∀ ids, (w.dropDuplicates [] ids).head? = ids.head? := by
    intro ids
    cases ids with
    | nil => rfl
    | cons a rest => rw [dropDuplicates, if_neg List.not_mem_nil]; rfl
  rw [members, hhead, hflatten, List.head?_flatMap]

theorem flatten_self (w : Reduction) (id : NodeId) (isUnion : Bool) :
    w.flatten id isUnion [id] = [id] := by
  rw [flatten, List.flatMap_singleton]
  split
  · rfl
  · simp

theorem flatten_of_ne {id id' c : NodeId} (hc : c ≠ id) (hc' : c ≠ id') (isUnion : Bool) :
    w.flatten id isUnion [c] = w.flatten id' isUnion [c] := by
  simp [flatten, hc, hc']

/-- The first member of a combination is the first member of itself with the same members. -/
theorem head?_members_of_head? {x y : NodeId} (hne : x ≠ y) {isUnion : Bool} {cs : List NodeId}
    (h : (w.members y isUnion cs).head? = some x) : (w.members x isUnion cs).head? = some x := by
  rw [head?_members] at h ⊢
  refine findSome?_eq_of_eq hne ?_ ?_ (fun c hx hy => ?_) h
  · rw [flatten_self, List.head?_cons]
  · rw [flatten_self, List.head?_cons]
  · rw [flatten_of_ne hx hy]

/-- A combination whose step changes nothing writes the node that is there. -/
theorem Clear.fill_of_settled (h : w.Clear) {id : NodeId} (hid : id ∈ w.order) {node : Node}
    {isUnion : Bool} {cs : List NodeId} (hcs : ∀ c ∈ cs, w.resolve c ∈ w.order)
    (hself : w.reduceCombination id isUnion node cs = w) :
    w.result.reduceCombination (w.number id) isUnion (w.renumber node) (cs.map w.number) =
      w.result := by
  rcases h.reduceCombination_result hid isUnion node hcs with ⟨n, hn, hresult⟩ | ⟨target, ht⟩
  · rw [hresult]
    exact h.fill_result hid (hn.symm.trans hself)
  · exact absurd (ht.symm.trans hself) (redirect_ne_self (h.free_of_mem hid))

/-- A combination whose step changes nothing holds what is left of its members, or is that of the
single member that it copies. -/
theorem Clear.members_or_copy (h : w.Clear) {id : NodeId} (hid : id ∈ w.order) {node : Node}
    {isUnion : Bool} {cs : List NodeId} (hget : w.graph.get? id = some node)
    (kind : node.kind = .combination isUnion cs)
    (hself : w.reduceCombination id isUnion node cs = w) :
    w.members id isUnion cs = cs ∨ ∃ only child, w.members id isUnion cs = [only] ∧ only ≠ id ∧
      w.graph.get? only = some child ∧ child.kind = .combination isUnion cs := by
  have hnode : ∀ {n}, w.fill id n = w → n = node := fun hfill =>
    Option.some.inj ((get?_of_fill_eq_self (h.bounded id hid) hfill).symm.trans hget)
  have hcombined := w.combined_reduceCombination id isUnion node cs
  generalize w.reduceCombination id isUnion node cs = v at hcombined hself
  cases hcombined with
  | absorb =>
      have hkind := congrArg Node.kind (hnode hself)
      rw [kind] at hkind
      cases isUnion <;> cases hkind
  | combine =>
      have hchildren := congrArg (·.kind.children) (hnode hself)
      exact .inl (by simpa [kind] using hchildren)
  | @copy only child single _ ne member =>
      have hkind := congrArg Node.kind (hnode hself)
      exact .inr ⟨only, child, single, ne, member, hkind.trans kind⟩
  | redirect => exact absurd hself (redirect_ne_self (h.free_of_mem hid))

/-- The members of a combination whose step changes nothing stand for themselves. -/
theorem Clear.mem_order_of_settled (h : w.Clear) (hself : ∀ i ∈ w.order, w.reduce keep i = w)
    {id : NodeId} (hid : id ∈ w.order) {node : Node} {isUnion : Bool} {cs : List NodeId}
    (hget : w.graph.get? id = some node) (kind : node.kind = .combination isUnion cs) :
    ∀ c ∈ cs, c ∈ w.order := by
  have hmem : ∀ {i}, ∀ m ∈ w.members i isUnion cs, m ∈ w.order := by
    intro i m hm
    refine mem_order_of_mem_flatten (fun c hc => ?_) m (w.mem_dropDuplicates hm)
    exact w.child_mem_order hid hget (by rwa [kind, Kind.children_combination])
  have hcases : ∀ {i n}, i ∈ w.order → w.graph.get? i = some n → n.kind = .combination isUnion cs →
      _ := fun hi hn hkind =>
    h.members_or_copy hi hn hkind (reduce_combination hn hkind ▸ hself _ hi)
  rcases hcases hid hget kind with heq | ⟨only, child, hsingle, hne, hchild, hkind⟩
  · exact heq ▸ hmem
  · -- the member that was copied is not itself the copy of another one
    have honly : only ∈ w.order := hmem only (hsingle ▸ List.mem_cons_self)
    rcases hcases honly hchild hkind with heq | ⟨other, _, hother, hne', -, -⟩
    · exact heq ▸ hmem
    · have hhead : (w.members only isUnion cs).head? = some only :=
        head?_members_of_head? hne (by rw [hsingle, List.head?_cons])
      rw [hother, List.head?_cons] at hhead
      exact absurd (Option.some.inj hhead) hne'

/-! ## Interfaces -/

theorem isUndefined_result {id : NodeId} (hid : w.resolve id ∈ w.order) :
    w.result.isUndefined (w.number id) = w.isUndefined (w.resolve id) := by
  unfold isUndefined
  rw [get?_result hid]
  cases w.graph.get? (w.resolve id) with
  | none => rfl
  | some node =>
      obtain ⟨kind, name, comment, key⟩ := node
      cases kind <;> rfl

/-- A member of an interface with its node renumbered. -/
def renumberMember (w : Reduction) (m : InterfaceMember) : InterfaceMember :=
  { m with node := w.number m.node }

/-- A member that is left as it is has no branch `undefined`. -/
theorem length_defined_of_relaxMember {m : InterfaceMember} {node : Node} {cs : List NodeId}
    (hget : w.graph.get? m.node = some node) (kind : node.kind = .union cs)
    (unnamed : node.name = none) (heq : w.relaxMember m = (w, m)) :
    (cs.filter (!w.isUndefined ·)).length = cs.length := by
  by_contra hne
  unfold relaxMember at heq
  rw [hget] at heq
  dsimp only at heq
  rw [kind, unnamed] at heq
  dsimp only at heq
  rw [if_neg hne] at heq
  have hsize := congrArg (·.1.graph.size) heq
  dsimp only at hsize
  rw [size_reduceCombination, TypeGraph.size_add] at hsize
  exact absurd hsize (Nat.succ_ne_self _)

/-- A member that is left as it is, is left so in the result. -/
theorem Clear.relaxMember_result (h : w.Clear) (hself : ∀ i ∈ w.order, w.reduce keep i = w)
    {m : InterfaceMember} (hm : m.node ∈ w.order) (heq : w.relaxMember m = (w, m)) :
    w.result.relaxMember (w.renumberMember m) = (w.result, w.renumberMember m) := by
  have hget : w.result.graph.get? (w.renumberMember m).node =
      (w.graph.get? m.node).map w.renumber := by
    have hget := get?_result (h.mem_order hm)
    rwa [h.resolve_of_mem hm] at hget
  unfold relaxMember
  rw [hget]
  cases hnode : w.graph.get? m.node with
  | none => rfl
  | some node =>
      dsimp only [Option.map_some]
      split
      · rename_i branches hkind hname
        obtain ⟨cs, hcs, rfl⟩ := @Kind.of_mapChildren_combination _ _ true _ hkind
        have hcombination : node.kind = .combination true cs := hcs
        have hmem := h.mem_order_of_settled hself hm hnode hcombination
        have hlength : ((cs.map w.number).filter (!w.result.isUndefined ·)).length =
            (cs.filter (!w.isUndefined ·)).length := by
          rw [List.filter_map, List.length_map]
          refine congrArg _ (List.filter_congr fun c hc => ?_)
          rw [Function.comp_apply, isUndefined_result (h.mem_order (hmem c hc)),
            h.resolve_of_mem (hmem c hc)]
        have hkept := length_defined_of_relaxMember hnode hcs hname heq
        rw [if_pos (by rw [hlength, hkept, List.length_map])]
      · rfl

theorem kept_sublist (keep : Bool) (members : List InterfaceMember) :
    (kept keep members).Sublist members := by
  unfold kept
  split
  · exact List.Sublist.refl _
  · exact List.filter_sublist

/-- An interface whose step changes nothing keeps its members, with nodes that stand for themselves,
and relaxes none of them. -/
theorem members_of_settled {id : NodeId} {node : Node} {members : List InterfaceMember}
    {supers : List NodeId} (hget : w.graph.get? id = some node)
    (kind : node.kind = .interface members supers) (hself : w.reduce keep id = w) :
    kept keep members = members ∧ (∀ m ∈ members, w.resolve m.node = m.node) ∧
      ∀ m ∈ members, w.relaxMember m = (w, m) := by
  have hid := w.graph.lt_size_of_get? hget
  set members' := members.map fun m => { m with node := w.resolve m.node } with hmembers'
  have hkind : (w.resolved node).kind = .interface members' (supers.map w.resolve) :=
    congrArg (Kind.mapChildren w.resolve) kind
  rw [reduce_interface hget hkind] at hself
  rcases (w.fill id (w.resolved node)).relaxMembers_cases (kept keep members') with
    ⟨heq, hall⟩ | hlt
  · rw [heq, fill_fill] at hself
    dsimp only at hself
    have hnode := Option.some.inj ((get?_of_fill_eq_self hid hself).symm.trans hget)
    obtain ⟨hmembers, hsupers⟩ := Kind.interface.inj ((congrArg Node.kind hnode).trans kind)
    have hlength : (kept keep members').length = members'.length := by
      rw [hmembers, hmembers', List.length_map]
    have hkept : kept keep members' = members' := (kept_sublist keep members').eq_of_length hlength
    rw [hkept] at hmembers hall
    have hsame : w.fill id (w.resolved node) = w := by
      refine fill_eq_self (hget.trans (congrArg some ?_))
      rw [resolved, kind, Kind.mapChildren, hsupers, ← hmembers', hmembers, ← kind]
    rw [hsame, hmembers] at hall
    rw [hmembers] at hkept
    refine ⟨hkept, fun m hm => ?_, hall⟩
    have hmap : members' = members.map fun m => m := by rw [hmembers, List.map_id']
    exact congrArg (·.node) (List.map_inj_left.1 hmap m hm)
  · have hsize := congrArg (·.graph.size) hself
    simp only [fill, TypeGraph.size_fill] at hsize hlt
    exact absurd hlt (hsize ▸ Nat.lt_irrefl _)

theorem Clear.relaxMembers_result (h : w.Clear) (hself : ∀ i ∈ w.order, w.reduce keep i = w)
    {members : List InterfaceMember} (hmem : ∀ m ∈ members, m.node ∈ w.order)
    (heq : ∀ m ∈ members, w.relaxMember m = (w, m)) :
    w.result.relaxMembers (members.map w.renumberMember) =
      (w.result, members.map w.renumberMember) := by
  induction members with
  | nil => rfl
  | cons m rest ih =>
      obtain ⟨hm, hrest⟩ := List.forall_mem_cons.1 hmem
      obtain ⟨heqm, heqrest⟩ := List.forall_mem_cons.1 heq
      rw [List.map_cons, relaxMembers, h.relaxMember_result hself hm heqm]
      dsimp only
      rw [ih hrest heqrest]

theorem kept_renumberMember (w : Reduction) (keep : Bool) (members : List InterfaceMember) :
    kept keep (members.map w.renumberMember) = (kept keep members).map w.renumberMember := by
  unfold kept
  split
  · rfl
  · rw [List.filter_map]
    rfl

/-! ## Steps and sweeps -/

/-- A step that changes nothing, changes nothing in the result. -/
theorem Clear.reduce_result (h : w.Clear) (hself : ∀ i ∈ w.order, w.reduce keep i = w)
    {id : NodeId} (hid : id ∈ w.order) : w.result.reduce keep (w.number id) = w.result := by
  have hget := get?_result (h.mem_order hid)
  rw [h.resolve_of_mem hid] at hget
  cases hnode : w.graph.get? id with
  | none =>
      rw [hnode] at hget
      unfold reduce
      rw [hget]
      rfl
  | some node =>
      rw [hnode] at hget
      have hfill : ∀ {n}, n = w.renumber node → w.result.fill (w.number id) n = w.result :=
        fun hn => fill_eq_self (hget.trans (congrArg some hn.symm))
      have hresolve : ∀ n : Node, w.result.resolved n = n := fun n =>
        congrArg (fun kind => { n with kind := kind }) (Kind.mapChildren_eq_self fun _ _ => rfl)
      rcases w.result.reduce_of_get? keep hget with ⟨isUnion, cs', hkind⟩ | ⟨ms, ss, hkind⟩ | heq
      · obtain ⟨cs, kind, rfl⟩ := Kind.of_mapChildren_combination hkind
        rw [reduce_combination hget hkind]
        refine h.fill_of_settled hid (fun c hc => ?_) (reduce_combination hnode kind ▸ hself id hid)
        exact w.child_mem_order hid hnode (by rwa [kind, Kind.children_combination])
      · obtain ⟨members, supers, kind, rfl, rfl⟩ := Kind.of_mapChildren_interface hkind
        obtain ⟨hkept, hresolved, hrelaxed⟩ := members_of_settled hnode kind (hself id hid)
        have hmem : ∀ m ∈ members, m.node ∈ w.order := by
          intro m hm
          rw [← hresolved m hm]
          refine w.child_mem_order hid hnode ?_
          rw [kind]
          exact List.mem_append_left _ (List.mem_map_of_mem hm)
        have hkept' : kept keep (members.map w.renumberMember) = members.map w.renumberMember :=
          (w.kept_renumberMember keep members).trans (congrArg _ hkept)
        have hkind' : (w.result.resolved (w.renumber node)).kind =
            .interface (members.map w.renumberMember) (supers.map w.number) :=
          (congrArg Node.kind (hresolve _)).trans hkind
        rw [reduce_interface hget hkind', hresolve, hfill rfl, hkept',
          h.relaxMembers_result hself hmem hrelaxed]
        exact hfill (by rw [renumber, kind]; rfl)
      · rw [heq]
        exact hfill (hresolve _)

end Reduction

end Typewright
