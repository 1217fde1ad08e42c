import Typewright.Proofs.TypeGraph.Meaning
import Typewright.Proofs.TypeGraph.WellFormed

/-!
# Simplification keeps the meaning of a type graph

An edit keeps every reading of the graph: what is left of the members of a combination combines to
the same, a redirect leads to a node with the same meaning, and a union with `undefined` is the rest
of it made optional. So an assignment that satisfies a graph satisfies the simplified one, whose
root means the same (`meaning_simplify`).
-/

namespace Typewright

variable {V : Type} {M : Interpretation V} {rho : String → Meaning V}

theorem Reduction.exists_mem_dropDuplicates (w : Reduction) (seen : List String)
    {ids : List NodeId} {id : NodeId} (h : id ∈ ids) :
    w.graph.fingerprint w.resolve id ∈ seen ∨ ∃ m ∈ w.dropDuplicates seen ids,
      w.graph.fingerprint w.resolve m = w.graph.fingerprint w.resolve id := by
  induction ids generalizing seen with
  | nil => cases h
  | cons a rest ih =>
      simp only [dropDuplicates]
      split
      · rename_i hseen
        rcases List.mem_cons.1 h with rfl | h
        · exact .inl hseen
        · exact ih seen h
      · rcases List.mem_cons.1 h with rfl | h
        · exact .inr ⟨id, List.mem_cons_self, rfl⟩
        · rcases ih (w.graph.fingerprint w.resolve a :: seen) h with hmem | ⟨m, hm, heq⟩
          · rcases List.mem_cons.1 hmem with heq | hmem
            · exact .inr ⟨a, List.mem_cons_self, heq.symm⟩
            · exact .inl hmem
          · exact .inr ⟨m, List.mem_cons_of_mem _ hm, heq⟩

theorem Edit.root {keep : Bool} {s t : Stage} (he : Edit keep s t) :
    t.work.graph.root = s.work.graph.root := by
  cases he <;> rfl

namespace Stage

variable {keep : Bool} {s t : Stage} {I : NodeId → Meaning V}

/-! ## Names and texts stay plain -/

theorem textual_plain : Kind.Textual Kind.Plain where
  map _ kind h := by cases kind <;> exact h
  combination isUnion _ := by cases isUnion <;> trivial
  any := trivial
  interface _ _ := trivial

theorem plain_edit (h : s.work.graph.Plain s.live) (hc : s.Closed) (he : Edit keep s t) :
    t.work.graph.Plain t.live :=
  ⟨textual_edit textual_plain h.kind hc he, name_edit h.name he⟩

/-! ## Readings of a graph under work -/

/-- Meanings that fit together, also for named nodes, along redirects and for the rests of unions. -/
structure Interpreted (M : Interpretation V) (rho : String → Meaning V) (s : Stage)
    (I : NodeId → Meaning V) : Prop where
  unbuilt : ∀ id, s.live id → s.work.graph.get? id = none → I id = M.unbuilt
  built : ∀ id node, s.live id → s.work.graph.get? id = some node → I id = M.kind I node.kind
  named : ∀ id node name, s.live id → s.work.graph.get? id = some node → node.name = some name →
    I id = rho name
  lead : ∀ a b, s.work.Leads a b → I a = I b
  rest : ∀ u n, (u, n) ∈ s.rests → I u = (I n).optional

/-- The node that stands for another one means the same. -/
theorem Interpreted.resolve_eq (h : s.Interpreted M rho I) (id : NodeId) :
    I (s.work.resolve id) = I id :=
  s.work.resolve_induction (P := fun i => I i = I id) rfl fun a b hl ha => (h.lead a b hl) ▸ ha

/-- Nodes with the same fingerprint mean the same. -/
theorem Interpreted.eq_of_fingerprint (h : s.Interpreted M rho I) (hc : s.Closed)
    (hp : s.work.graph.Plain s.live) {a b : NodeId} (ha : s.live a) (hb : s.live b)
    (heq : s.work.graph.fingerprint s.work.resolve a = s.work.graph.fingerprint s.work.resolve b) :
    I a = I b := by
  have hcongr : s.work.graph.Congruence s.work.resolve s.live fun a b => I a = I b := by
    refine ⟨fun a b _ _ hab => ?_, fun a b node node' name ha hb hna hnb hname hname' => ?_,
      fun a b node node' ha hb hna hnb halike => ?_⟩
    · rw [← h.resolve_eq a, hab, h.resolve_eq b]
    · rw [← h.resolve_eq a, ← h.resolve_eq b, h.named _ node name (hc.resolve ha) hna hname,
        h.named _ node' name (hc.resolve hb) hnb hname']
    · rw [← h.resolve_eq a, ← h.resolve_eq b, h.built _ node (hc.resolve ha) hna,
        h.built _ node' (hc.resolve hb) hnb, M.kind_alike halike]
  exact hcongr.of_fingerprint hp (fun _ => hc.resolve)
    (fun _ _ hid hn _ hmem => hc.child_of_get hid hn hmem) ha hb heq

/-- A dissolved member means what its own members combine to. -/
theorem Interpreted.combine_flatten (h : s.Interpreted M rho I) (id : NodeId) (isUnion : Bool)
    {children : List NodeId} (hlive : ∀ c ∈ children, s.live c) :
    Meaning.combine isUnion ((s.work.flatten id isUnion children).map I) =
      Meaning.combine isUnion (children.map I) := by
  rw [Reduction.flatten, List.map_flatMap, Meaning.combine_flatMap]
  refine congrArg _ (List.map_congr_left fun c hmem => ?_)
  split
  · exact Meaning.combine_singleton _
  · rename_i node hn
    split
    · rename_i hdis
      simp only [Bool.and_eq_true] at hdis
      have hkind := (Reduction.dissolves_iff.1 hdis.2).2.2
      rw [h.built c node (hlive c hmem) hn, hkind, Interpretation.kind_combination,
        Kind.children_combination, List.map_map]
      exact congrArg _ (List.map_congr_left fun d _ => h.resolve_eq d)
    · exact Meaning.combine_singleton _

/-- What is left of the members of a combination combines to the same. -/
theorem Interpreted.combine_members (h : s.Interpreted M rho I) (hc : s.Closed)
    (hp : s.work.graph.Plain s.live) (id : NodeId) (isUnion : Bool) {children : List NodeId}
    (hlive : ∀ c ∈ children, s.live c) :
    Meaning.combine isUnion ((s.work.members id isUnion children).map I) =
      Meaning.combine isUnion (children.map I) := by
  have hres : ∀ c ∈ children.map s.work.resolve, s.live c := by
    intro c hmem
    obtain ⟨d, hd, rfl⟩ := List.mem_map.1 hmem
    exact hc.resolve (hlive d hd)
  have hresolved : (children.map s.work.resolve).map I = children.map I := by
    rw [List.map_map]
    exact List.map_congr_left fun c _ => h.resolve_eq c
  rw [← hresolved, ← h.combine_flatten id isUnion hres]
  refine Meaning.combine_congr fun d => ?_
  simp only [List.mem_map]
  constructor
  · rintro ⟨m, hm, rfl⟩
    exact ⟨m, s.work.mem_dropDuplicates hm, rfl⟩
  · rintro ⟨m, hm, rfl⟩
    rcases s.work.exists_mem_dropDuplicates [] hm with hnil | ⟨m', hm', heq⟩
    · cases hnil
    · exact ⟨m', hm', h.eq_of_fingerprint hc hp (hc.members hlive hm')
        (hc.flatten hlive hm) heq⟩

/-- The text `undefined` means the absent value. -/
theorem Interpreted.eq_absent (h : s.Interpreted M rho I) {id : NodeId} (live : s.live id)
    (hu : s.work.isUndefined id = true) : I id = .absent := by
  unfold Reduction.isUndefined at hu
  split at hu
  · cases hu
  · rename_i node hn
    rw [h.built id node live hn]
    cases hkind : node.kind with
    | customType text | reference text =>
        simp only [hkind, beq_iff_eq] at hu
        exact if_pos hu
    | _ => simp [hkind] at hu

/-- A union with `undefined` is the rest of it, made optional. -/
theorem Interpreted.combine_defined (h : s.Interpreted M rho I) {branches : List NodeId}
    (hlive : ∀ c ∈ branches, s.live c)
    (undef : (s.work.defined branches).length ≠ branches.length) :
    Meaning.combine true (branches.map I) =
      (Meaning.combine true ((s.work.defined branches).map I)).optional := by
  obtain ⟨u, hu, hundef⟩ : ∃ u ∈ branches, s.work.isUndefined u = true := by
    by_contra hnone
    push Not at hnone
    refine undef (congrArg List.length (List.filter_eq_self.2 fun c hmem => ?_))
    simpa using hnone c hmem
  refine Meaning.combine_eq_optional fun d => ?_
  simp only [List.mem_map, Reduction.defined, List.mem_filter]
  constructor
  · rintro ⟨c, hmem, rfl⟩
    by_cases hc : s.work.isUndefined c = true
    · exact .inr (h.eq_absent (hlive c hmem) hc)
    · exact .inl ⟨c, ⟨hmem, by simpa using hc⟩, rfl⟩
  · rintro (⟨c, ⟨hmem, -⟩, rfl⟩ | rfl)
    · exact ⟨c, hmem, rfl⟩
    · exact ⟨u, hu, h.eq_absent (hlive u hu) hundef⟩

/-- The members that are kept and relaxed are rendered with the same meanings. -/
theorem Interpreted.members_eq (h : s.Interpreted M rho I) {members members' : List InterfaceMember}
    (relaxed : List.Forall₂ s.Relaxed (Reduction.kept keep members) members') :
    members'.filterMap (Interpretation.member I) = members.filterMap (Interpretation.member I) := by
  have hkept : (Reduction.kept keep members).filterMap (Interpretation.member I) =
      members.filterMap (Interpretation.member I) := by
    unfold Reduction.kept
    split
    · rfl
    · rw [List.filterMap_filter]
      refine List.filterMap_congr fun m _ => ?_
      cases hu : m.unreachable <;> simp [Interpretation.member, hu]
  rw [← hkept]
  refine (Interpretation.filterMap_eq_of_forall₂ (relaxed.imp fun m m' hm => ?_)).symm
  cases hm with
  | same => rfl
  | rest hrest => simp [Interpretation.member, h.rest _ _ hrest]

/-! ## Edits keep readings -/

/-- What is written into the slot of a node means the same. -/
theorem Interpreted.rewrite (h : s.Interpreted M rho I) (hc : s.Closed)
    (hp : s.work.graph.Plain s.live) {id : NodeId} {node node' : Node} (live : s.live id)
    (get : s.work.graph.get? id = some node) (hr : Rewrite keep s id node node') :
    M.kind I node'.kind = M.kind I node.kind := by
  have hmembers : ∀ {isUnion children}, node.kind = .combination isUnion children →
      Meaning.combine isUnion ((s.work.members id isUnion children).map I) =
        M.kind I node.kind := by
    intro isUnion children kind
    rw [kind, Interpretation.kind_combination]
    exact h.combine_members hc hp id isUnion fun c hmem =>
      hc.child_of_get live get (by rwa [kind, Kind.children_combination])
  have hlive : ∀ {isUnion children m}, node.kind = .combination isUnion children →
      m ∈ s.work.members id isUnion children → s.live m := by
    intro isUnion children m kind hm
    exact hc.members (fun c hmem =>
      hc.child_of_get live get (by rwa [kind, Kind.children_combination])) hm
  cases hr with
  | resolve =>
      rw [Interpretation.kind_mapChildren]
      exact M.kind_congr fun c _ => h.resolve_eq c
  | combine kind any => rw [Interpretation.kind_combination, hmembers kind]
  | @absorb m isUnion children kind mem any =>
      rw [← hmembers kind]
      refine (Meaning.combine_of_any (List.mem_map.2 ⟨m, mem, ?_⟩)).symm
      unfold Reduction.isAny at any
      split at any
      · rename_i child hm
        rw [h.built m child (hlive kind mem) hm, eq_of_beq any]
        rfl
      · cases any
  | @copy only child isUnion children kind single any ne member =>
      have hmem : only ∈ s.work.members id isUnion children :=
        single ▸ List.mem_singleton_self only
      rw [← hmembers kind, single, List.map_singleton, Meaning.combine_singleton,
        h.built only child (hlive kind hmem) member]
  | interface kind relaxed =>
      rw [kind]
      exact congrArg₂ M.interface (h.members_eq relaxed) rfl

/-- A node may be filled with what means the same. -/
theorem Interpreted.fill (h : s.Interpreted M rho I) {id : NodeId} {node node' : Node}
    (live : s.live id) (get : s.work.graph.get? id = some node) (name : node'.name = node.name)
    (heq : M.kind I node'.kind = M.kind I node.kind) : (s.fill id node').Interpreted M rho I := by
  have hlt := s.work.graph.lt_size_of_get? get
  refine ⟨fun i hi hn => ?_, fun i found hi hn => ?_, fun i found n hi hn hname => ?_, h.lead, h.rest⟩
  · rw [graph_fill, TypeGraph.get?_fill _ hlt] at hn
    split at hn
    · cases hn
    · exact h.unbuilt i hi hn
  · rw [graph_fill, TypeGraph.get?_fill _ hlt] at hn
    split at hn
    · rename_i hid
      obtain rfl := Option.some.inj hn
      rw [heq, hid, h.built id node live get]
    · exact h.built i found hi hn
  · rw [graph_fill, TypeGraph.get?_fill _ hlt] at hn
    split at hn
    · rename_i hid
      obtain rfl := Option.some.inj hn
      exact hid ▸ h.named id node n live get (name ▸ hname)
    · exact h.named i found n hi hn hname

/-- A node may be added for the rest of a union. -/
theorem Interpreted.branch (h : s.Interpreted M rho I) (hc : s.Closed) (hb : s.Bounded)
    {u : NodeId} {node : Node} {branches : List NodeId} (live : s.live u)
    (get : s.work.graph.get? u = some node) (kind : node.kind = .union branches)
    (undef : (s.work.defined branches).length ≠ branches.length) :
    ∃ I', Interpreted M rho (s.branch u
        { kind := .union (s.work.defined branches), comment := node.comment, key := node.key }) I' ∧
      ∀ id, s.live id → I' id = I id := by
  have hbranches : ∀ c ∈ branches, s.live c := fun c hmem => hc.child_of_get live get (kind ▸ hmem)
  -- live nodes have slots, so no meaning that counts changes
  have hne : ∀ i, s.live i → i ≠ s.work.graph.size := fun i hi => Nat.ne_of_lt (hb i hi)
  let rest : Meaning V := .combine true ((s.work.defined branches).map I)
  let I' (i : NodeId) : Meaning V := if i = s.work.graph.size then rest else I i
  have hold : ∀ i, s.live i → I' i = I i := fun i hi => if_neg (hne i hi)
  have hnew : I' s.work.graph.size = rest := if_pos rfl
  have hkind : ∀ {i found}, s.live i → s.work.graph.get? i = some found →
      M.kind I' found.kind = M.kind I found.kind := fun hi hn =>
    M.kind_congr fun c hmem => hold c (hc.child_of_get hi hn hmem)
  refine ⟨I', ⟨fun i hi hn => ?_, fun i found hi hn => ?_, fun i found name hi hn hname => ?_,
    fun a b hl => ?_, fun v n hn => ?_⟩, hold⟩
  · by_cases hsize : i = s.work.graph.size
    · rw [graph_branch, hsize, TypeGraph.get?_add_self] at hn
      cases hn
    · rw [graph_branch, TypeGraph.get?_add_of_ne _ hsize] at hn
      rw [hold i (hi.resolve_right hsize)]
      exact h.unbuilt i (hi.resolve_right hsize) hn
  · by_cases hsize : i = s.work.graph.size
    · rw [graph_branch, hsize, TypeGraph.get?_add_self] at hn
      obtain rfl := Option.some.inj hn
      rw [hsize, hnew]
      refine congrArg (Meaning.combine true) (List.map_congr_left fun c hmem => ?_)
      exact (hold c (hbranches c (List.mem_filter.1 hmem).1)).symm
    · rw [graph_branch, TypeGraph.get?_add_of_ne _ hsize] at hn
      have hi := hi.resolve_right hsize
      rw [hold i hi, hkind hi hn, h.built i found hi hn]
  · by_cases hsize : i = s.work.graph.size
    · rw [graph_branch, hsize, TypeGraph.get?_add_self] at hn
      obtain rfl := Option.some.inj hn
      cases hname
    · rw [graph_branch, TypeGraph.get?_add_of_ne _ hsize] at hn
      rw [hold i (hi.resolve_right hsize)]
      exact h.named i found name (hi.resolve_right hsize) hn hname
  · have hl : s.work.Leads a b := hl
    rw [hold a (hc.lead a b hl).1, hold b (hc.lead a b hl).2]
    exact h.lead a b hl
  · rcases List.mem_cons.1 hn with hn | hn
    · obtain ⟨rfl, rfl⟩ := Prod.mk.inj hn
      rw [hold v live, hnew, h.built v node live get, kind]
      exact h.combine_defined hbranches undef
    · rw [hold v (hc.rest v n hn).1, hold n (hc.rest v n hn).2]
      exact h.rest v n hn

theorem Interpreted.edit (h : s.Interpreted M rho I) (hc : s.Closed) (hb : s.Bounded)
    (hp : s.work.graph.Plain s.live) (he : Edit keep s t) :
    ∃ I', t.Interpreted M rho I' ∧ ∀ id, s.live id → I' id = I id := by
  cases he with
  | rewrite live get hr =>
      exact ⟨I, h.fill live get hr.name (h.rewrite hc hp live get hr), fun _ _ => rfl⟩
  | @redirect id only node child isUnion children live get kind single any ne member named =>
      refine ⟨I, ⟨h.unbuilt, h.built, h.named, fun a b hl => ?_, h.rest⟩, fun _ _ => rfl⟩
      rcases s.leads_redirect id only hl with ⟨rfl, rfl⟩ | ⟨-, hl⟩
      · have hlive : ∀ c ∈ children, s.live c := fun c hmem =>
          hc.child_of_get live get (by rwa [kind, Kind.children_combination])
        have hmembers := h.combine_members hc hp a isUnion hlive
        rw [single, List.map_singleton, Meaning.combine_singleton] at hmembers
        rw [h.built a node live get, kind, Interpretation.kind_combination, hmembers]
      · exact h.lead a b hl
  | branch live get kind unnamed undef => exact h.branch hc hb live get kind undef
  | @restate u n mem =>
      refine ⟨I, ⟨h.unbuilt, h.built, h.named, h.lead, fun v m hm => ?_⟩, fun _ _ => rfl⟩
      rcases List.mem_cons.1 hm with hm | hm
      · obtain ⟨rfl, rfl⟩ := Prod.mk.inj hm
        rw [h.resolve_eq n, h.rest v n mem]
      · exact h.rest v m hm

/-- A run of edits keeps a reading, and the meaning of the root. -/
theorem Interpreted.edits (h : s.Interpreted M rho I) (hc : s.Closed) (hb : s.Bounded)
    (hp : s.work.graph.Plain s.live) (he : Edits keep s t) :
    ∃ I', t.Interpreted M rho I' ∧ I' t.work.graph.root = I s.work.graph.root := by
  suffices hall : t.work.graph.Plain t.live ∧
      ∃ I', t.Interpreted M rho I' ∧ I' t.work.graph.root = I s.work.graph.root from hall.2
  induction he with
  | refl => exact ⟨hp, I, h, rfl⟩
  | @tail b c hsb he ih =>
      obtain ⟨hpb, I', hI', hroot⟩ := ih
      have hcb := hc.edits hsb
      obtain ⟨I'', hI'', hsame⟩ := hI'.edit hcb (hb.edits hsb) hpb he
      exact ⟨plain_edit hpb hcb he, I'', hI'', by rw [he.root, hsame _ hcb.root, hroot]⟩

/-! ## The result -/

/-- The meaning that a node of the result has in the graph under work. -/
def meaningAt (s : Stage) (M : Interpretation V) (I : NodeId → Meaning V) (i : Nat) :
    Meaning V :=
  (s.work.order[i]?).elim M.unbuilt I

theorem Interpreted.meaningAt_number (h : s.Interpreted M rho I) {id : NodeId}
    (hid : s.work.resolve id ∈ s.work.order) : s.meaningAt M I (s.work.number id) = I id := by
  rw [meaningAt, s.work.getElem?_order_number hid, Option.elim_some, h.resolve_eq]

/-- The structure of a node of the result means what the node did. -/
theorem Interpreted.kind_renumber (h : s.Interpreted M rho I) (hc : s.Closed) {id : NodeId}
    {old : Node} (hid : id ∈ s.work.order) (hold : s.work.graph.get? id = some old) :
    M.kind (s.meaningAt M I) (s.work.renumber old).kind = I id := by
  rw [h.built id old (hc.order id hid) hold, Reduction.renumber, Interpretation.kind_mapChildren]
  exact M.kind_congr fun c hmem => h.meaningAt_number (s.work.child_mem_order hid hold hmem)

theorem Interpreted.reading_compact (h : s.Interpreted M rho I) (hc : s.Closed) :
    s.work.compact.Reading M rho (fun _ => True) (s.meaningAt M I) := by
  refine ⟨fun i _ hn => ?_, fun i node name _ hn hname => ?_, fun i node _ hn hname => ?_⟩
  · rw [s.work.get?_compact] at hn
    unfold meaningAt
    cases hid : s.work.order[i]? with
    | none => rfl
    | some id =>
        rw [hid, Option.bind_some, Option.map_eq_none_iff] at hn
        exact h.unbuilt id (hc.order id (List.mem_of_getElem? hid)) hn
  · obtain ⟨id, old, hid, hold, rfl⟩ := s.work.get?_compact_eq_some hn
    rw [meaningAt, hid]
    exact h.named id old name (hc.order id (List.mem_of_getElem? hid)) hold hname
  · obtain ⟨id, old, hid, hold, rfl⟩ := s.work.get?_compact_eq_some hn
    rw [h.kind_renumber hc (List.mem_of_getElem? hid) hold, meaningAt, hid]
    rfl

/-- The result is satisfied, and its root means what it did. -/
theorem Interpreted.compact (h : s.Interpreted M rho I) (hc : s.Closed) {rank : NodeId → Nat}
    (hrank : s.Ranked rank) : s.work.compact.Satisfies M rho ∧
      s.work.compact.meaning M rho s.work.compact.root = I s.work.graph.root := by
  have hmeaning : s.work.compact.meaning M rho = s.meaningAt M I := funext fun i =>
    (h.reading_compact hc).eq_meaning
      (Reduction.ranking_compact hrank.ranking hc.order hrank.resolve_le)
      (fun _ _ _ _ _ _ => trivial) trivial
  refine ⟨fun i node name _ hn hname => ?_, ?_⟩
  · obtain ⟨id, old, hid, hold, rfl⟩ := s.work.get?_compact_eq_some hn
    have hmem := List.mem_of_getElem? hid
    rw [hmeaning, h.kind_renumber hc hmem hold]
    exact (h.named id old name (hc.order id hmem) hold hname).symm
  · rw [hmeaning, s.work.root_compact]
    exact h.meaningAt_number s.work.root_mem_order

/-- Where nothing is built, nothing is edited. -/
theorem eq_of_edits_unbuilt (hnone : ∀ id, s.live id → s.work.graph.get? id = none)
    (hrests : s.rests = []) (he : Edits keep s t) : t = s := by
  have hstuck : ∀ u, ¬ Edit keep s u := by
    intro u hu
    cases hu with
    | rewrite live get => exact nomatch (hnone _ live).symm.trans get
    | redirect live get => exact nomatch (hnone _ live).symm.trans get
    | branch live get => exact nomatch (hnone _ live).symm.trans get
    | restate mem => rw [hrests] at mem; cases mem
  rcases (Relation.ReflTransGen.cases_head_iff).1 he with heq | ⟨u, hu, -⟩
  · exact heq.symm
  · exact (hstuck u hu).elim

end Stage

namespace TypeGraph

/-- Names and opaque texts are identifiers, every cycle passes through a named node, and children
are slots of the graph. -/
structure Regular (g : TypeGraph) : Prop where
  inside : ∀ id, g.Reaches id → ∀ c ∈ g.childrenOf id, c < g.size
  plain : g.Plain g.Reaches
  cycles : g.CyclesNamed

/-- An assignment that satisfies a graph satisfies the simplified graph, and the root means the same
in both. -/
theorem meaning_simplify {g : TypeGraph} (hg : g.Regular) (keep : Bool) (M : Interpretation V)
    (rho : String → Meaning V) (hsat : g.Satisfies M rho) :
    (g.simplify keep).Satisfies M rho ∧
      (g.simplify keep).meaning M rho (g.simplify keep).root = g.meaning M rho g.root := by
  obtain ⟨t, he, hct, heq⟩ := TypeGraph.simplify_eq keep hg.inside
  obtain ⟨rank, hrank⟩ := g.exists_ranking hg.cycles
  have hc := Stage.closed_start g
  have hranked : (Stage.start g).Ranked rank :=
    ⟨hrank, fun _ _ hl => absurd hl List.not_mem_nil, fun _ _ hn => absurd hn List.not_mem_nil⟩
  have hreading := reading_meaning M rho hrank fun _ _ hid hn _ hmem =>
    hid.child g hn hmem
  have hstart : (Stage.start g).Interpreted M rho (g.meaning M rho) := by
    refine ⟨hreading.unbuilt, fun id node hid hn => ?_, hreading.named,
      fun _ _ hl => absurd hl List.not_mem_nil, fun _ _ hn => absurd hn List.not_mem_nil⟩
    cases hname : node.name with
    | none => exact hreading.inlined id node hid hn hname
    | some name => rw [hreading.named id node name hid hn hname, hsat id node name hid hn hname]
  obtain ⟨I, hI, hroot, rank', hrank'⟩ : ∃ I, t.Interpreted M rho I ∧
      I t.work.graph.root = g.meaning M rho g.root ∧ ∃ rank', t.Ranked rank' := by
    by_cases hsize : g.root < g.size
    · have hb : (Stage.start g).Bounded := by
        intro id hid
        cases hid with
        | refl => exact hsize
        | tail hab hbc => exact hg.inside _ hab _ hbc
      obtain ⟨I, hI, hroot⟩ := hstart.edits hc hb hg.plain he
      exact ⟨I, hI, hroot, hranked.edits hc hb he⟩
    · -- a root without slot leads nowhere, and nothing is edited
      have hnone : ∀ id, g.Reaches id → g.get? id = none := by
        intro id hid
        induction hid with
        | refl => exact g.get?_eq_none_of_size_le (Nat.not_lt.1 hsize)
        | tail _ hbc ih => simp [Refers, childrenOf, ih] at hbc
      obtain rfl := Stage.eq_of_edits_unbuilt hnone rfl he
      exact ⟨_, hstart, rfl, rank, hranked⟩
  obtain ⟨hsat', hmeaning⟩ := hI.compact hct hrank'
  exact heq ▸ ⟨hsat', hmeaning.trans hroot⟩

/-- An interface `Chain` with a text `label` and a member `next` that is a `Chain` or `undefined`. -/
def chain : TypeGraph where
  nodes := #[
    some {
      kind := .interface [⟨"next", 1, true, false, false⟩, ⟨"label", 3, true, false, false⟩] []
      name := some "Chain" },
    some { kind := .union [0, 2] },
    some { kind := .customType "undefined" },
    some { kind := .string }]

theorem get?_chain {id : NodeId} {node : Node} (h : chain.get? id = some node) :
    (id = 0 ∧ node.kind =
        .interface [⟨"next", 1, true, false, false⟩, ⟨"label", 3, true, false, false⟩] [] ∧
      node.name = some "Chain") ∨
    (id = 1 ∧ node.kind = .union [0, 2] ∧ node.name = none) ∨
    (id = 2 ∧ node.kind = .customType "undefined" ∧ node.name = none) ∨
    (id = 3 ∧ node.kind = .string ∧ node.name = none) := by
  have hlt : id < 4 := chain.lt_size_of_get? h
  match id, hlt with
  | 0, _ => obtain rfl := Option.some.inj h; exact .inl ⟨rfl, rfl, rfl⟩
  | 1, _ => obtain rfl := Option.some.inj h; exact .inr (.inl ⟨rfl, rfl, rfl⟩)
  | 2, _ => obtain rfl := Option.some.inj h; exact .inr (.inr (.inl ⟨rfl, rfl, rfl⟩))
  | 3, _ => obtain rfl := Option.some.inj h; exact .inr (.inr (.inr ⟨rfl, rfl, rfl⟩))

theorem regular_chain : chain.Regular where
  inside id _ c hc := by
    unfold childrenOf at hc
    split at hc
    · cases hc
    · rename_i node hn
      rcases get?_chain hn with ⟨-, hkind, -⟩ | ⟨-, hkind, -⟩ | ⟨-, hkind, -⟩ | ⟨-, hkind, -⟩ <;>
        rw [hkind] at hc <;> revert c <;> decide
  plain := by
    refine ⟨fun id node _ hn => ?_, fun id node name _ hn hname => ?_⟩
    · rcases get?_chain hn with ⟨-, hkind, -⟩ | ⟨-, hkind, -⟩ | ⟨-, hkind, -⟩ | ⟨-, hkind, -⟩ <;>
        rw [hkind]
      · trivial
      · trivial
      · show Identifier.isBare "undefined".toList = true
        decide +kernel
      · trivial
    · rcases get?_chain hn with ⟨-, -, hsome⟩ | ⟨-, -, hnone⟩ | ⟨-, -, hnone⟩ | ⟨-, -, hnone⟩
      · obtain rfl := Option.some.inj (hsome.symm.trans hname)
        decide +kernel
      all_goals cases hnone.symm.trans hname
  cycles id hid := by
    have hranking : chain.Ranking chain.Reaches fun i =>
        if i = 1 then 2 else if i = 2 then 1 else 0 := by
      refine ⟨fun a b _ => ?_, fun id node _ hn hnamed => ?_⟩
      · rintro ⟨node, hn, hname, hb⟩
        rcases get?_chain hn with
          ⟨rfl, hkind, hsome⟩ | ⟨rfl, hkind, -⟩ | ⟨rfl, hkind, -⟩ | ⟨rfl, hkind, -⟩
        · cases hsome.symm.trans hname
        · simp only [hkind, Kind.children, List.mem_cons, List.not_mem_nil, or_false] at hb
          rcases hb with rfl | rfl <;> decide
        all_goals
          rw [hkind] at hb
          cases hb
      · rcases get?_chain hn with
          ⟨rfl, -, -⟩ | ⟨rfl, -, hnone⟩ | ⟨rfl, -, hnone⟩ | ⟨rfl, -, hnone⟩
        · rfl
        all_goals
          rw [hnone] at hnamed
          cases hnamed
    exact hranking.not_transGen (fun _ _ ha hab => ha.tail hab) hid

/-! ## JSON values as meanings -/

/-- The values with a property, none of them absent. -/
def present (P : Json → Prop) : Meaning Json := .values {x | ∃ v, x = some v ∧ P v}

/-- A value, or that there is none, belongs to a meaning. -/
def Belongs (x : Option Json) : Meaning Json → Prop
  | .any => True
  | .values s => x ∈ s

theorem belongs_present {x : Option Json} {P : Json → Prop} :
    Belongs x (present P) ↔ ∃ v, x = some v ∧ P v := Iff.rfl

theorem belongs_union {x : Option Json} {ds : List (Meaning Json)} :
    Belongs x (.combine true ds) ↔ ∃ d ∈ ds, Belongs x d := by
  by_cases hany : .any ∈ ds
  · rw [Meaning.combine_of_any hany]
    exact ⟨fun _ => ⟨_, hany, trivial⟩, fun _ => trivial⟩
  · rw [Meaning.combine_of_not_any hany]
    constructor
    · rintro ⟨s, hs, hx⟩
      exact ⟨_, hs, hx⟩
    · rintro ⟨_ | s, hs, hx⟩
      · exact absurd hs hany
      · exact ⟨s, hs, hx⟩

/-- Types as sets of JSON values. Opaque texts may mean anything. -/
def valueInterpretation : Interpretation Json where
  boolean := present fun v => ∃ value, v = .bool value
  null := present (· = .null)
  number := present fun v => ∃ value, v = .number value
  object := present fun v => (∃ items, v = .array items) ∨ ∃ fields, v = .object fields
  string := present fun v => ∃ value, v = .string value
  text _ := .any
  literal value := present (· = value)
  array d := present fun v => ∃ items, v = .array items ∧ ∀ x ∈ items, Belongs (some x) d
  tuple ds := present fun v =>
    ∃ items, v = .array items ∧ List.Forall₂ (fun d x => Belongs (some x) d) ds items
  enum members := present fun v => ∃ m ∈ members, Belongs (some v) m.2
  interface members supers := present fun v =>
    (∃ fields, v = .object fields ∧ ∀ m ∈ members, Belongs (fields.lookup m.1) m.2) ∧
      ∀ d ∈ supers, Belongs (some v) d
  unbuilt := .any

/-- The chains: objects with a text as label that end after finitely many steps. -/
inductive IsChain : Json → Prop
  | object {fields : Members} {label : String} (hlabel : fields.lookup "label" = some (.string label))
      (hnext : ∀ next, fields.lookup "next" = some next → IsChain next) : IsChain (.object fields)

/-- The chains are the objects that the interface admits. -/
theorem isChain_iff {v : Json} : IsChain v ↔ ∃ fields, v = .object fields ∧
    (∃ label, fields.lookup "label" = some (.string label)) ∧
    ∀ next, fields.lookup "next" = some next → IsChain next := by
  constructor
  · rintro ⟨hlabel, hnext⟩
    exact ⟨_, rfl, ⟨_, hlabel⟩, hnext⟩
  · rintro ⟨fields, rfl, ⟨label, hlabel⟩, hnext⟩
    exact .object hlabel hnext

/-- What the members of `Chain` mean. -/
theorem meaning_chain (M : Interpretation V) (rho : String → Meaning V) :
    chain.meaning M rho 1 = .combine true [rho "Chain", .absent] ∧
      chain.meaning M rho 3 = M.string := by
  have hchain : ∀ fresh, chain.meaningFrom M rho fresh 0 = rho "Chain" := fun _ =>
    meaningFrom_of_named rfl rfl
  have hnext : chain.get? 1 = some { kind := .union [0, 2] } := rfl
  have habsent : chain.get? 2 = some { kind := .customType "undefined" } := rfl
  have hlabel : chain.get? 3 = some { kind := .string } := rfl
  refine ⟨(meaningFrom_of_unnamed hnext rfl (by decide)).trans ?_,
    meaningFrom_of_unnamed hlabel rfl (by decide)⟩
  rw [Interpretation.kind, List.map_cons, List.map_cons, hchain,
    meaningFrom_of_unnamed habsent rfl (by decide)]
  simp [Interpretation.kind]

theorem satisfies_chain : chain.Satisfies valueInterpretation fun _ => present IsChain := by
  intro id node name _ hn hname
  rcases get?_chain hn with ⟨-, hkind, -⟩ | ⟨-, -, hnone⟩ | ⟨-, -, hnone⟩ | ⟨-, -, hnone⟩
  · obtain ⟨hnext, hlabel⟩ := meaning_chain valueInterpretation fun _ => present IsChain
    have hmembers : valueInterpretation.kind (chain.meaning valueInterpretation fun _ =>
        present IsChain) node.kind = valueInterpretation.interface
          [("next", .combine true [present IsChain, .absent]), ("label", valueInterpretation.string)]
          [] := by
      rw [hkind, ← hnext, ← hlabel]
      rfl
    rw [hmembers]
    refine congrArg present (funext fun v => propext (isChain_iff.trans ?_))
    simp only [List.forall_mem_cons, belongs_union, List.not_mem_nil, false_implies, implies_true,
      and_true]
    refine exists_congr fun fields => and_congr_right fun _ => and_comm.trans (and_congr ?_ ?_)
    · simp only [List.exists_mem_cons_iff, List.not_mem_nil, false_and, exists_false, or_false]
      cases fields.lookup "next" with
      | none => exact ⟨fun _ => .inr rfl, fun _ _ h => nomatch h⟩
      | some next =>
          have habsent : ¬ Belongs (some next) .absent := nofun
          simp [belongs_present, habsent]
    · simp [valueInterpretation, belongs_present]
  all_goals exact nomatch hnone.symm.trans hname

theorem meaning_simplify_chain :
    chain.Regular ∧ chain.Satisfies valueInterpretation (fun _ => present IsChain) ∧
      ((chain.simplify false).Satisfies valueInterpretation (fun _ => present IsChain) ∧
        (chain.simplify false).meaning valueInterpretation (fun _ => present IsChain)
            (chain.simplify false).root =
          chain.meaning valueInterpretation (fun _ => present IsChain) chain.root) :=
  ⟨regular_chain, satisfies_chain, meaning_simplify regular_chain false _ _ satisfies_chain⟩

end TypeGraph

end Typewright
