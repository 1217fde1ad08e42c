import Typewright.Proofs.TypeGraph.Duplicates
import Typewright.Proofs.TypeGraph.Frame
import Typewright.Proofs.TypeGraph.Kept
import Typewright.Proofs.TypeGraph.Numbering

/-!
# What becomes of an interface

Only a step at an interface itself changes its slot, and such a step leaves it an interface with its
name and its comment. It drops the members that only carry definitions unless they are kept, and
relaxes members whose types are unnamed unions with `undefined`. So a named interface that is still
there after a simplification has its supers and the members that count in their places
(`exists_interface_simplify`).
-/

namespace Typewright

/-- Lists of the same length that are related place by place. -/
def Placewise {α β : Type} (r : Nat → α → β → Prop) (xs : List α) (ys : List β) : Prop :=
  xs.length = ys.length ∧ ∀ i x y, xs[i]? = some x → ys[i]? = some y → r i x y

namespace Placewise

variable {α β γ : Type} {r : Nat → α → β → Prop} {xs : List α} {ys : List β}

theorem mono {r' : Nat → α → β → Prop} (h : Placewise r xs ys)
    (hr : ∀ i x y, r i x y → r' i x y) : Placewise r' xs ys :=
  ⟨h.1, fun i x y hx hy => hr i x y (h.2 i x y hx hy)⟩

theorem trans {s : Nat → β → γ → Prop} {t : Nat → α → γ → Prop} {zs : List γ}
    (h : Placewise r xs ys) (h' : Placewise s ys zs)
    (ht : ∀ i x y z, ys[i]? = some y → r i x y → s i y z → t i x z) : Placewise t xs zs := by
  refine ⟨h.1.trans h'.1, fun i x z hx hz => ?_⟩
  have hi : i < ys.length := h.1 ▸ (List.getElem?_eq_some_iff.1 hx).1
  have hy := List.getElem?_eq_getElem hi
  exact ht i x ys[i] z hy (h.2 i x _ hx hy) (h'.2 i _ z hy hz)

theorem of_map {f : α → β} (h : ∀ i, ∀ x ∈ xs, r i x (f x)) : Placewise r xs (xs.map f) := by
  refine ⟨(List.length_map ..).symm, fun i x y hx hy => ?_⟩
  rw [List.getElem?_map, hx] at hy
  obtain rfl := Option.some.inj hy
  exact h i x (List.mem_of_getElem? hx)

theorem refl {r : Nat → α → α → Prop} (h : ∀ i x, r i x x) (xs : List α) : Placewise r xs xs :=
  ⟨rfl, fun i _ _ hx hy => Option.some.inj (hx.symm.trans hy) ▸ h i _⟩

theorem cons {x : α} {y : β} (h : r 0 x y) (hs : Placewise (fun i => r (i + 1)) xs ys) :
    Placewise r (x :: xs) (y :: ys) := by
  refine ⟨congrArg (· + 1) hs.1, fun i a b ha hb => ?_⟩
  cases i with
  | zero =>
      obtain rfl := Option.some.inj ha
      obtain rfl := Option.some.inj hb
      exact h
  | succ i => exact hs.2 i a b ha hb

theorem exists_left (h : Placewise r xs ys) {y : β} (hy : y ∈ ys) : ∃ i, ∃ x ∈ xs, r i x y := by
  obtain ⟨i, hi, rfl⟩ := List.getElem_of_mem hy
  have hx := List.getElem?_eq_getElem (h.1.symm ▸ hi)
  exact ⟨i, _, List.mem_of_getElem? hx, h.2 i _ _ hx (List.getElem?_eq_getElem hi)⟩

end Placewise

/-- The node in a slot has a comment. -/
def TypeGraph.Tells (g : TypeGraph) (id : NodeId) (comment : String) : Prop :=
  ∃ node, g.get? id = some node ∧ node.comment = some comment

/-- What becomes of a member of an interface: its key and its flags stay, it may become optional, and
the comment of its type stays. -/
structure InterfaceMember.Becomes (excuse : Prop) (tells tells' : NodeId → String → Prop)
    (m m' : InterfaceMember) : Prop where
  key : m'.key = m.key
  pattern : m'.pattern = m.pattern
  unreachable : m'.unreachable = m.unreachable
  required : m'.required = true → m.required = true
  excused : m.required = true → m'.required = false → excuse
  comment : ∀ c, tells m.node c → tells' m'.node c

/-- A member whose type is replaced by a node with the same comment. -/
theorem InterfaceMember.becomes_node {excuse : Prop} {tells tells' : NodeId → String → Prop}
    {m : InterfaceMember} {n : NodeId} (h : ∀ c, tells m.node c → tells' n c) :
    m.Becomes excuse tells tells' { m with node := n } :=
  ⟨rfl, rfl, rfl, fun h => h, fun h h' => by simp [h] at h', h⟩

theorem InterfaceMember.Becomes.trans {excuse excuse' : Prop}
    {tells tells' tells'' : NodeId → String → Prop} {m m' m'' : InterfaceMember}
    (h : m.Becomes excuse tells tells' m') (h' : m'.Becomes excuse' tells' tells'' m'') :
    m.Becomes (excuse ∨ excuse') tells tells'' m'' where
  key := h'.key.trans h.key
  pattern := h'.pattern.trans h.pattern
  unreachable := h'.unreachable.trans h.unreachable
  required hr := h.required (h'.required hr)
  excused hr hr'' := by
    cases hr' : m'.required with
    | true => exact .inr (h'.excused hr' hr'')
    | false => exact .inl (h.excused hr hr')
  comment c hc := h'.comment c (h.comment c hc)

theorem InterfaceMember.Becomes.mono {excuse excuse' : Prop}
    {tells tells' : NodeId → String → Prop} {m m' : InterfaceMember}
    (h : m.Becomes excuse tells tells' m') (he : excuse → excuse') :
    m.Becomes excuse' tells tells' m' :=
  ⟨h.key, h.pattern, h.unreachable, h.required, fun hr hr' => he (h.excused hr hr'), h.comment⟩

namespace Reduction

variable {keep : Bool} {w v : Reduction} {id i : NodeId} {node : Node} {m : InterfaceMember}
  {members : List InterfaceMember} {supers : List NodeId}

/-- A node without redirect has a comment. -/
def Tells (w : Reduction) (id : NodeId) (comment : String) : Prop :=
  w.graph.Tells id comment ∧ w.Free id

theorem Keeps.tells (h : Keeps w v) {c : String} (ht : w.Tells i c) : v.Tells i c := by
  obtain ⟨⟨node, get, hcomment⟩, hfree⟩ := ht
  obtain ⟨node', get', -, hsame⟩ := h.slot i node get
  exact ⟨⟨node', get', hsame c hcomment⟩, h.free i node get (.inr (by simp [hcomment])) hfree⟩

theorem Keeps.holds (h : Keeps w v) {name : String} (hn : w.graph.Holds i name ∧ w.Free i) :
    v.graph.Holds i name ∧ v.Free i := by
  obtain ⟨⟨node, get, hname⟩, hfree⟩ := hn
  obtain ⟨node', get', hsame, -⟩ := h.slot i node get
  exact ⟨⟨node', get', hsame.trans hname⟩, h.free i node get (.inl (by simp [hname])) hfree⟩

/-! ## Members that are relaxed -/

theorem becomes_relaxMember (hw : w.Contained) (m : InterfaceMember) :
    m.Becomes (w.OffersUndefined m.node) w.Tells (w.relaxMember m).1.Tells (w.relaxMember m).2 := by
  rcases w.relaxMember_eq m with heq | ⟨hoffers, union, branches, v, get, kind, hv, heq⟩
  · rw [heq]
    exact InterfaceMember.becomes_node fun _ h => h
  · rw [heq]
    refine ⟨rfl, rfl, rfl, nofun, fun _ _ => hoffers, fun c hc => ?_⟩
    -- the node for the rest has the comment of the union, so it stands for itself
    obtain ⟨⟨node, hnode, hcomment⟩, -⟩ := hc
    obtain rfl := Option.some.inj (get.symm.trans hnode)
    have hslot : (w.branched union branches).Tells w.graph.size c :=
      ⟨⟨_, w.graph.get?_add_self _, hcomment⟩, hw _ (Nat.le_refl _)⟩
    have hv := (hv.keeps (w.graph.get?_add_self _)).tells hslot
    show v.Tells (v.resolve w.graph.size) c
    rwa [hv.2.resolve_eq]

theorem placewise_relaxMembers (hw : w.Contained) (members : List InterfaceMember) :
    Placewise (fun i m m' =>
      m.Becomes ((w.relaxMembers (members.take i)).1.OffersUndefined m.node) w.Tells
        (w.relaxMembers members).1.Tells m') members (w.relaxMembers members).2 := by
  induction members generalizing w with
  | nil => exact ⟨rfl, nofun⟩
  | cons m rest ih =>
      have hfirst := becomes_relaxMember hw m
      have hkeeps := w.keeps_relaxMember m
      have hrest := (w.relaxMember m).1.keeps_relaxMembers rest
      refine .cons ?_ ((ih (hkeeps.contained hw)).mono fun i n n' hn => ?_)
      · exact { hfirst with comment := fun c hc => hrest.tells (hfirst.comment c hc) }
      · exact { hn with comment := fun c hc => hn.comment c (hkeeps.tells hc) }

/-- A step at an interface meets an unnamed union with `undefined` as the type of the member at a
place, of those that count. -/
def LoosensAt (keep : Bool) (w : Reduction) (id : NodeId) (i : Nat) : Prop :=
  ∃ node members supers m, w.graph.get? id = some node ∧
    (w.resolved node).kind = .interface members supers ∧ (kept keep members)[i]? = some m ∧
    ((w.fill id (w.resolved node)).relaxMembers ((kept keep members).take i)).1.OffersUndefined m.node

theorem kept_map {f : InterfaceMember → InterfaceMember}
    (hf : ∀ m, (f m).unreachable = m.unreachable) (members : List InterfaceMember) :
    kept keep (members.map f) = (kept keep members).map f := by
  unfold kept
  split
  · rfl
  · rw [List.filter_map]
    exact congrArg (List.map f) (List.filter_congr fun m _ => by rw [Function.comp_apply, hf])

/-- Members that count still do if their flags stay. -/
theorem kept_eq_self {members' : List InterfaceMember}
    (h : Placewise (fun _ m m' => m'.unreachable = m.unreachable) (kept keep members) members') :
    kept keep members' = members' := by
  unfold kept at h ⊢
  split
  · rfl
  · rw [if_neg ‹_›] at h
    refine List.filter_eq_self.2 fun m' hm' => ?_
    obtain ⟨_, m, hm, heq⟩ := h.exists_left hm'
    rw [heq]
    exact (List.mem_filter.1 hm).2

/-- A member whose type is replaced by the node that stands for it. -/
def follow (w : Reduction) (m : InterfaceMember) : InterfaceMember :=
  { m with node := w.resolve m.node }

theorem placewise_follow (keep : Bool) (w : Reduction) (members : List InterfaceMember) :
    Placewise (fun _ m m' => m.Becomes False w.Tells w.Tells m') (kept keep members)
      (kept keep (members.map w.follow)) := by
  rw [kept_map (f := w.follow) fun _ => rfl]
  refine Placewise.of_map fun _ m _ => InterfaceMember.becomes_node fun c hc => ?_
  rwa [hc.2.resolve_eq]

/-- What a step makes of an interface. -/
theorem exists_reduce_interface (keep : Bool) (hw : w.Contained)
    (get : w.graph.get? id = some { node with kind := .interface members supers }) :
    ∃ members', (w.reduce keep id).graph.get? id =
        some { node with kind := .interface members' (supers.map w.resolve) } ∧
      Placewise (fun i m m' => m.Becomes (w.LoosensAt keep id i) w.Tells
        (w.reduce keep id).Tells m') (kept keep members) members' := by
  set old : Node := { node with kind := .interface members supers }
  have hkind : (w.resolved old).kind = .interface (members.map w.follow) (supers.map w.resolve) := rfl
  rw [reduce_interface get hkind]
  -- the slot is resolved, the members are relaxed, and the slot is filled
  set first := w.fill id (w.resolved old)
  set last := first.relaxMembers (kept keep (members.map w.follow)) with hlast
  have hfill : Keeps w first := keeps_fill get rfl fun _ h => h
  have hid : last.1.graph.get? id = some (w.resolved old) := by
    have hlt := w.graph.lt_size_of_get? get
    rw [hlast, get?_relaxMembers_of_lt (Nat.lt_of_lt_of_le hlt hfill.size)]
    exact w.graph.get?_fill_self hlt
  have hwrite : Keeps last.1 (last.1.fill id { node with
      kind := .interface last.2 (supers.map w.resolve) }) := keeps_fill hid rfl fun _ h => h
  refine ⟨last.2, last.1.graph.get?_fill_self (last.1.graph.lt_size_of_get? hid), ?_⟩
  refine (w.placewise_follow keep members).trans
    (placewise_relaxMembers (hfill.contained hw) _) fun i m m₁ m' hm₁ hm hm' => ?_
  have hlater : m₁.Becomes (w.LoosensAt keep id i) w.Tells (last.1.fill id _).Tells m' :=
    { hm' with
      excused := fun hr hr' => ⟨_, _, _, m₁, get, hkind, hm₁, hm'.excused hr hr'⟩
      comment := fun c hc => hwrite.tells (hm'.comment c (hfill.tells hc)) }
  exact (hm.trans hlater).mono fun h => h.resolve_left not_false

/-! ## Steps and sweeps -/

/-- The sweeps come to a node, with a graph under work. -/
inductive Comes (keep : Bool) (id : NodeId) : Nat → Reduction → Reduction → Prop where
  | now {limit : Nat} {w : Reduction} {before after : List NodeId}
      (order : w.postorder = before ++ id :: after) :
      Comes keep id limit w (before.foldl (reduce keep) w)
  | later {limit : Nat} {w v : Reduction}
      (changed : ¬((w.sweep keep).graph = w.graph ∧
        (w.sweep keep).redirects.length = w.redirects.length))
      (comes : Comes keep id limit (w.sweep keep) v) : Comes keep id (limit + 1) w v

/-- What has become of an interface of a graph with the members `members` and the supers `supers`.
Once it is `pruned`, only members that count are left. -/
def Tracked (keep : Bool) (g : TypeGraph) (id : NodeId) (node : Node)
    (members : List InterfaceMember) (supers : List NodeId) (excuse : Nat → Prop) (pruned : Prop)
    (w : Reduction) : Prop :=
  ∃ members' supers', w.graph.get? id = some { node with kind := .interface members' supers' } ∧
    Placewise (fun i m m' => m.Becomes (excuse i) g.Tells w.Tells m') (kept keep members)
      (kept keep members') ∧
    List.Forall₂ (fun s s' => ∀ name, g.Holds s name → w.graph.Holds s' name ∧ w.Free s')
      supers supers' ∧
    (pruned → kept keep members' = members')

section Tracked

variable {g : TypeGraph} {excuse : Nat → Prop} {pruned : Prop}

theorem Tracked.weaken {pruned' : Prop}
    (h : w.Tracked keep g id node members supers excuse pruned) (hp : pruned' → pruned) :
    w.Tracked keep g id node members supers excuse pruned' := by
  obtain ⟨members', supers', get, hmembers, hsupers, hpruned⟩ := h
  exact ⟨members', supers', get, hmembers, hsupers, fun h => hpruned (hp h)⟩

theorem Tracked.reduce_of_ne
    (h : w.Tracked keep g id node members supers excuse pruned) {j : NodeId} (hj : id ≠ j) :
    (w.reduce keep j).Tracked keep g id node members supers excuse pruned := by
  obtain ⟨members', supers', get, hmembers, hsupers, hpruned⟩ := h
  have hkeeps := w.keeps_reduce keep j
  refine ⟨members', supers', (get?_reduce_of_ne (w.graph.lt_size_of_get? get) hj).trans get,
    hmembers.mono fun i m m' hm => ?_, hsupers.imp fun s s' hs name hname => ?_, hpruned⟩
  · exact { hm with comment := fun c hc => hkeeps.tells (hm.comment c hc) }
  · exact hkeeps.holds (hs name hname)

/-- A step at the interface itself leaves only members that count. -/
theorem Tracked.reduce_self (h : w.Tracked keep g id node members supers excuse pruned)
    (hw : w.Contained) (he : ∀ i, w.LoosensAt keep id i → excuse i) :
    (w.reduce keep id).Tracked keep g id node members supers excuse True := by
  obtain ⟨members', supers', get, hmembers, hsupers, -⟩ := h
  have hkeeps := w.keeps_reduce keep id
  obtain ⟨members'', get', hstep⟩ := exists_reduce_interface keep hw get
  have hkept := kept_eq_self (hstep.mono fun _ _ _ hm => hm.unreachable)
  refine ⟨members'', _, get', ?_, ?_, fun _ => hkept⟩
  · rw [hkept]
    exact hmembers.trans hstep fun i m m₁ m' _ hm hm' =>
      (hm.trans hm').mono fun h => h.elim (fun h => h) (he i)
  · rw [List.forall₂_map_right_iff]
    refine hsupers.imp fun s s' hs name hname => ?_
    rw [(hs name hname).2.resolve_eq]
    exact hkeeps.holds (hs name hname)

theorem Tracked.foldl {ids : List NodeId}
    (h : w.Tracked keep g id node members supers excuse pruned) (hw : w.Contained)
    (he : ∀ before after, ids = before ++ id :: after → ∀ i,
      (before.foldl (reduce keep) w).LoosensAt keep id i → excuse i) :
    (ids.foldl (reduce keep) w).Tracked keep g id node members supers excuse
      (pruned ∨ id ∈ ids) := by
  induction ids generalizing w pruned with
  | nil => simpa using h
  | cons j rest ih =>
      have hrest : ∀ before after, rest = before ++ id :: after → ∀ i,
          (before.foldl (reduce keep) (w.reduce keep j)).LoosensAt keep id i → excuse i :=
        fun before after heq => he (j :: before) after (congrArg (j :: ·) heq)
      have hw' := (w.keeps_reduce keep j).contained hw
      by_cases hj : id = j
      · subst hj
        exact (ih (h.reduce_self hw fun i => he [] rest rfl i) hw' hrest).weaken fun _ => .inl trivial
      · exact (ih (h.reduce_of_ne hj) hw' hrest).weaken fun hp =>
          hp.imp_right fun hmem => (List.mem_cons.1 hmem).resolve_left hj

theorem Tracked.sweep {limit : Nat}
    (h : w.Tracked keep g id node members supers excuse pruned) (hw : w.Contained)
    (he : ∀ v i, Comes keep id limit w v → v.LoosensAt keep id i → excuse i) :
    (w.sweep keep).Tracked keep g id node members supers excuse (pruned ∨ id ∈ w.postorder) :=
  h.foldl hw fun _ _ heq i => he _ i (.now heq)

theorem Tracked.settle (limit : Nat) (h : w.Tracked keep g id node members supers excuse pruned)
    (hw : w.Contained)
    (he : ∀ v i, Comes keep id limit w v → v.LoosensAt keep id i → excuse i) :
    (settle keep limit w).Tracked keep g id node members supers excuse
      (pruned ∨ id ∈ w.postorder) := by
  induction limit generalizing w pruned with
  | zero => exact h.sweep hw he
  | succ limit ih =>
      simp only [Reduction.settle]
      split
      · exact h.sweep hw he
      · rename_i hchanged
        exact (ih (h.sweep hw he) ((w.keeps_foldl keep w.postorder).contained hw) fun v i hv =>
          he v i (.later hchanged hv)).weaken .inl

/-- At the start an interface is as it is. -/
theorem tracked_start (get : g.get? id = some node) (kind : node.kind = .interface members supers) :
    Tracked keep g id node members supers excuse False ⟨g, []⟩ := by
  have hnode : node = { node with kind := .interface members supers } := by rw [← kind]
  have hfree : ∀ i, (⟨g, []⟩ : Reduction).Free i := fun _ _ => List.not_mem_nil
  exact ⟨members, supers, hnode ▸ get,
    .refl (fun _ m => InterfaceMember.becomes_node fun _ hc => ⟨hc, hfree _⟩) _,
    List.forall₂_same.2 fun s _ _ hs => ⟨hs, hfree s⟩, nofun⟩

/-- What is left of an interface in the result. -/
theorem Tracked.compact (h : w.Tracked keep g id node members supers excuse True)
    (hid : id ∈ w.order) : ∃ members' supers',
      (w.graph.get? id).map w.renumber = some { node with kind := .interface members' supers' } ∧
      List.Forall₂ (fun s s' => ∀ name, g.Holds s name → w.compact.Holds s' name) supers supers' ∧
      Placewise (fun i m m' => m.Becomes (excuse i) g.Tells w.compact.Tells m')
        (kept keep members) members' := by
  obtain ⟨members', supers', get, hmembers, hsupers, hpruned⟩ := h
  rw [hpruned trivial] at hmembers
  have hchild : ∀ c ∈ (Kind.interface members' supers').children, w.resolve c ∈ w.order :=
    fun c hc => w.child_mem_order hid get hc
  refine ⟨members'.map fun m => { m with node := w.number m.node }, supers'.map w.number, by rw [get]; rfl,
    ?_, ?_⟩
  · rw [List.forall₂_map_right_iff]
    have hmem : ∀ s ∈ supers', w.resolve s ∈ w.order := fun s hs =>
      hchild s (List.mem_append_right _ hs)
    refine ((List.forall₂_and_left _ _).2 ⟨hmem, hsupers.flip⟩).flip.imp fun s s' hs n hname => ?_
    obtain ⟨hholds, hfree⟩ := hs.2 n hname
    exact holds_compact (hfree.resolve_eq.symm ▸ hholds) hs.1
  · refine hmembers.trans (Placewise.of_map (r := fun _ m m' =>
      m.Becomes False w.Tells w.compact.Tells m') fun _ m hm =>
        InterfaceMember.becomes_node fun c hc => ?_) fun i m m₁ m' _ hm hm' =>
          (hm.trans hm').mono fun h => h.resolve_right not_false
    obtain ⟨⟨n, hn, hcomment⟩, hfree⟩ := hc
    have hmem := hchild m.node (List.mem_append_left _ (List.mem_map_of_mem hm))
    refine ⟨w.renumber n, ?_, hcomment⟩
    rw [w.get?_compact_number hmem, hfree.resolve_eq, hn]
    rfl

end Tracked

end Reduction

namespace TypeGraph

variable {g : TypeGraph} {keep : Bool}

/-- A simplification comes to the interface `id` when the type of its member at the place `i`, of
those that count, is an unnamed union with a branch `undefined`. -/
def MeetsUndefined (keep : Bool) (g : TypeGraph) (id : NodeId) (i : Nat) : Prop :=
  ∃ w, Reduction.Comes keep id g.size ⟨g, []⟩ w ∧ w.LoosensAt keep id i

/-- A named interface that is still there after a simplification is the same but for its members and
supers. The members that count stay in their places, with their keys and flags and the comments of
their types, and one becomes optional only if its type was or became an unnamed union with
`undefined`. The named supers stay in their places. -/
theorem exists_interface_simplify (keep : Bool) (hn : g.DistinctNames fun _ => True)
    {id id' : NodeId} {node node' : Node} {name : String} {members : List InterfaceMember}
    {supers : List NodeId} (get : g.get? id = some node) (hname : node.name = some name)
    (kind : node.kind = .interface members supers)
    (get' : (g.simplify keep).get? id' = some node') (hname' : node'.name = some name) :
    ∃ members' supers', node' = { node with kind := .interface members' supers' } ∧
      List.Forall₂ (fun s s' => ∀ n, g.Holds s n → (g.simplify keep).Holds s' n) supers supers' ∧
      Placewise (fun i m m' => m.Becomes (g.MeetsUndefined keep id i) g.Tells
        (g.simplify keep).Tells m') (Reduction.kept keep members) members' := by
  set w := Reduction.settle keep g.size ⟨g, []⟩ with hw
  have hstart : (⟨g, []⟩ : Reduction).Contained := fun _ _ _ => List.not_mem_nil
  have hkeeps : Reduction.Keeps ⟨g, []⟩ w := Reduction.keeps_settle keep g.size _
  -- the node of that name is the interface itself
  obtain ⟨j, old, horder, hold, rfl⟩ := w.get?_compact_eq_some get'
  obtain ⟨first, hfirst, hfirstname⟩ := hkeeps.named j old name hold hname'
  obtain rfl : j = id := hn j id first node name trivial trivial hfirst get hfirstname hname
  have hmem := List.mem_of_getElem? horder
  have hreaches := reaches_of_mem_order hmem (g.lt_size_of_get? get)
  have hpost : j ∈ Reduction.postorder ⟨g, []⟩ := by
    refine Reduction.mem_postorder_of_mem_order j ?_
    rw [Reduction.order_of_graph]
    exact g.mem_reachable_iff.2 hreaches
  have hbegin : Reduction.Tracked keep g j node members supers (g.MeetsUndefined keep j) False
      ⟨g, []⟩ := Reduction.tracked_start get kind
  have htracked := hbegin.settle g.size hstart fun v i hv hl => ⟨v, hv, hl⟩
  obtain ⟨members', supers', hnode, hsupers, hmembers⟩ :=
    (htracked.weaken fun _ => .inr hpost).compact hmem
  rw [hold] at hnode
  exact ⟨members', supers', Option.some.inj hnode, hsupers, hmembers⟩

/-- An account with a name that may be `undefined`, a definition and a super. -/
def account : TypeGraph where
  nodes := #[
    some {
      kind := .interface [
        { key := "id", node := 1, required := true },
        { key := "nick", node := 2, required := true },
        { key := "Unused", node := 4, unreachable := true }] [5]
      name := some "Account"
      comment := some "Who pays." },
    some { kind := .string },
    some { kind := .union [1, 3], comment := some "What others see." },
    some { kind := .customType "undefined" },
    some { kind := .number, name := some "Unused" },
    some { kind := .interface [] [], name := some "Base" }]

theorem distinctNames_account : account.DistinctNames fun _ => True := by
  have hall : ∀ a < 6, ∀ b < 6, ∀ node ∈ account.get? a, ∀ node' ∈ account.get? b,
      node.name = node'.name → node.name.isSome → a = b := by decide
  intro a b node node' name _ _ get get' hname hname'
  exact hall a (account.lt_size_of_get? get) b (account.lt_size_of_get? get') node get node' get'
    (hname.trans hname'.symm) (by simp [hname])

/-- The name is optional afterwards, and the definition is gone. -/
theorem exists_interface_simplify_account : ∃ members' supers',
    (account.simplify false).get? 0 = some {
      kind := .interface members' supers', name := some "Account", comment := some "Who pays." } ∧
    List.Forall₂ (fun s s' => ∀ n, account.Holds s n → (account.simplify false).Holds s' n)
      [5] supers' ∧
    Placewise (fun i (m m' : InterfaceMember) => m.Becomes (account.MeetsUndefined false 0 i)
      account.Tells (account.simplify false).Tells m')
      [{ key := "id", node := 1, required := true }, { key := "nick", node := 2, required := true }]
      members' := by
  have get' : (account.simplify false).get? 0 = some {
      kind := .interface [
        { key := "id", node := 1, required := true }, { key := "nick", node := 2 }] [3]
      name := some "Account"
      comment := some "Who pays." } := by cbv
  obtain ⟨members', supers', hnode, hsupers, hmembers⟩ :=
    exists_interface_simplify false distinctNames_account (show account.get? 0 = _ from rfl) rfl rfl
      get' rfl
  exact ⟨members', supers', get'.trans (congrArg some hnode), hsupers, hmembers⟩

end TypeGraph

end Typewright
