import Typewright.Proofs.Build.Consistent

/-!
# The primitive steps of a build

`Runs ctx asked s x post` says that the step `x`, started in `s`, keeps the invariant and ends either
with a value as in `post` and no further node under construction, or with a failure that is the
schema's fault. It composes along the steps of a program.
-/

namespace Typewright

/-- Whether a compile failed because of its schema or a reference in it. -/
def CompileError.IsSchemaFault : CompileError → Prop
  | .schema _ _ | .reference _ _ _ => True
  | _ => False

namespace Build

variable {α β : Type} {ctx : BuildContext} {asked : Request → Prop} {s t u : Builder}

/-! ## Composition -/

/-- What a step that succeeds makes of the state. -/
structure Advances (ctx : BuildContext) (asked : Request → Prop) (s t : Builder) : Prop where
  grows : Grows s t
  consistent : Consistent ctx asked t
  inProgress : t.inProgress = s.inProgress

theorem Advances.refl (h : Consistent ctx asked s) : Advances ctx asked s s := ⟨.refl s, h, rfl⟩

theorem Advances.trans (h : Advances ctx asked s t) (h' : Advances ctx asked t u) :
    Advances ctx asked s u :=
  ⟨h.grows.trans h'.grows, h'.consistent, h'.inProgress.trans h.inProgress⟩

/-- What a step that fails makes of the state. -/
structure Breaks (ctx : BuildContext) (asked : Request → Prop) (s : Builder) (e : CompileError)
    (t : Builder) : Prop where
  grows : Grows s t
  consistent : Consistent ctx asked t
  fault : e.IsSchemaFault

/-- A step keeps the invariant, whether it succeeds or fails. -/
def Runs (ctx : BuildContext) (asked : Request → Prop) (s : Builder) (x : Build α)
    (post : α → Builder → Prop) : Prop :=
  Ends x s (fun a t => Advances ctx asked s t ∧ post a t) (Breaks ctx asked s)

section Rules

variable {x : Build α} {post post' : α → Builder → Prop}

theorem Runs.mono (h : Runs ctx asked s x post)
    (hp : ∀ a t, Advances ctx asked s t → post a t → post' a t) :
    Runs ctx asked s x post' :=
  Ends.mono h (fun a t h => ⟨h.1, hp a t h.1 h.2⟩) fun _ _ h => h

theorem Runs.pure (h : Consistent ctx asked s) {a : α} (hp : post a s) :
    Runs ctx asked s (Pure.pure a) post :=
  ⟨.refl h, hp⟩

theorem Runs.throw (h : Consistent ctx asked s) {e : CompileError} (he : e.IsSchemaFault) :
    Runs ctx asked s (throw e : Build α) post :=
  ⟨.refl s, h, he⟩

theorem Runs.bind {y : Build β} {f : β → Build α} {mid : β → Builder → Prop}
    (hy : Runs ctx asked s y mid)
    (hf : ∀ b t, Advances ctx asked s t → mid b t → Runs ctx asked t (f b) post) :
    Runs ctx asked s (y >>= f) post := by
  unfold Runs
  rw [ends_bind]
  refine Ends.mono hy (fun b t h => ?_) fun _ _ h => h
  refine Ends.mono (hf b t h.1 h.2) (fun a u hu => ⟨h.1.trans hu.1, hu.2⟩) fun e u hu => ?_
  exact ⟨h.1.grows.trans hu.grows, hu.consistent, hu.fault⟩

/-- Reading the state. -/
theorem Runs.get {f : Builder → Build α} (h : Runs ctx asked s (f s) post) :
    Runs ctx asked s (MonadState.get >>= f) post := by
  unfold Runs
  rw [ends_bind]
  exact h

end Rules

/-! ## Changes of the state -/

theorem get?_none_of_keeps (hk : Keeps s t) {i : NodeId} (h : t.graph.get? i = none) :
    s.graph.get? i = none := by
  cases hs : s.graph.get? i with
  | none => rfl
  | some node =>
      obtain ⟨_, ht⟩ := hk.built i node hs
      rw [h] at ht
      cases ht

theorem get?_none_of_alike {i : NodeId}
    (hslot : ∀ node, t.graph.get? i = some node → ∃ old, s.graph.get? i = some old ∧ Alike old node)
    (h : s.graph.get? i = none) : t.graph.get? i = none := by
  cases ht : t.graph.get? i with
  | none => rfl
  | some node =>
      obtain ⟨old, hold, -⟩ := hslot node ht
      rw [h] at hold
      cases hold

theorem Consistent.references_keeps (h : Consistent ctx asked s) (hk : Keeps s t)
    (heq : t.references = s.references) (name : String) (i : NodeId)
    (hl : t.references.lookup name = some i) : Leaf t (.reference (externalText name)) i :=
  (h.references name i (heq ▸ hl)).keeps hk

theorem Consistent.processed_keeps (h : Consistent ctx asked s) (hk : Keeps s t) {id : Fragment}
    {i : NodeId} (hl : s.processed.lookup id = some i)
    (hslot : ∀ node, t.graph.get? i = some node →
      ∃ old, s.graph.get? i = some old ∧ Alike old node) :
    i < t.graph.size ∧ ctx.schemas.refs.lookup id = none ∧ ∃ schema, Occurs ctx asked id schema ∧
      ∀ node, t.graph.get? i = some node → Describes ctx t id schema node.kind := by
  obtain ⟨hi, hr, schema, ho, hd⟩ := h.processed id i hl
  refine ⟨Nat.lt_of_lt_of_le hi hk.size, hr, schema, ho, fun node hn => ?_⟩
  obtain ⟨old, hold, hkind, -⟩ := hslot node hn
  exact hkind ▸ (hd old hold).keeps hk

/-- Nodes that stay alike keep where their names come from. -/
theorem Consistent.sourced_keeps (h : Consistent ctx asked s) (hk : Keeps s t)
    (heq : t.processed = s.processed) {i : NodeId} {node : Node} (hn : t.graph.get? i = some node)
    (hslot : ∃ old, s.graph.get? i = some old ∧ Alike old node) : Sourced ctx asked t i node := by
  obtain ⟨old, hold, -⟩ := hslot
  obtain ⟨comment, hnew⟩ := hk.built i old hold
  obtain rfl := Option.some.inj (hn.symm.trans hnew)
  rw [Sourced, heq]
  refine (h.sourced i old hold).imp_left ?_
  rintro ⟨id, schema, isRoot, hl, ho, hmet, htitled, hback⟩
  exact ⟨id, schema, isRoot, hl, ho, hmet, htitled, fun hnone hname =>
    hk.needsName i (hback hnone hname)⟩

/-- A change of the state that leaves the slots alike. -/
theorem Advances.of_alike (h : Consistent ctx asked s) (hk : Keeps s t)
    (hsize : t.graph.size = s.graph.size) (hprocessed : t.processed = s.processed)
    (hreferences : ∀ name i, t.references.lookup name = some i →
      Leaf t (.reference (externalText name)) i) (hin : t.inProgress = s.inProgress)
    (hslot : ∀ i node, t.graph.get? i = some node →
      ∃ old, s.graph.get? i = some old ∧ Alike old node) : Advances ctx asked s t where
  inProgress := hin
  grows :=
    { toKeeps := hk
      unbuilt := fun i _ hn => get?_none_of_alike (hslot i) hn
      names := fun i node name hi hn =>
        absurd (t.graph.lt_size_of_get? hn) (Nat.not_lt.2 (hsize ▸ hi)) }
  consistent :=
    { toShaped := h.toShaped.alike hk hslot
      processed := fun id i hl => h.processed_keeps hk (hprocessed ▸ hl) (hslot i)
      separate := fun id id' i hl hl' => h.separate id id' i (hprocessed ▸ hl) (hprocessed ▸ hl')
      references := hreferences
      pending := fun i => by
        rw [hin, hsize, h.pending i]
        exact and_congr_right fun _ => ⟨get?_none_of_alike (hslot i), get?_none_of_keeps hk⟩
      sourced := fun i node hn => h.sourced_keeps hk hprocessed hn (hslot i node hn) }

/-- A new node of a kind without parts. -/
theorem Advances.of_add (h : Consistent ctx asked s) {kind : Kind} (hloose : Loose ctx kind)
    (hgraph : t.graph = (s.graph.add { kind }).2) (hprocessed : t.processed = s.processed)
    (hreferences : t.references = s.references) (hin : t.inProgress = s.inProgress)
    (hneeds : t.needsName = s.needsName) (hused : t.usedNames = s.usedNames) :
    Advances ctx asked s t ∧ Leaf t kind s.graph.size := by
  have hkind := hloose.children
  have hnew : t.graph.get? s.graph.size = some { kind } := hgraph ▸ s.graph.get?_add_self _
  have hold : ∀ i, i ≠ s.graph.size → t.graph.get? i = s.graph.get? i :=
    fun i hi => hgraph ▸ s.graph.get?_add_of_ne hi
  have hsize : t.graph.size = s.graph.size + 1 := hgraph ▸ s.graph.size_add _
  have hk : Keeps s t :=
    { size := by omega
      built := fun i node hn =>
        ⟨node.comment, by rw [hold i (Nat.ne_of_lt (s.graph.lt_size_of_get? hn)), hn]⟩
      processed := fun _ _ h => hprocessed ▸ h
      references := fun _ _ h => hreferences ▸ h
      needsName := fun _ h => hneeds ▸ h
      usedNames := fun _ h => hused ▸ h }
  have hslot : ∀ i node, i ≠ s.graph.size → t.graph.get? i = some node →
      ∃ old, s.graph.get? i = some old ∧ Alike old node :=
    fun i node hi hn => ⟨node, hold i hi ▸ hn, rfl, rfl⟩
  refine ⟨⟨⟨hk, fun i hi hn => by rw [hold i (Nat.ne_of_lt hi), hn], ?_⟩, ?_, hin⟩, ?_⟩
  · intro i node name hi hn hname
    have heq : i = s.graph.size :=
      Nat.le_antisymm (Nat.lt_succ_iff.1 (hsize ▸ t.graph.lt_size_of_get? hn : i < _ + 1)) hi
    subst heq
    obtain rfl := Option.some.inj (hnew.symm.trans hn)
    cases hname
  · refine ⟨?_, fun id i hl => ?_, hprocessed ▸ h.separate, h.references_keeps hk hreferences,
      fun i => ?_, fun i node hn => ?_⟩
    · refine h.toShaped.insert hk hnew hslot (.of_childless hkind) (fun _ hname => by cases hname) ?_
      refine fun _ => ⟨hkind ▸ List.not_mem_nil, fun i old ho hmem => ?_⟩
      exact absurd ((h.fits i old ho).children _ hmem).1 (Nat.lt_irrefl _)
    · have hl := hprocessed ▸ hl
      exact h.processed_keeps hk hl fun node hn =>
        hslot i node (Nat.ne_of_lt (h.processed id i hl).1) hn
    · rw [hin, h.pending i, hsize]
      by_cases hi : i = s.graph.size
      · simp [hi, hnew]
      · rw [hold i hi]
        exact and_congr_left fun _ =>
          ⟨Nat.lt_succ_of_lt, fun h => Nat.lt_of_le_of_ne (Nat.le_of_lt_succ h) hi⟩
    · by_cases hi : i = s.graph.size
      · subst hi
        obtain rfl := Option.some.inj (hnew.symm.trans hn)
        exact .inr ⟨rfl, fun id hl =>
          Nat.lt_irrefl _ (h.processed id _ (hprocessed ▸ hl)).1, hloose⟩
      · exact h.sourced_keeps hk hprocessed hn (hslot i node hi hn)
  · exact ⟨{ kind }, hnew, rfl, rfl⟩

/-! ## Nodes and names -/

theorem runs_add (h : Consistent ctx asked s) {kind : Kind} (hloose : Loose ctx kind) :
    Runs ctx asked s (add kind) fun i t => Leaf t kind i :=
  Advances.of_add h hloose rfl rfl rfl rfl rfl rfl

theorem runs_addLiterals (h : Consistent ctx asked s) (values : List Json) :
    Runs ctx asked s (addLiterals values) fun nodes t =>
      List.Forall₂ (fun value node => Leaf t (.literal value) node) values nodes := by
  unfold addLiterals
  induction values generalizing s with
  | nil => exact .pure h .nil
  | cons value rest ih =>
      rw [List.mapM_cons]
      refine (runs_add h (.literal value)).bind fun node t ht hnode => ?_
      refine (ih ht.consistent).bind fun nodes u hu hnodes => ?_
      exact .pure hu.consistent (.cons (hnode.keeps hu.grows.toKeeps) hnodes)

/-- A name that is given out and waits for its node. -/
def Reserved (s : Builder) (name : String) : Prop :=
  Named s name ∧ ∀ i old, s.graph.get? i = some old → old.name ≠ some name

theorem Reserved.grows {name : String} (h : Reserved s name) (hg : Grows s t) :
    Reserved t name := by
  obtain ⟨⟨hclean, hused⟩, hfree⟩ := h
  refine ⟨⟨hclean, hg.usedNames name hused⟩, fun i node hn hname => ?_⟩
  rcases hg.of_built hn with ⟨old, hold, -, hsame⟩ | hi
  · exact hfree i old hold (hsame ▸ hname)
  · exact hg.names i node name hi hn hname hused

theorem reserved_fresh (h : Shaped s) (hint : String) :
    Reserved { s with usedNames := (Identifier.reserve hint s.usedNames).2 }
      (Identifier.fresh hint s.usedNames) := by
  refine ⟨⟨Identifier.clean_fresh _ _, ?_⟩, fun i old hold hname => ?_⟩
  · exact List.mem_append_right _ (List.mem_singleton_self _)
  · exact Identifier.fresh_not_mem _ _ (h.names i old _ hold hname).2

theorem runs_freshName (h : Consistent ctx asked s) (hint : String) :
    Runs ctx asked s (freshName hint) fun name t =>
      (Reserved t name ∧ name ∉ s.usedNames) ∧ name = Identifier.fresh hint s.usedNames := by
  have hk : Keeps s { s with usedNames := (Identifier.reserve hint s.usedNames).2 } :=
    { Keeps.refl s with usedNames := fun _ h => List.mem_append_left _ h }
  refine ⟨.of_alike h hk rfl rfl (h.references_keeps hk rfl) rfl fun i node hn =>
    ⟨node, hn, rfl, rfl⟩, ⟨reserved_fresh h.toShaped hint, Identifier.fresh_not_mem _ _⟩, rfl⟩

theorem runs_external (h : Consistent ctx asked s) {site : Fragment} {name : String}
    (hr : ctx.schemas.resolve site = .ok (.external name)) :
    Runs ctx asked s (external name) fun i t => t.references.lookup name = some i ∧ Known t i := by
  refine .get ?_
  split
  · rename_i i hl
    obtain ⟨node, hn, -⟩ := h.references name i hl
    exact .pure h ⟨hl, .of_built hn⟩
  · rename_i hl
    set t : Builder :=
      { s with graph := (s.graph.add { kind := .reference (externalText name) }).2 } with ht
    obtain ⟨hadv, hleaf⟩ : Advances ctx asked s t ∧
        Leaf t (.reference (externalText name)) s.graph.size :=
      Advances.of_add h (.external hr) rfl rfl rfl rfl rfl rfl
    set u : Builder := { t with references := s.references ++ [(name, s.graph.size)] } with hu
    have hlookup : ∀ other, u.references.lookup other =
        (s.references.lookup other).or ([(name, s.graph.size)].lookup other) :=
      fun other => List.lookup_append
    have hk : Keeps t u :=
      { Keeps.refl t with
        references := fun other i hother => by
          rw [hlookup, show s.references.lookup other = some i from hother]
          rfl }
    have hend : Advances ctx asked t u := by
      refine .of_alike hadv.consistent hk rfl rfl (fun other i hother => ?_) rfl
        fun i node hn => ⟨node, hn, rfl, rfl⟩
      rw [hlookup] at hother
      cases hold : s.references.lookup other with
      | some j =>
          rw [hold, Option.some_or, Option.some.injEq] at hother
          exact hother ▸ hadv.consistent.references other j hold
      | none =>
          rw [hold, Option.none_or, List.lookup_cons] at hother
          split at hother
          · rename_i heq
            obtain rfl := eq_of_beq heq
            exact Option.some.inj hother ▸ hleaf
          · cases hother
    obtain ⟨node, hn, -⟩ := hleaf
    have hfound : u.references.lookup name = some s.graph.size := by
      rw [hlookup, hl, Option.none_or, List.lookup_cons_self]
    exact ⟨hadv.trans hend, hfound, .of_built hn⟩

/-! ## Comments and marks -/

theorem runs_appendComment (h : Consistent ctx asked s) (node : NodeId) (extra : String) :
    Runs ctx asked s (appendComment node extra) fun _ _ => True := by
  obtain ⟨f, hcomment, hf⟩ : ∃ f : Node → Node, (∀ n, ∃ comment, f n = { n with comment }) ∧
      appendComment node extra = modify fun s => { s with graph := s.graph.modify node f } :=
    ⟨_, fun n => ⟨_, rfl⟩, rfl⟩
  rw [hf]
  refine ⟨?_, trivial⟩
  have hk : Keeps s { s with graph := s.graph.modify node f } :=
    { Keeps.refl s with
      size := Nat.le_of_eq (s.graph.size_modify node f).symm
      built := fun i old hold => by
        rw [TypeGraph.get?_modify]
        split
        · rename_i hi
          obtain ⟨comment, hcomment⟩ := hcomment old
          exact ⟨comment, by rw [← hi, hold, Option.map_some, hcomment]⟩
        · exact ⟨old.comment, hold⟩ }
  refine .of_alike h hk (s.graph.size_modify node f) rfl (h.references_keeps hk rfl) rfl
    fun i n hi => ?_
  rw [TypeGraph.get?_modify] at hi
  split at hi
  · rename_i hin
    obtain ⟨old, hold, rfl⟩ := Option.map_eq_some_iff.1 hi
    obtain ⟨comment, hcomment⟩ := hcomment old
    rw [hcomment, hin]
    exact ⟨old, hold, rfl, rfl⟩
  · exact ⟨n, hi, rfl, rfl⟩

theorem runs_markReached (h : Consistent ctx asked s) {node : NodeId} (hlt : node < s.graph.size) :
    Runs ctx asked s (markReached node) fun _ t => Known t node := by
  unfold Runs markReached
  rw [ends_modify]
  by_cases hin : node ∈ s.inProgress
  · rw [if_pos hin]
    have hk : Keeps s { s with needsName := node :: s.needsName } :=
      { Keeps.refl s with needsName := fun _ h => List.mem_cons_of_mem _ h }
    exact ⟨.of_alike h hk rfl rfl (h.references_keeps hk rfl) rfl fun i n hi => ⟨n, hi, rfl, rfl⟩,
      hlt, fun _ => List.mem_cons_self⟩
  · rw [if_neg hin]
    exact ⟨.refl h, hlt, fun hn => absurd ((h.pending node).2 ⟨hlt, hn⟩) hin⟩

theorem runs_checkSuper (h : Consistent ctx asked s) (site : Fragment) (node : NodeId) :
    Runs ctx asked s (checkSuper site node) fun _ t => t.graph.NamedInterface node := by
  refine .get ?_
  split
  · exact .throw h trivial
  · rename_i n hn
    split
    · rename_i name hkind hname
      exact .pure h ⟨n, _, _, hn, by simp [hname], hkind⟩
    · exact .throw h trivial

theorem runs_enumKind (h : Consistent ctx asked s) (ms : Members) (values : List Json)
    (name : Option String) :
    Runs ctx asked s (enumKind ms values name) fun kind t =>
      DescribesEnum t ms values kind ∧ Fits t kind := by
  have hunion : ∀ {t values nodes}, List.Forall₂ (fun value node => Leaf t (.literal value) node)
      values nodes → Fits t (.union nodes) := by
    intro t values nodes hf
    refine ⟨fun c hc => ?_, nofun, nofun⟩
    obtain ⟨value, -, n, hn, -⟩ := exists_of_forall₂_left hf.flip hc
    exact .of_built hn
  have henum : ∀ {t values nodes} {members : List EnumMember},
      List.Forall₂ (fun value node => Leaf t (.literal value) node) values nodes →
      (∀ m ∈ members, m.node ∈ nodes) → Fits t (.enum members) := by
    intro t values nodes members hf hm
    have hplain : ∀ m ∈ members, t.graph.PlainLiteral m.node := by
      intro m hmem
      obtain ⟨value, -, n, hn, hname, hkind⟩ := exists_of_forall₂_left hf.flip (hm m hmem)
      exact ⟨n, value, hn, hname, hkind⟩
    refine ⟨fun c hc => ?_, nofun, fun _ heq => ?_⟩
    · obtain ⟨m, hmem, rfl⟩ := List.mem_map.1 hc
      obtain ⟨n, value, hn, -⟩ := hplain m hmem
      exact .of_built hn
    · obtain rfl := Kind.enum.inj heq
      exact hplain
  unfold enumKind
  split
  · rename_i names heq
    refine (runs_addLiterals h _).bind fun nodes t ht hf => .pure ht.consistent ⟨?_, henum hf ?_⟩
    · rw [DescribesEnum, heq]
      exact ⟨nodes, hf, rfl⟩
    · intro m hm
      obtain ⟨⟨⟨key, value⟩, node⟩, hz, rfl⟩ := List.mem_map.1 hm
      exact (List.of_mem_zip hz).2
  · rename_i heq
    refine (runs_addLiterals h _).bind fun nodes t ht hf => ?_
    split
    · refine .pure ht.consistent ⟨?_, henum hf ?_⟩
      · rw [DescribesEnum, heq]
        exact ⟨nodes, hf, .inr rfl⟩
      · intro m hm
        obtain ⟨⟨key, node⟩, hz, rfl⟩ := List.mem_map.1 hm
        exact (List.of_mem_zip hz).2
    · refine .pure ht.consistent ⟨?_, hunion hf⟩
      rw [DescribesEnum, heq]
      exact ⟨nodes, hf, .inl rfl⟩

end Build

end Typewright
