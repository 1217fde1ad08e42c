import Typewright.Proofs.Build.Steps
import Typewright.Proofs.Schema.Form

/-!
# What a visit makes

A visit of a site ends with the node that is found for it. The proof follows the recursion of the
build: while the parts of a fragment are visited its slot is reserved and counts as under
construction, and it is filled when they are done.
-/

namespace Typewright

namespace Build

variable {ctx : BuildContext} {asked : Request → Prop} {s t : Builder}

/-! ## References -/

theorem follow_lookup {g : SchemaGraph} {start current id : Fragment} {hops : Nat}
    (h : g.follow start hops current = .ok (.fragment id)) : g.refs.lookup id = none := by
  induction hops generalizing current with
  | zero => simp [SchemaGraph.follow] at h
  | succ hops ih =>
      rw [SchemaGraph.follow] at h
      split at h
      · obtain rfl := Target.fragment.inj (Except.ok.inj h)
        assumption
      · cases h
      · exact ih h

/-- References are followed to their end unless there are too many. -/
theorem exists_of_follow_error {g : SchemaGraph} {start current : Fragment} {hops : Nat}
    {e : CompileError} (h : g.follow start hops current = .error e) :
    ∃ written, e = .reference start.pointer written (.chainTooLong g.maxDepth) := by
  induction hops generalizing current with
  | zero => exact ⟨_, (Except.error.inj h).symm⟩
  | succ hops ih =>
      rw [SchemaGraph.follow] at h
      split at h
      · cases h
      · cases h
      · exact ih h

theorem follow_error {g : SchemaGraph} {start current : Fragment} {hops : Nat} {e : CompileError}
    (h : g.follow start hops current = .error e) : e.IsSchemaFault := by
  obtain ⟨written, rfl⟩ := exists_of_follow_error h
  trivial

/-! ## A fragment under construction -/

/-- The slot of a fragment is reserved. -/
theorem ends_start (h : Consistent ctx asked s) {id : Fragment} {schema : Json}
    (hl : s.processed.lookup id = none) (hr : ctx.schemas.refs.lookup id = none)
    (ho : Occurs ctx asked id schema) :
    Ends (start id) s (fun node t => node = s.graph.size ∧ Grows s t ∧ Consistent ctx asked t ∧
      t.processed.lookup id = some node ∧ t.graph.size = s.graph.size + 1 ∧
      t.inProgress = node :: s.inProgress ∧ t.usedNames = s.usedNames) fun _ _ => False := by
  obtain ⟨t, ht⟩ : ∃ t : Builder, t =
    { s with
      graph := s.graph.reserve.2
      processed := (id, s.graph.size) :: s.processed
      inProgress := s.graph.size :: s.inProgress } := ⟨_, rfl⟩
  have hend : Ends (start id) s (fun node u => node = s.graph.size ∧ u = t) fun _ _ => False :=
    ⟨rfl, ht ▸ rfl⟩
  refine Ends.mono hend (fun node u hu => ?_) fun _ _ h => h
  obtain ⟨rfl, rfl⟩ := hu
  have hsize : u.graph.size = s.graph.size + 1 := by
    simp [ht, TypeGraph.reserve, TypeGraph.size]
  have hget : ∀ i, u.graph.get? i = s.graph.get? i := fun i => by
    rw [ht]
    exact s.graph.get?_reserve
  have hlookup : ∀ id', u.processed.lookup id' =
      if id' = id then some s.graph.size else s.processed.lookup id' := by
    intro id'
    rw [ht, List.lookup_cons]
    split <;> simp_all
  have hk : Keeps s u :=
    { size := hsize ▸ Nat.le_succ _
      built := fun i node hn => ⟨node.comment, (hget i).trans hn⟩
      processed := fun id' i hi => by
        rw [hlookup, if_neg (by rintro rfl; rw [hl] at hi; cases hi), hi]
      references := fun name i hi => by simpa [ht] using hi
      needsName := fun i hi => by simpa [ht] using hi
      usedNames := fun name hname => by simpa [ht] using hname }
  have hnew : u.graph.get? s.graph.size = none :=
    (hget _).trans (s.graph.get?_eq_none_of_size_le (Nat.le_refl _))
  have hslot : ∀ i node, u.graph.get? i = some node →
      ∃ old, s.graph.get? i = some old ∧ Alike old node :=
    fun i node hn => ⟨node, (hget i) ▸ hn, rfl, rfl⟩
  refine ⟨rfl, ⟨hk, fun i _ hn => (hget i).trans hn, fun i node name hi hn => ?_⟩, ?_, ?_, hsize,
    by rw [ht], by rw [ht]⟩
  · rw [hget, s.graph.get?_eq_none_of_size_le hi] at hn
    cases hn
  · refine ⟨h.toShaped.alike hk hslot, fun id' i hi => ?_, fun id₁ id₂ i h₁ h₂ => ?_,
      h.references_keeps hk (by rw [ht]), fun i => ?_, fun i node hn => ?_⟩
    · rw [hlookup] at hi
      split at hi
      · rename_i hid
        subst hid
        obtain rfl := Option.some.inj hi
        refine ⟨hsize ▸ Nat.lt_succ_self _, hr, schema, ho, fun node hn => ?_⟩
        rw [hnew] at hn
        cases hn
      · exact h.processed_keeps hk hi (hslot i)
    · have hlt : ∀ {id'}, s.processed.lookup id' ≠ some s.graph.size :=
        fun hl => absurd (h.processed _ _ hl).1 (Nat.lt_irrefl _)
      rw [hlookup] at h₁ h₂
      split at h₁ <;> split at h₂
      · simp_all
      · obtain rfl := Option.some.inj h₁
        exact (hlt h₂).elim
      · obtain rfl := Option.some.inj h₂
        exact (hlt h₁).elim
      · exact h.separate id₁ id₂ i h₁ h₂
    · have hmem : i ∈ u.inProgress ↔ i = s.graph.size ∨ i ∈ s.inProgress := by
        rw [ht]
        exact List.mem_cons
      rw [hmem, h.pending i, hget, hsize]
      by_cases hi : i = s.graph.size
      · simp [hi, s.graph.get?_eq_none_of_size_le (Nat.le_refl _)]
      · rw [or_iff_right hi]
        exact and_congr_left fun _ =>
          ⟨Nat.lt_succ_of_lt, fun h => Nat.lt_of_le_of_ne (Nat.le_of_lt_succ h) hi⟩
    · rw [hget] at hn
      rcases h.sourced i node hn with
        ⟨id', schema', isRoot, hi, ho', hmet, htitled, hback⟩ | ⟨hname, hfree, hloose⟩
      · exact .inl ⟨id', schema', isRoot, hk.processed id' i hi, ho', hmet, htitled,
          fun hnone hname => hk.needsName i (hback hnone hname)⟩
      · refine .inr ⟨hname, fun id' hi => ?_, hloose⟩
        rw [hlookup] at hi
        split at hi
        · exact absurd (s.graph.lt_size_of_get? hn) (Option.some.inj hi ▸ Nat.lt_irrefl _)
        · exact hfree id' hi
  · rw [hlookup, if_pos rfl]

/-- A finished node gets a name if one of its parts leads back to it. -/
theorem ends_finishName (h : Shaped s) (node : NodeId) {name : Option String}
    (key : Option String) {used : List String} (hused : ∀ n ∈ used, n ∈ s.usedNames)
    (hname : ∀ n, name = some n → Reserved s n ∧ n ∉ used) :
    Ends (finishName node name key) s (fun name' t =>
      (∃ usedNames, t = { s with inProgress := s.inProgress.filter (· != node), usedNames } ∧
        ∀ n ∈ s.usedNames, n ∈ usedNames) ∧
      (name' = none → node ∉ s.needsName) ∧
      (∀ n, name' = some n → Reserved t n ∧ n ∉ used) ∧
      (∀ n, name = some n → name' = some n) ∧
      (name = none → ∀ n, name' = some n →
        node ∈ s.needsName ∧ ∃ used, n = Identifier.fresh (key.getD "Recursive") used))
      fun _ _ => False := by
  unfold finishName
  rw [ends_bind, ends_modify]
  split
  · rename_i n
    rw [ends_pure]
    exact ⟨⟨s.usedNames, rfl, fun _ h => h⟩, fun hnone => (by cases hnone), hname, fun _ h => h,
      fun hnone => (by cases hnone)⟩
  · rw [ends_bind, ends_get]
    split
    · rename_i hneeds
      rw [ends_bind]
      refine ⟨⟨_, rfl, fun n hn => List.mem_append_left _ hn⟩, fun hnone => ?_, fun n heq => ?_,
        fun _ heq => (by cases heq), fun _ n heq => ⟨hneeds, _, (Option.some.inj heq).symm⟩⟩
      · cases hnone
      · obtain rfl := Option.some.inj heq
        exact ⟨reserved_fresh h _, fun hmem => Identifier.fresh_not_mem _ _ (hused _ hmem)⟩
    · rename_i hneeds
      exact ⟨⟨s.usedNames, rfl, fun _ h => h⟩, fun _ => hneeds, fun n hn => (by cases hn),
        fun _ heq => (by cases heq), fun _ n hn => (by cases hn)⟩

/-- To fill a slot that is open changes no node. -/
theorem keeps_fill {n : NodeId} {node : Node} {inProgress : List NodeId} {usedNames : List String}
    (hn : n < s.graph.size) (hopen : s.graph.get? n = none)
    (hsub : ∀ name ∈ s.usedNames, name ∈ usedNames) :
    Keeps s { s with graph := s.graph.fill n node, inProgress, usedNames } where
  size := Nat.le_of_eq (s.graph.size_fill _ _).symm
  built i old hold := ⟨old.comment, by
    rw [s.graph.get?_fill hn, if_neg (by rintro rfl; rw [hopen] at hold; cases hold), hold]⟩
  processed _ _ h := h
  references _ _ h := h
  needsName _ h := h
  usedNames := hsub

/-- The slot of a finished fragment is filled. -/
theorem advances_fill (h : Consistent ctx asked s) {id : Fragment} {schema : Json} {isRoot : Bool}
    {node : Node} {usedNames : List String} {u : Builder} (hg : Grows s t)
    (hc : Consistent ctx asked t) (hsize : s.graph.size < t.graph.size)
    (hopen : t.graph.get? s.graph.size = none)
    (hl : t.processed.lookup id = some s.graph.size) (hr : ctx.schemas.refs.lookup id = none)
    (hin : t.inProgress = s.graph.size :: s.inProgress) (ho : Occurs ctx asked id schema)
    (hd : Describes ctx t id schema node.kind) (hfits : Fits t node.kind)
    (hneeds : node.name = none → s.graph.size ∉ t.needsName)
    (hmet : Met ctx asked id node.key isRoot) (htitled : Titled ctx id schema isRoot node)
    (hback : nameHint ctx id schema node.key isRoot = none → node.name.isSome →
      s.graph.size ∈ t.needsName)
    (hu : u =
      { t with
        graph := t.graph.fill s.graph.size node
        inProgress := t.inProgress.filter (· != s.graph.size)
        usedNames })
    (hsub : ∀ n ∈ t.usedNames, n ∈ usedNames)
    (hname : ∀ n, node.name = some n →
      Reserved { t with inProgress := t.inProgress.filter (· != s.graph.size), usedNames } n ∧
        n ∉ s.usedNames) :
    Advances ctx asked s u ∧ u.processed.lookup id = some s.graph.size ∧
      u.graph.get? s.graph.size = some node := by
  have hget : ∀ i, u.graph.get? i = if i = s.graph.size then some node else t.graph.get? i := by
    intro i
    rw [hu]
    exact t.graph.get?_fill hsize
  have hself : u.graph.get? s.graph.size = some node := by rw [hget, if_pos rfl]
  have husize : u.graph.size = t.graph.size := by rw [hu]; exact t.graph.size_fill _ _
  have hproc : u.processed = t.processed := by rw [hu]
  have hrefs : u.references = t.references := by rw [hu]
  have hkt : Keeps t u := hu ▸ keeps_fill hsize hopen hsub
  have hslot : ∀ i other, i ≠ s.graph.size → u.graph.get? i = some other →
      ∃ old, t.graph.get? i = some old ∧ Alike old other :=
    fun i other hi hn => ⟨other, by rwa [hget, if_neg hi] at hn, rfl, rfl⟩
  have hlast : ∀ i ∈ s.inProgress, i ≠ s.graph.size := by
    rintro i hi rfl
    exact absurd ((h.pending _).1 hi).1 (Nat.lt_irrefl _)
  have huin : u.inProgress = s.inProgress := by
    rw [hu]
    show t.inProgress.filter (· != s.graph.size) = _
    rw [hin, List.filter_cons_of_neg (by simp), List.filter_eq_self]
    exact fun i hi => by simpa using hlast i hi
  have hshaped : Shaped u := by
    refine hc.toShaped.insert hkt hself hslot (hfits.keeps hkt) (fun n hn => ?_) fun hnone => ?_
    · obtain ⟨⟨⟨hclean, hmem⟩, hfree⟩, -⟩ := hname n hn
      exact ⟨⟨hclean, by rw [hu]; exact hmem⟩, fun i old hold _ => hfree i old hold⟩
    · -- whoever refers to the open slot has marked it, and then it has a name
      have hunknown : ∀ {kind}, Fits t kind → s.graph.size ∉ kind.children :=
        fun hfit hmem => hneeds hnone ((hfit.children _ hmem).2 hopen)
      exact ⟨hunknown hfits, fun i old hold => hunknown (hc.fits i old hold)⟩
  refine ⟨⟨⟨hg.toKeeps.trans hkt, fun i hi hn => ?_, fun i other n hi hn hother => ?_⟩,
    ⟨hshaped, fun id' i hi => ?_, hproc ▸ hc.separate, hc.references_keeps hkt hrefs,
      fun i => ?_, fun i other hn => ?_⟩, huin⟩,
    hproc ▸ hl, hself⟩
  · rw [hget, if_neg (Nat.ne_of_lt hi)]
    exact hg.unbuilt i hi hn
  · by_cases heq : i = s.graph.size
    · subst heq
      obtain rfl := Option.some.inj (hself.symm.trans hn)
      exact (hname n hother).2
    · rw [hget, if_neg heq] at hn
      exact hg.names i other n hi hn hother
  · rw [hproc] at hi
    by_cases heq : i = s.graph.size
    · subst heq
      obtain rfl := hc.separate id' id _ hi hl
      refine ⟨husize ▸ hsize, hr, schema, ho, fun other hn => ?_⟩
      obtain rfl := Option.some.inj (hself.symm.trans hn)
      exact hd.keeps hkt
    · exact hc.processed_keeps hkt hi fun other hn => hslot i other heq hn
  · rw [huin]
    constructor
    · intro hi
      obtain ⟨hlt, hnone⟩ := (hc.pending i).1 (hin ▸ List.mem_cons_of_mem _ hi)
      rw [hget, if_neg (hlast i hi), husize]
      exact ⟨hlt, hnone⟩
    · rintro ⟨hlt, hnone⟩
      have heq : i ≠ s.graph.size := by
        rintro rfl
        rw [hself] at hnone
        cases hnone
      rw [hget, if_neg heq] at hnone
      have hmem := (hc.pending i).2 ⟨husize ▸ hlt, hnone⟩
      rw [hin] at hmem
      exact (List.mem_cons.1 hmem).resolve_left heq
  · by_cases heq : i = s.graph.size
    · subst heq
      obtain rfl := Option.some.inj (hself.symm.trans hn)
      refine .inl ⟨id, schema, isRoot, hproc ▸ hl, ho, hmet, htitled, fun hnone hsome => ?_⟩
      exact hkt.needsName _ (hback hnone hsome)
    · exact hc.sourced_keeps hkt hproc hn (hslot i other heq hn)

/-- A name for the hint, if there is one. -/
theorem runs_hint (h : Consistent ctx asked s) (hint : Option String) :
    Runs ctx asked s (hint.mapM freshName) fun name t =>
      (∀ n, name = some n → Reserved t n ∧ n ∉ s.usedNames) ∧
      name = hint.map (Identifier.fresh · s.usedNames) := by
  cases hint with
  | none => exact .pure h ⟨nofun, rfl⟩
  | some hint =>
      refine (runs_freshName h hint).bind fun name t ht hp => .pure ht.consistent ⟨fun n hn => ?_, ?_⟩
      · obtain rfl := Option.some.inj hn
        exact hp.1
      · exact congrArg some hp.2

/-! ## Visits -/

/-- The nodes of a list of sites. -/
def FindsAll (ctx : BuildContext) (t : Builder) (sites : List Fragment) (cs : List NodeId) : Prop :=
  List.Forall₂ (Finds ctx t) sites cs ∧ ∀ c ∈ cs, Known t c

theorem FindsAll.cons {site : Fragment} {sites : List Fragment} {c : NodeId} {cs : List NodeId}
    (hk : Keeps s t) (hc : Finds ctx s site c ∧ Known s c) (h : FindsAll ctx t sites cs) :
    FindsAll ctx t (site :: sites) (c :: cs) := by
  refine ⟨.cons (hc.1.keeps hk) h.1, fun d hd => ?_⟩
  rcases List.mem_cons.1 hd with rfl | hd
  · exact hc.2.keeps hk
  · exact h.2 d hd

/-- A kind whose children are a list of nodes and that is neither interface nor enum. -/
theorem Fits.of_known {kind : Kind} (h : ∀ c ∈ kind.children, Known s c)
    (hi : ∀ members supers, kind ≠ .interface members supers)
    (he : ∀ members, kind ≠ .enum members) : Fits s kind :=
  ⟨h, fun members supers heq => absurd heq (hi members supers), fun members heq =>
    absurd heq (he members)⟩

mutual
theorem runs_visit (path : List Fragment) (site : Fragment) (schema : Json) (key : Option String)
    (isRoot : Bool) (s : Builder) (h : Consistent ctx asked s) (hmet : Met ctx asked site key isRoot)
    (ho : ctx.schemas.refs.lookup site = none → Occurs ctx asked site schema) :
    Runs ctx asked s (visit ctx path site schema key isRoot) fun i t =>
      Finds ctx t site i ∧ Known t i := by
  rw [visit]
  split
  · rename_i e hr
    exact .throw h (follow_error hr)
  · rename_i name hr
    refine (runs_external h hr).mono fun i t ht hp => ⟨?_, hp.2⟩
    rw [Finds, hr]
    exact hp.1
  · rename_i id hr
    have hfinds : ∀ {t i}, t.processed.lookup id = some i → Finds ctx t site i := by
      intro t i hl
      rw [Finds, hr]
      exact hl
    refine .get ?_
    split
    · rename_i node hl
      refine (runs_markReached h (h.processed id node hl).1).bind fun _ t ht hknown => ?_
      exact .pure ht.consistent ⟨hfinds (ht.grows.processed _ _ hl), hknown⟩
    · rename_i hl
      split
      · exact .throw h trivial
      · rename_i hp
        split
        · rename_i hs
          refine (runs_build path id schema key isRoot hp s h (hmet.target hr) hl (follow_lookup hr)
            ?_).mono ?_
          · exact hs ▸ ho (hs ▸ follow_lookup hr)
          · rintro i t - ⟨hb, node, hn, -⟩
            exact ⟨hfinds hb, .of_built hn⟩
        · rename_i hs
          split
          · exact .throw h trivial
          · rename_i schema' hg
            have ht := (ctx.schemas.resolve_eq_or_mem hr).resolve_left hs
            refine (runs_build path id schema' key isRoot hp s h (hmet.target hr) hl
              (follow_lookup hr) (.target ht hg)).mono ?_
            rintro i t - ⟨hb, node, hn, -⟩
            exact ⟨hfinds hb, .of_built hn⟩
termination_by (remaining ctx path, sizeOf schema, openVariants path site schema, 3)
decreasing_by
  · rename_i hr _ _ hp hs _ _ _
    exact .left _ _ (remaining_cons_lt ((ctx.schemas.resolve_eq_or_mem hr).resolve_left hs) hp)
  · rename_i hs
    subst hs
    exact lex_of_le (remaining_cons_le ctx _ path) (.right _ (.right _ (by omega)))

theorem runs_build (path : List Fragment) (id : Fragment) (schema : Json) (key : Option String)
    (isRoot : Bool) (hp : id ∉ path) (s : Builder) (h : Consistent ctx asked s)
    (hmet : Met ctx asked id key isRoot) (hl : s.processed.lookup id = none)
    (hr : ctx.schemas.refs.lookup id = none) (ho : Occurs ctx asked id schema) :
    Runs ctx asked s (build ctx path id schema key isRoot hp) fun i t =>
      t.processed.lookup id = some i ∧
        ∃ node, t.graph.get? i = some node ∧ Titled ctx id schema isRoot node := by
  rw [build]
  split
  case isFalse => exact .throw h trivial
  rename_i hv
  unfold Runs
  rw [ends_bind]
  refine Ends.mono (ends_start h hl hr ho) (fun node s₁ h₁ => ?_) fun _ _ h => h.elim
  obtain ⟨rfl, hg₁, hc₁, hl₁, hsize₁, hin₁, hused₁⟩ := h₁
  rw [ends_bind]
  refine Ends.mono (runs_hint hc₁ _) (fun name s₂ h₂ => ?_) fun e t hb =>
    ⟨hg₁.trans hb.grows, hb.consistent, hb.fault⟩
  obtain ⟨ha₂, hname₂, hhint₂⟩ := h₂
  rw [ends_bind]
  refine Ends.mono (runs_parts path id schema name key hp hv s₂ ha₂.consistent ⟨isRoot, hmet⟩ hr ho)
    (fun kind s₃ h₃ => ?_) fun e t hb =>
    ⟨(hg₁.trans ha₂.grows).trans hb.grows, hb.consistent, hb.fault⟩
  obtain ⟨ha₃, hd₃, hfits₃⟩ := h₃
  have hg := (hg₁.trans ha₂.grows).trans ha₃.grows
  have ha := ha₂.trans ha₃
  have hlt₁ : s.graph.size < s₁.graph.size := hsize₁ ▸ Nat.lt_succ_self _
  rw [ends_bind]
  refine Ends.mono (ends_finishName ha₃.consistent.toShaped s.graph.size key hg.usedNames
    fun n hn => ?_) (fun name' s₄ h₄ => ?_) fun _ _ h => h.elim
  · obtain ⟨hres, hnew⟩ := hname₂ n hn
    exact ⟨hres.grows ha₃.grows, hused₁ ▸ hnew⟩
  · obtain ⟨⟨usedNames, rfl, hsub⟩, hneeds, hname₄, hkept, hnamed⟩ := h₄
    rw [ends_bind, ends_modify, ends_pure]
    set node : Node := ⟨kind, name', description id schema, key⟩
    have hd : Describes ctx s₃ id schema node.kind := hd₃
    have htitled : Titled ctx id schema isRoot node := by
      unfold Titled
      split
      · rename_i hint heq
        rw [heq] at hhint₂
        exact ⟨_, hkept _ hhint₂⟩
      · rename_i heq
        rw [heq] at hhint₂
        exact fun n hn => (hnamed hhint₂ n hn).2
    have hback : nameHint ctx id schema node.key isRoot = none → node.name.isSome →
        s.graph.size ∈ s₃.needsName := by
      intro heq hsome
      obtain ⟨n, hn⟩ := Option.isSome_iff_exists.1 hsome
      have heq : nameHint ctx id schema key isRoot = none := heq
      rw [heq] at hhint₂
      exact (hnamed hhint₂ n hn).1
    obtain ⟨hadv, hlast, hself⟩ := advances_fill h hg
      ha₃.consistent (Nat.lt_of_lt_of_le hlt₁ ha.grows.size)
      (ha.grows.unbuilt _ hlt₁ ((hc₁.pending _).1 (hin₁ ▸ List.mem_cons_self)).2)
      (ha.grows.processed _ _ hl₁) hr (ha.inProgress.trans hin₁) ho hd hfits₃ hneeds hmet
      htitled hback rfl hsub hname₄
    exact ⟨hadv, hlast, node, hself, htitled⟩
termination_by
  (remaining ctx (id :: path), sizeOf schema, openVariants path id schema, 2)
decreasing_by exact .right _ (.right _ (.right _ (by omega)))

theorem runs_parts (path : List Fragment) (id : Fragment) (schema : Json)
    (name key : Option String) (hp : id ∉ path) (hv : id.variant ∈ Schema.variants schema)
    (s : Builder) (h : Consistent ctx asked s) (hmet : ∃ isRoot, Met ctx asked id key isRoot)
    (hr : ctx.schemas.refs.lookup id = none) (ho : Occurs ctx asked id schema) :
    Runs ctx asked s (parts ctx path id schema name key hp hv) fun kind t =>
      Describes ctx t id schema kind ∧ Fits t kind := by
  have hpart : ∀ {f}, Schema.form ctx.options.unreachableDefinitions id.variant schema = f →
      f ≠ .any → f ≠ .never → f ≠ .invalid →
      ∃ ms, Occurs ctx asked id (.object ms) ∧ schema = .object ms ∧ f.ComesFrom ms := by
    intro f hf ha hn hi
    rcases Schema.exists_members_of_form _ hf with ⟨ms, rfl, hc⟩ | h | h | h
    · exact ⟨ms, ho, rfl, hc⟩
    · exact absurd h ha
    · exact absurd h hn
    · exact absurd h hi
  have hleaf : ∀ {kind : Kind}, kind.children = [] → Describes ctx s id schema kind →
      Runs ctx asked s (pure kind) fun kind t => Describes ctx t id schema kind ∧ Fits t kind :=
    fun hk hd => .pure h ⟨hd, .of_childless hk⟩
  rw [parts]
  split
  case h_1 | h_2 | h_3 | h_7 | h_11 | h_12 | h_13 | h_14 | h_16 =>
    rename_i hf
    exact hleaf rfl (by rw [Describes, hf])
  case h_4 items hf =>
    obtain ⟨ms, hms, -, hl⟩ := hpart hf nofun nofun nofun
    refine (runs_visitItems (id :: path) id "allOf" 0 items s h fun i item hi => ?_).bind
      fun cs t ht hcs => .pure ht.consistent ⟨?_, .of_known hcs.2 nofun nofun⟩
    · rw [Nat.zero_add]
      exact hms.item (.inl (by decide)) hl hi
    · rw [Describes, hf]
      exact ⟨cs, rfl, hcs.1⟩
  case h_5 keyword items hf =>
    obtain ⟨ms, hms, -, hk, hl⟩ := hpart hf nofun nofun nofun
    refine (runs_visitItems (id :: path) id keyword 0 items s h fun i item hi => ?_).bind
      fun cs t ht hcs => .pure ht.consistent ⟨?_, .of_known hcs.2 nofun nofun⟩
    · rw [Nat.zero_add]
      refine hms.item (.inl ?_) hl hi
      rcases hk with rfl | rfl <;> decide
    · rw [Describes, hf]
      exact ⟨cs, rfl, hcs.1⟩
  case h_6 count hf =>
    refine (runs_visitBranches (id :: path) id schema key (List.range count) s h hmet hr ho).bind
      fun cs t ht hcs => .pure ht.consistent ⟨?_, .of_known hcs.2 nofun nofun⟩
    rw [Describes, hf]
    exact ⟨cs, rfl, hcs.1⟩
  case h_8 items hf =>
    obtain ⟨ms, hms, -, hl⟩ := hpart hf nofun nofun nofun
    refine (runs_visitItems (id :: path) id "items" 0 items s h fun i item hi => ?_).bind
      fun cs t ht hcs => .pure ht.consistent ⟨?_, .of_known hcs.2 nofun nofun⟩
    · rw [Nat.zero_add]
      exact hms.item (.inr (by decide)) hl hi
    · rw [Describes, hf]
      exact ⟨cs, rfl, hcs.1⟩
  case h_9 item hf =>
    obtain ⟨ms, hms, -, hs, hl⟩ := hpart hf nofun nofun nofun
    refine (runs_visit (id :: path) (below id ["items"]) item none false s h (.part id _)
      fun _ => ?_).bind
      fun c t ht hc => .pure ht.consistent ⟨?_, .of_known ?_ nofun nofun⟩
    · refine hms.member (show ("items", Schema.Shape.oneOrList) ∈ Schema.keywords by decide) ?_ hl
      cases item <;> first | exact List.mem_singleton_self _ | cases hs
    · rw [Describes, hf]
      exact ⟨c, rfl, hc.1⟩
    · exact fun d hd => List.mem_singleton.1 hd ▸ hc.2
  case h_10 values hf =>
    refine (runs_enumKind h _ values name).mono fun kind t _ hk => ⟨?_, hk.2⟩
    rw [Describes, hf]
    exact hk.1
  case h_15 hf =>
    refine (runs_add h .any).bind fun c t ht hc =>
      .pure ht.consistent ⟨?_, .of_known ?_ nofun nofun⟩
    · rw [Describes, hf]
      exact ⟨c, rfl, hc⟩
    · obtain ⟨n, hn, -⟩ := hc
      exact fun d hd => List.mem_singleton.1 hd ▸ .of_built hn
  case h_17 ms hf =>
    obtain ⟨ms', hms, -, rfl⟩ := hpart hf nofun nofun nofun
    refine (runs_interface (id :: path) id ms _ s h hms).mono fun kind t _ hk => ⟨?_, hk.2⟩
    rw [Describes, hf]
    exact hk.1
  case h_18 => exact .throw h trivial
termination_by
  (remaining ctx (id :: path), sizeOf schema, openVariants path id schema, 1)
decreasing_by
  all_goals
    have hsize := Schema.partSize_form ctx.options.unreachableDefinitions id.variant schema
    rw [‹Schema.form ctx.options.unreachableDefinitions id.variant schema = _›] at hsize
    simp only [Schema.Form.partSize] at hsize
  · exact .right _ (.left _ _ hsize)
  · exact .right _ (.left _ _ hsize)
  · exact .right _ (.right _ (.left _ _ (openVariants_cons_lt hv hp)))
  · exact .right _ (.left _ _ hsize)
  · exact .right _ (.left _ _ hsize)
  · exact .right _ (.left _ _ hsize)

theorem runs_visitItems (path : List Fragment) (id : Fragment) (keyword : String) (start : Nat)
    (items : List Json) (s : Builder) (h : Consistent ctx asked s)
    (ho : ∀ (i : Nat) item, items[i]? = some item →
      Occurs ctx asked (below id [keyword, toString (start + i)]) item) :
    Runs ctx asked s (visitItems ctx path id keyword start items) fun cs t =>
      FindsAll ctx t (itemSites id keyword start items) cs := by
  cases items with
  | nil =>
    rw [visitItems]
    exact .pure h ⟨.nil, nofun⟩
  | cons item rest =>
    rw [visitItems]
    refine (runs_visit path _ item none false s h (.part id _) fun _ => ho 0 item rfl).bind
      fun c t ht hc => ?_
    refine (runs_visitItems path id keyword (start + 1) rest t ht.consistent fun i item hi => ?_).bind
      fun cs u hu hcs => .pure hu.consistent (.cons hu.grows.toKeeps hc hcs)
    rw [Nat.add_assoc, Nat.add_comm 1 i]
    exact ho (i + 1) item hi
termination_by (remaining ctx path, sizeOf items, 0, 0)
decreasing_by
  all_goals exact .right _ (.left _ _ (by subst_vars; simp only [List.cons.sizeOf_spec]; omega))

theorem runs_visitBranches (path : List Fragment) (id : Fragment) (schema : Json)
    (key : Option String) (entries : List Nat) (s : Builder) (h : Consistent ctx asked s)
    (hmet : ∃ isRoot, Met ctx asked id key isRoot) (hr : ctx.schemas.refs.lookup id = none)
    (ho : Occurs ctx asked id schema) :
    Runs ctx asked s (visitBranches ctx path id schema key entries) fun cs t =>
      FindsAll ctx t (entries.map fun i => { id with variant := some i }) cs := by
  cases entries with
  | nil =>
    rw [visitBranches]
    exact .pure h ⟨.nil, nofun⟩
  | cons entry rest =>
    rw [visitBranches]
    obtain ⟨isRoot, hmet⟩ := hmet
    refine (runs_visit path { id with variant := some entry } schema key false s h (hmet.variant _)
      fun _ => ho.variant _ hr).bind fun c t ht hc => ?_
    exact (runs_visitBranches path id schema key rest t ht.consistent ⟨isRoot, hmet⟩ hr ho).bind
      fun cs u hu hcs => .pure hu.consistent (.cons hu.grows.toKeeps hc hcs)
termination_by (remaining ctx path, sizeOf schema, openVariants path id schema, 4 + entries.length)
decreasing_by
  all_goals exact .right _ (.right _ (.right _ (by subst_vars; simp only [List.length_cons]; omega)))

theorem runs_visitNamed (path : List Fragment) (id : Fragment) (keyword : String)
    (note : String → Option String) (ms : Members) (s : Builder) (h : Consistent ctx asked s)
    (ho : ∀ key value, (key, value) ∈ ms → Occurs ctx asked (below id [keyword, key]) value ∧
      Met ctx asked (below id [keyword, key]) (some key) false) :
    Runs ctx asked s (visitNamed ctx path id keyword note ms) fun found t =>
      List.Forall₂ (fun entry member => member.1 = entry.1 ∧
        Finds ctx t (below id [keyword, entry.1]) member.2) ms found ∧
      ∀ member ∈ found, Known t member.2 := by
  cases ms with
  | nil =>
    rw [visitNamed]
    exact .pure h ⟨.nil, nofun⟩
  | cons entry rest =>
    rw [visitNamed]
    obtain ⟨hoccurs, hmet⟩ := ho entry.1 entry.2 List.mem_cons_self
    refine (runs_visit path _ entry.2 (some entry.1) false s h hmet fun _ => hoccurs).bind
      fun c t ht hc => ?_
    have hrest : ∀ u, Advances ctx asked t u → Runs ctx asked u
        (visitNamed ctx path id keyword note rest >>= fun nodes => pure ((entry.1, c) :: nodes))
        fun found t =>
          List.Forall₂ (fun entry member => member.1 = entry.1 ∧
            Finds ctx t (below id [keyword, entry.1]) member.2) (entry :: rest) found ∧
          ∀ member ∈ found, Known t member.2 := by
      intro u hu
      refine (runs_visitNamed path id keyword note rest u hu.consistent fun k v hm =>
        ho k v (List.mem_cons_of_mem _ hm)).bind fun found v hv hfound => .pure hv.consistent ?_
      have hk := (hu.trans hv).grows.toKeeps
      refine ⟨.cons ⟨rfl, hc.1.keeps hk⟩ hfound.1, fun member hm => ?_⟩
      rcases List.mem_cons.1 hm with rfl | hm
      · exact hc.2.keeps hk
      · exact hfound.2 member hm
    dsimp only
    split
    · exact hrest t (.refl ht.consistent)
    · exact (runs_appendComment ht.consistent c _).bind fun _ u hu _ => hrest u hu
termination_by (remaining ctx path, sizeOf ms, 0, 0)
decreasing_by
  all_goals exact .right _ (.left _ _ (by
    have hentry : sizeOf entry.2 ≤ sizeOf entry := by
      cases entry
      simp only [Prod.mk.sizeOf_spec]
      omega
    subst_vars
    simp only [List.cons.sizeOf_spec]
    omega))

theorem runs_visitSupers (path : List Fragment) (id : Fragment) (start : Nat) (items : List Json)
    (s : Builder) (h : Consistent ctx asked s)
    (ho : ∀ (i : Nat) item, items[i]? = some item →
      Occurs ctx asked (below id ["tsExtends", toString (start + i)]) item) :
    Runs ctx asked s (visitSupers ctx path id start items) fun cs t =>
      FindsAll ctx t (itemSites id "tsExtends" start items) cs ∧
      ∀ c ∈ cs, t.graph.NamedInterface c := by
  cases items with
  | nil =>
    rw [visitSupers]
    exact .pure h ⟨⟨.nil, nofun⟩, nofun⟩
  | cons item rest =>
    rw [visitSupers]
    refine (runs_visit path _ item none false s h (.part id _) fun _ => ho 0 item rfl).bind
      fun c t ht hc => ?_
    refine (runs_checkSuper ht.consistent _ c).bind fun _ u hu hsuper => ?_
    refine (runs_visitSupers path id (start + 1) rest u hu.consistent fun i item hi => ?_).bind
      fun cs v hv hcs => .pure hv.consistent
        ⟨.cons (hu.trans hv).grows.toKeeps hc hcs.1, fun d hd => ?_⟩
    · rw [Nat.add_assoc, Nat.add_comm 1 i]
      exact ho (i + 1) item hi
    · rcases List.mem_cons.1 hd with rfl | hd
      · exact hv.grows.toKeeps.namedInterface hsuper
      · exact hcs.2 d hd
termination_by (remaining ctx path, sizeOf items, 0, 0)
decreasing_by
  all_goals exact .right _ (.left _ _ (by subst_vars; simp only [List.cons.sizeOf_spec]; omega))

theorem runs_visitEach (path : List Fragment) (id : Fragment) (ms : Members) (keyword : String)
    (note : String → Option String) (s : Builder) (h : Consistent ctx asked s)
    (hk : (keyword, .byName) ∈ Schema.keywords) (ho : Occurs ctx asked id (.object ms)) :
    Runs ctx asked s (visitEach ctx path id ms keyword note) fun found t =>
      FindsEach ctx t id ms keyword found ∧ ∀ member ∈ found, Known t member.2 := by
  rw [visitEach]
  split
  · rename_i named hl
    refine (runs_visitNamed path id keyword note named s h fun key value hm =>
      ⟨ho.entry hk hl hm, .entry ho hk hl hm⟩).mono fun found t _ hf => ⟨?_, hf.2⟩
    rw [FindsEach, hl]
    exact hf.1
  · rename_i hl
    refine .pure h ⟨?_, nofun⟩
    unfold FindsEach
    split
    · exact absurd ‹_› (hl _)
    · rfl
termination_by (remaining ctx path, sizeOf ms, 0, 1)
decreasing_by
  exact .right _ (.left _ _ (by
    rename_i hl
    have := Schema.sizeOf_lookup hl
    simp only [Json.object.sizeOf_spec] at this
    omega))

theorem runs_visitDefinitions (path : List Fragment) (id : Fragment) (ms : Members)
    (keyword parent : String) (s : Builder) (h : Consistent ctx asked s)
    (hk : (keyword, .byName) ∈ Schema.keywords) (ho : Occurs ctx asked id (.object ms)) :
    Runs ctx asked s (visitDefinitions ctx path id ms keyword parent) fun found t =>
      FindsDefinitions ctx t id ms keyword found ∧ ∀ member ∈ found, Known t member.2 := by
  rw [visitDefinitions]
  unfold FindsDefinitions
  split
  · exact runs_visitEach path id ms keyword _ s h hk ho
  · exact .pure h ⟨rfl, nofun⟩
termination_by (remaining ctx path, sizeOf ms, 0, 2)
decreasing_by exact .right _ (.right _ (.right _ (by omega)))

theorem runs_visitIndex (path : List Fragment) (id : Fragment) (ms : Members) (s : Builder)
    (h : Consistent ctx asked s) (ho : Occurs ctx asked id (.object ms)) :
    Runs ctx asked s (visitIndex ctx path id ms) fun index t =>
      FindsIndex ctx t id ms index ∧ ∀ member ∈ index, Known t member.node := by
  rw [visitIndex]
  split
  · rename_i hl
    refine .pure h ⟨?_, nofun⟩
    rw [FindsIndex, hl]
  · rename_i further hl
    refine (runs_visit path (below id ["additionalProperties"]) (.object further) none false s h
      (.part id _) fun _ => ho.member (show ("additionalProperties", Schema.Shape.one) ∈ Schema.keywords
        by decide) (List.mem_singleton_self _) hl).bind
      fun c t ht hc => .pure ht.consistent ⟨?_, ?_⟩
    · rw [FindsIndex, hl]
      exact ⟨c, hc.1, rfl⟩
    · exact fun member hm => List.mem_singleton.1 hm ▸ hc.2
  · rename_i hfalse hobject
    have hfinds : ∀ {t index},
        (if singlePattern ms (namedMembers ms "patternProperties") then index = []
        else ∃ node, Leaf t .any node ∧ index = [{ key := indexSignature, node, required := true }]) →
        FindsIndex ctx t id ms index := by
      intro t index hi
      unfold FindsIndex
      split
      · exact absurd ‹_› hfalse
      · exact absurd ‹_› (hobject _)
      · exact hi
    split
    · rename_i hs
      exact .pure h ⟨hfinds (by rw [if_pos hs]), nofun⟩
    · rename_i hs
      refine (runs_add h .any).bind fun c t ht hc => .pure ht.consistent ⟨hfinds ?_, ?_⟩
      · rw [if_neg hs]
        exact ⟨c, hc, rfl⟩
      · obtain ⟨n, hn, -⟩ := hc
        exact fun member hm => List.mem_singleton.1 hm ▸ .of_built hn
termination_by (remaining ctx path, sizeOf ms, 0, 2)
decreasing_by
  rename_i hl
  exact .right _ (.left _ _ (Schema.sizeOf_lookup hl))

theorem runs_visitExtends (path : List Fragment) (id : Fragment) (ms : Members) (s : Builder)
    (h : Consistent ctx asked s) (ho : Occurs ctx asked id (.object ms)) :
    Runs ctx asked s (visitExtends ctx path id ms) fun supers t =>
      FindsAll ctx t (superSites id ms) supers ∧ ∀ x ∈ supers, t.graph.NamedInterface x := by
  rw [visitExtends]
  split
  · rename_i hl
    refine .pure h ⟨?_, nofun⟩
    rw [superSites, hl]
    exact ⟨.nil, nofun⟩
  · rename_i targets hl
    refine (runs_visitSupers path id 0 targets s h fun i item hi => ?_).mono fun cs t _ hcs =>
      ⟨?_, hcs.2⟩
    · rw [Nat.zero_add]
      exact ho.item (.inr (by decide)) hl hi
    · rw [superSites, hl]
      exact hcs.1
  · rename_i target hl
    refine (runs_visit path (below id ["tsExtends"]) (.object target) none false s h (.part id _)
      fun _ => ho.member (show ("tsExtends", Schema.Shape.oneOrList) ∈ Schema.keywords by decide)
        (List.mem_singleton_self _) hl).bind
      fun c t ht hc => ?_
    refine (runs_checkSuper ht.consistent _ c).bind fun _ u hu hsuper =>
      .pure hu.consistent ⟨?_, fun d hd => List.mem_singleton.1 hd ▸ hsuper⟩
    rw [superSites, hl]
    exact .cons hu.grows.toKeeps hc ⟨.nil, nofun⟩
  · exact .throw h trivial
termination_by (remaining ctx path, sizeOf ms, 0, 2)
decreasing_by
  · rename_i hl
    exact .right _ (.left _ _ (by
      have := Schema.sizeOf_lookup hl
      simp only [Json.array.sizeOf_spec] at this
      omega))
  · rename_i hl
    exact .right _ (.left _ _ (Schema.sizeOf_lookup hl))

theorem runs_interface (path : List Fragment) (id : Fragment) (ms : Members) (parent : String)
    (s : Builder) (h : Consistent ctx asked s) (ho : Occurs ctx asked id (.object ms)) :
    Runs ctx asked s (interface ctx path id ms parent) fun kind t =>
      DescribesInterface ctx t id ms kind ∧ Fits t kind := by
  rw [interface]
  refine (runs_visitEach path id ms "properties" _ s h (by decide) ho).bind fun properties s₁ h₁ hp => ?_
  refine (runs_visitEach path id ms "patternProperties" _ s₁ h₁.consistent (by decide) ho).bind
    fun patterns s₂ h₂ hpat => ?_
  refine (runs_visitDefinitions path id ms "definitions" parent s₂ h₂.consistent (by decide) ho).bind
    fun definitions s₃ h₃ hd => ?_
  refine (runs_visitDefinitions path id ms "$defs" parent s₃ h₃.consistent (by decide) ho).bind
    fun defs s₄ h₄ hd' => ?_
  refine (runs_visitIndex path id ms s₄ h₄.consistent ho).bind fun index s₅ h₅ hi => ?_
  refine (runs_visitExtends path id ms s₅ h₅.consistent ho).bind fun supers t h₆ hs =>
    .pure h₆.consistent ?_
  have k₅ := h₆.grows.toKeeps
  have k₄ := h₅.grows.toKeeps.trans k₅
  have k₃ := h₄.grows.toKeeps.trans k₄
  have k₂ := h₃.grows.toKeeps.trans k₃
  have k₁ := h₂.grows.toKeeps.trans k₂
  refine ⟨⟨properties, patterns, definitions, defs, index, supers, rfl, hp.1.keeps k₁,
    hpat.1.keeps k₂, hd.1.keeps k₃, hd'.1.keeps k₄, hi.1.keeps k₅, hs.1.1⟩, fun c hc => ?_,
    fun members supers' heq x hx => ?_, nofun⟩
  · rcases List.mem_append.1 hc with hc | hc
    · obtain ⟨m, hm, rfl⟩ := List.mem_map.1 hc
      simp only [interfaceMembers, List.mem_append, List.mem_map] at hm
      rcases hm with ((⟨p, hm, rfl⟩ | ⟨p, hm, rfl⟩) | ⟨p, hm | hm, rfl⟩) | hm
      · exact (hp.2 p hm).keeps k₁
      · exact (hpat.2 p hm).keeps k₂
      · exact (hd.2 p hm).keeps k₃
      · exact (hd'.2 p hm).keeps k₄
      · exact (hi.2 m hm).keeps k₅
    · exact hs.1.2 c hc
  · obtain ⟨-, rfl⟩ := Kind.interface.inj heq
    exact hs.2 x hx
termination_by (remaining ctx path, sizeOf ms, 0, 3)
decreasing_by all_goals exact .right _ (.right _ (.right _ (by omega)))
end

/-- The fragment at a site. -/
theorem runs_fragment (r : Request) (s : Builder) (h : Consistent ctx asked s) (hr : asked r) :
    Runs ctx asked s (fragment ctx r.site r.key r.isRoot) fun i t =>
      Finds ctx t r.site i ∧ Known t i := by
  unfold fragment
  split
  · rename_i schema hg
    exact runs_visit [] r.site schema r.key r.isRoot s h (.site hr) fun _ => .site hr hg
  · rename_i hsome
    exact runs_visit [] r.site .null r.key r.isRoot s h (.site hr) fun hnone => by
      rw [hnone] at hsome
      cases hsome
  · exact .throw h trivial

end Build

end Typewright
