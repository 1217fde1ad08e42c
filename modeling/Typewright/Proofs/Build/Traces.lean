import Typewright.Proofs.Build.Trail

/-!
# What visits leave behind

A visit keeps the state orderly. The proof follows the recursion of the build: while the parts of a
fragment are visited it is the last of the trail, and when its slot is filled its super types are
built and its patterns have their notes.
-/

namespace Typewright

namespace Build

variable {ctx : BuildContext} {asked : Request → Prop} {s t : Builder} {id : Fragment}

/-! ## A fragment under construction -/

theorem ends_start_slots (id : Fragment) (s : Builder) :
    Ends (start id) s (fun _ t => t.processed = (id, s.graph.size) :: s.processed ∧
      ∀ i, t.graph.get? i = s.graph.get? i) fun _ _ => False :=
  ⟨rfl, fun _ => s.graph.get?_reserve⟩

/-- A reserved slot is not built, so nothing has to hold for it. -/
theorem traces_start {schema : Json} (h : Consistent ctx asked s)
    (hl : s.processed.lookup id = none) (hr : ctx.schemas.refs.lookup id = none)
    (ho : Occurs ctx asked id schema) : Traces ctx asked s (start id) fun _ _ => True := by
  refine Ends.mono (Ends.and (ends_start h hl hr ho) (ends_start_slots id s)) (fun node t ht => ?_)
    fun _ _ h => h.1.elim
  obtain ⟨⟨-, hg, -⟩, hprocessed, hget⟩ := ht
  have hnotes : KeepsNotes s t := .of_get? fun i _ hn => (hget i).trans hn
  refine ⟨⟨hnotes, fun hs id' i other hl' hi => ?_⟩, trivial⟩
  rw [hprocessed, List.lookup_cons] at hl'
  split at hl'
  · obtain rfl := Option.some.inj hl'
    exact absurd (s.graph.lt_size_of_get? ((hget _).symm.trans hi)) (Nat.lt_irrefl _)
  · exact hs.keeps hg.toKeeps hnotes hl' (fun hnone => (hget i).trans hnone) hi

/-- The new slot is the last of the trail. -/
theorem Trail.of_start {path : List Fragment} (h : Consistent ctx asked s) (hg : Grows s t)
    (hl : t.processed.lookup id = some s.graph.size)
    (hin : t.inProgress = s.graph.size :: s.inProgress) (hpath : OnPath path s)
    (hlead : LeadTo ctx path id) : Trail ctx (id :: path) id s.graph.size t where
  pending i hi := by
    rw [hin] at hi
    rcases List.mem_cons.1 hi with rfl | hi
    · exact ⟨id, List.mem_cons_self, hl⟩
    · obtain ⟨a, ha, hla⟩ := hpath i hi
      exact ⟨a, List.mem_cons_of_mem _ ha, hg.processed _ _ hla⟩
  leads a ha := by
    rcases List.mem_cons.1 ha with rfl | ha
    · exact .refl
    · exact hlead a ha
  newest i hi := by
    rw [hin] at hi
    rcases List.mem_cons.1 hi with rfl | hi
    · exact Nat.le_refl _
    · exact Nat.le_of_lt ((h.pending i).1 hi).1

/-- A fragment with an interface does not inherit in circles if its super types do not. -/
theorem Orderly.acc {schema : Json} {kind : Kind} (hs : Orderly ctx asked s)
    (hget : ctx.schemas.get? id = some schema) (hd : Describes ctx s id schema kind)
    (hfits : Fits s kind) : Acc (fun b a => Extends ctx a b) id := by
  refine ⟨_, fun target htarget => ?_⟩
  obtain ⟨site, ms, ⟨schema', hget', hform⟩, hsite, hr⟩ := htarget
  obtain rfl := Option.some.inj (hget.symm.trans hget')
  rw [Describes, hform] at hd
  obtain ⟨_, _, _, _, _, supers, rfl, -, -, -, -, -, hsupers⟩ := hd
  obtain ⟨c, hc, hfinds⟩ := exists_of_forall₂_left hsupers hsite
  obtain ⟨node, _, _, hn, -⟩ := hfits.supers _ _ rfl c hc
  rw [Finds, hr] at hfinds
  exact (hs target c node hfinds hn).1

/-- A fragment whose parts are orderly is orderly when its slot is filled. -/
theorem tells_fill {n : NodeId} {schema : Json} {node : Node} {inProgress : List NodeId}
    {usedNames : List String} (hc : Consistent ctx asked s)
    (hl : s.processed.lookup id = some n) (hopen : s.graph.get? n = none)
    (hsub : ∀ name ∈ s.usedNames, name ∈ usedNames) (hget : ctx.schemas.get? id = some schema)
    (hd : Describes ctx s id schema node.kind) (hfits : Fits s node.kind)
    (hsigns : Signs ctx asked s id n node) :
    Tells ctx asked s { s with graph := s.graph.fill n node, inProgress, usedNames } := by
  have hlt := (hc.processed id n hl).1
  have hk : Keeps s { s with graph := s.graph.fill n node, inProgress, usedNames } :=
    keeps_fill hlt hopen hsub
  have hslot : ∀ i, (s.graph.fill n node).get? i = if i = n then some node else s.graph.get? i :=
    fun i => s.graph.get?_fill hlt
  have hnotes : KeepsNotes s { s with graph := s.graph.fill n node, inProgress, usedNames } :=
    .of_get? fun i old hold => by
      rw [hslot, if_neg (by rintro rfl; rw [hopen] at hold; cases hold), hold]
  refine ⟨hnotes, fun hs id' i other hl' hi => ?_⟩
  by_cases heq : i = n
  · subst heq
    obtain rfl := hc.separate id' id i hl' hl
    obtain rfl := Option.some.inj (((hslot i).trans (if_pos rfl)).symm.trans hi)
    exact ⟨hs.acc hget hd hfits, hsigns.keeps hk hnotes⟩
  · exact hs.keeps hk hnotes hl' (fun hnone => (hslot i).trans ((if_neg heq).trans hnone)) hi

/-- What the notes call an interface while it is built. -/
theorem caller_eq {schema : Json} {key name name' : Option String} {isRoot : Bool} {kind : Kind}
    {comment : Option String} {used : List String}
    (hname : name = (nameHint ctx id schema key isRoot).map (Identifier.fresh · used))
    (hkept : ∀ n, name = some n → name' = some n) :
    caller ctx id schema isRoot ⟨kind, name', comment, key⟩ =
      (name <|> key).getD ctx.rootName := by
  unfold caller
  dsimp only
  cases hhint : nameHint ctx id schema key isRoot with
  | none =>
      rw [hhint] at hname
      rw [hname]
      rfl
  | some hint =>
      rw [hhint] at hname
      rw [hkept _ hname, hname]
      rfl

/-! ## Visits -/

/-- The items of a keyword, from the index `start` on, are schemas that the build may come to. -/
def ItemsOccur (ctx : BuildContext) (asked : Request → Prop) (id : Fragment) (keyword : String)
    (start : Nat) (items : List Json) : Prop :=
  ∀ (i : Nat) item, items[i]? = some item →
    Occurs ctx asked (below id [keyword, toString (start + i)]) item

theorem Occurs.items {ms : Members} {keyword : String} {items : List Json}
    (h : Occurs ctx asked id (.object ms))
    (hk : (keyword, .list) ∈ Schema.keywords ∨ (keyword, .oneOrList) ∈ Schema.keywords)
    (hl : ms.lookup keyword = some (.array items)) : ItemsOccur ctx asked id keyword 0 items := by
  intro i item hi
  rw [Nat.zero_add]
  exact h.item hk hl hi

section Items

variable {keyword : String} {start : Nat} {item : Json} {rest : List Json}

theorem ItemsOccur.head (h : ItemsOccur ctx asked id keyword start (item :: rest)) :
    Occurs ctx asked (below id [keyword, toString start]) item :=
  h 0 item rfl

theorem ItemsOccur.tail (h : ItemsOccur ctx asked id keyword start (item :: rest)) :
    ItemsOccur ctx asked id keyword (start + 1) rest := by
  intro i item hi
  rw [Nat.add_assoc, Nat.add_comm 1 i]
  exact h (i + 1) item hi

end Items

mutual
theorem traces_visit (hd : ctx.schemas.Distinct) (path : List Fragment) (site : Fragment)
    (schema : Json) (key : Option String) (isRoot : Bool) (s : Builder) (h : Consistent ctx asked s)
    (hmet : Met ctx asked site key isRoot)
    (ho : ctx.schemas.refs.lookup site = none → Occurs ctx asked site schema)
    (hpath : OnPath path s)
    (hlead : ∀ target, ctx.schemas.resolve site = .ok (.fragment target) → LeadTo ctx path target) :
    Traces ctx asked s (visit ctx path site schema key isRoot) fun _ _ => True := by
  rw [visit]
  split
  · rename_i e hr
    exact .throw (blamed_of_follow hr)
  · rename_i name hr
    exact (steady_external name).traces h (runs_external h hr)
  · rename_i id hr
    refine .get ?_
    split
    · rename_i node hl
      have hrun : Runs ctx asked s (markReached node >>= fun _ => pure node) fun _ _ => True :=
        (runs_markReached h (h.processed id node hl).1).bind fun _ _ ht _ =>
          .pure ht.consistent trivial
      exact (Steady.bind (steady_markReached node) fun _ => .pure _).traces h hrun
    · rename_i hl
      split
      · exact .throw (.of_cause nofun)
      · rename_i hp
        split
        · rename_i hs
          exact traces_build hd path id schema key isRoot hp s h (hmet.target hr) hl
            (follow_lookup hr) (hs ▸ ho (hs ▸ follow_lookup hr)) hpath (hlead id hr)
        · rename_i hs
          split
          · exact .throw (.of_cause nofun)
          · rename_i schema' hg
            have ht := (ctx.schemas.resolve_eq_or_mem hr).resolve_left hs
            exact traces_build hd path id schema' key isRoot hp s h (hmet.target hr) hl
              (follow_lookup hr) (.target ht hg) hpath (hlead id hr)
termination_by (remaining ctx path, sizeOf schema, openVariants path site schema, 3)
decreasing_by
  · rename_i hr _ _ hp hs _ _ _
    exact .left _ _ (remaining_cons_lt ((ctx.schemas.resolve_eq_or_mem hr).resolve_left hs) hp)
  · rename_i hs
    subst hs
    exact lex_of_le (remaining_cons_le ctx _ path) (.right _ (.right _ (by omega)))

theorem traces_build (hd : ctx.schemas.Distinct) (path : List Fragment) (id : Fragment)
    (schema : Json) (key : Option String) (isRoot : Bool) (hp : id ∉ path) (s : Builder)
    (h : Consistent ctx asked s) (hmet : Met ctx asked id key isRoot)
    (hl : s.processed.lookup id = none) (hr : ctx.schemas.refs.lookup id = none)
    (ho : Occurs ctx asked id schema) (hpath : OnPath path s) (hlead : LeadTo ctx path id) :
    Traces ctx asked s (build ctx path id schema key isRoot hp) fun _ _ => True := by
  rw [build]
  split
  case isFalse => exact .throw (.of_cause nofun)
  rename_i hv
  have hget := ho.get? hd
  unfold Traces
  rw [ends_bind]
  refine Ends.mono (Ends.and (ends_start h hl hr ho) (traces_start h hl hr ho))
    (fun node s₁ h₁ => ?_) fun _ _ h => h.1.elim
  obtain ⟨⟨rfl, hg₁, hc₁, hl₁, hsize₁, hin₁, -⟩, htells₁, -⟩ := h₁
  rw [ends_bind]
  have hhint := runs_hint hc₁ (nameHint ctx id schema key isRoot)
  refine Ends.mono (Ends.and hhint ((steady_hint _).traces hc₁ hhint)) (fun name s₂ h₂ => ?_)
    fun _ _ hb => hb.2
  obtain ⟨⟨ha₂, hname₂, hhint₂⟩, htells₂, -⟩ := h₂
  rw [ends_bind]
  have htrail := Trail.of_start h hg₁ hl₁ hin₁ hpath hlead
  refine Ends.mono (Ends.and
    (runs_parts path id schema name key hp hv s₂ ha₂.consistent ⟨isRoot, hmet⟩ hr ho)
    (traces_parts hd path id schema name key hp hv s₂ ha₂.consistent ⟨isRoot, hmet⟩ hr ho
      (htrail.advances ha₂))) (fun kind s₃ h₃ => ?_) fun _ _ hb => hb.2
  obtain ⟨⟨ha₃, hd₃, hfits₃⟩, htells₃, hsigns₃⟩ := h₃
  have ha := ha₂.trans ha₃
  have hlt₁ : s.graph.size < s₁.graph.size := hsize₁ ▸ Nat.lt_succ_self _
  rw [ends_bind]
  refine Ends.mono (ends_finishName ha₃.consistent.toShaped s.graph.size key
    (hg₁.trans ha.grows).usedNames fun n hn => ?_) (fun name' s₄ h₄ => ?_) fun _ _ h => h.elim
  · obtain ⟨hres, hnew⟩ := hname₂ n hn
    exact ⟨hres.grows ha₃.grows, fun hmem => hnew (hg₁.usedNames n hmem)⟩
  · obtain ⟨⟨usedNames, rfl, hsub⟩, -, -, hkept, -⟩ := h₄
    rw [ends_bind, ends_modify, ends_pure]
    refine ⟨((htells₁.trans htells₂).trans htells₃).trans ?_, trivial⟩
    refine tells_fill ha₃.consistent (ha.grows.processed _ _ hl₁)
      (ha.grows.unbuilt _ hlt₁ ((hc₁.pending _).1 (hin₁ ▸ List.mem_cons_self)).2) hsub hget hd₃
      hfits₃ ⟨schema, isRoot, hget, hmet, ?_⟩
    rw [caller_eq hhint₂ hkept]
    exact hsigns₃
termination_by
  (remaining ctx (id :: path), sizeOf schema, openVariants path id schema, 2)
decreasing_by exact .right _ (.right _ (.right _ (by omega)))

theorem traces_parts (hd : ctx.schemas.Distinct) (path : List Fragment) (id : Fragment)
    (schema : Json) (name key : Option String) (hp : id ∉ path)
    (hv : id.variant ∈ Schema.variants schema) (s : Builder) (h : Consistent ctx asked s)
    (hmet : ∃ isRoot, Met ctx asked id key isRoot) (hr : ctx.schemas.refs.lookup id = none)
    (ho : Occurs ctx asked id schema) {n : NodeId} (htrail : Trail ctx (id :: path) id n s) :
    Traces ctx asked s (parts ctx path id schema name key hp hv) fun _ t =>
      SignsAs ctx t id n ((name <|> key).getD ctx.rootName) := by
  have hpart : ∀ {f}, Schema.form ctx.options.unreachableDefinitions id.variant schema = f →
      f ≠ .any → f ≠ .never → f ≠ .invalid →
      ∃ ms, Occurs ctx asked id (.object ms) ∧ schema = .object ms ∧ f.ComesFrom ms := by
    intro f hf ha hn hi
    rcases Schema.exists_members_of_form _ hf with ⟨ms, rfl, hc⟩ | h | h | h
    · exact ⟨ms, ho, rfl, hc⟩
    · exact absurd h ha
    · exact absurd h hn
    · exact absurd h hi
  have hform : ∀ {f}, Schema.form ctx.options.unreachableDefinitions id.variant schema = f →
      HasForm ctx id f := fun hf => ⟨schema, ho.get? hd, hf⟩
  -- only interfaces have patterns
  have hnone : ∀ {f t}, Schema.form ctx.options.unreachableDefinitions id.variant schema = f →
      (∀ ms, f ≠ .interface ms) → SignsAs ctx t id n ((name <|> key).getD ctx.rootName) :=
    fun hf hne ms hms => absurd ((hform hf).unique hms) (hne ms)
  rw [parts]
  split
  case h_1 | h_2 | h_3 | h_7 | h_11 | h_12 | h_13 | h_14 | h_16 =>
    rename_i hf
    exact .pure (hnone hf nofun)
  case h_4 items hf =>
    obtain ⟨ms, hms, -, hl⟩ := hpart hf nofun nofun nofun
    have hitems := hms.items (.inl (by decide)) hl
    exact .bind (runs_visitItems (id :: path) id "allOf" 0 items s h hitems)
      (traces_visitItems hd (id :: path) id "allOf" 0 items s h hitems htrail
        fun site => (hform hf).isSiteOf) fun _ _ _ _ _ _ => .pure (hnone hf nofun)
  case h_5 keyword items hf =>
    obtain ⟨ms, hms, -, hk, hl⟩ := hpart hf nofun nofun nofun
    have hitems : ItemsOccur ctx asked id keyword 0 items := by
      refine hms.items (.inl ?_) hl
      rcases hk with rfl | rfl <;> decide
    exact .bind (runs_visitItems (id :: path) id keyword 0 items s h hitems)
      (traces_visitItems hd (id :: path) id keyword 0 items s h hitems htrail
        fun site => (hform hf).isSiteOf) fun _ _ _ _ _ _ => .pure (hnone hf nofun)
  case h_6 count hf =>
    exact .bind (runs_visitBranches (id :: path) id schema key (List.range count) s h hmet hr ho)
      (traces_visitBranches hd (id :: path) id schema key (List.range count) s h hmet hr ho htrail
        fun i hi => (hform hf).isSiteOf (List.mem_map_of_mem hi))
      fun _ _ _ _ _ _ => .pure (hnone hf nofun)
  case h_8 items hf =>
    obtain ⟨ms, hms, -, hl⟩ := hpart hf nofun nofun nofun
    have hitems := hms.items (.inr (by decide)) hl
    exact .bind (runs_visitItems (id :: path) id "items" 0 items s h hitems)
      (traces_visitItems hd (id :: path) id "items" 0 items s h hitems htrail
        fun site => (hform hf).isSiteOf) fun _ _ _ _ _ _ => .pure (hnone hf nofun)
  case h_9 item hf =>
    obtain ⟨ms, hms, -, hs, hl⟩ := hpart hf nofun nofun nofun
    have hitem : Occurs ctx asked (below id ["items"]) item := by
      refine hms.member (show ("items", Schema.Shape.oneOrList) ∈ Schema.keywords by decide) ?_ hl
      cases item <;> first | exact List.mem_singleton_self _ | cases hs
    exact .bind (runs_visit (id :: path) (below id ["items"]) item none false s h (.part id _)
        fun _ => hitem)
      (traces_visit hd (id :: path) (below id ["items"]) item none false s h (.part id _)
        (fun _ => hitem) htrail.pending
        (htrail.leadTo ((hform hf).isSiteOf (List.mem_singleton_self _))))
      fun _ _ _ _ _ _ => .pure (hnone hf nofun)
  case h_10 values hf =>
    exact ((steady_enumKind _ values name).traces h (runs_enumKind h _ values name)).mono
      fun _ _ _ => hnone hf nofun
  case h_15 hf =>
    exact .bind (runs_add h .any) ((steady_add .any).traces h (runs_add h .any))
      fun _ _ _ _ _ _ => .pure (hnone hf nofun)
  case h_17 ms hf =>
    obtain ⟨ms', hms, -, rfl⟩ := hpart hf nofun nofun nofun
    refine (traces_interface hd (id :: path) id ms _ s h hms (hform hf) htrail).mono
      fun _ t hsigns ms' hms' => ?_
    obtain rfl := Schema.Form.interface.inj ((hform hf).unique hms')
    exact hsigns
  case h_18 => exact .throw (.of_cause nofun)
termination_by
  (remaining ctx (id :: path), sizeOf schema, openVariants path id schema, 1)
decreasing_by
  all_goals
    have hsize := Schema.partSize_form ctx.options.unreachableDefinitions id.variant schema
    rw [‹Schema.form ctx.options.unreachableDefinitions id.variant schema = _›] at hsize
    simp only [Schema.Form.partSize] at hsize
  · exact .right _ (.left _ _ hsize)
  · exact .right _ (.left _ _ hsize)
  · exact .right _ (.right _ (.left _ _ (openVariants_cons_lt hv hp)))
  · exact .right _ (.left _ _ hsize)
  · exact .right _ (.left _ _ hsize)
  · exact .right _ (.left _ _ hsize)

theorem traces_visitItems (hd : ctx.schemas.Distinct) (path : List Fragment) (id : Fragment)
    (keyword : String) (start : Nat) (items : List Json) (s : Builder) (h : Consistent ctx asked s)
    (ho : ItemsOccur ctx asked id keyword start items) {n : NodeId} (htrail : Trail ctx path id n s)
    (hsites : ∀ site ∈ itemSites id keyword start items, IsSiteOf ctx id site) :
    Traces ctx asked s (visitItems ctx path id keyword start items) fun _ _ => True := by
  cases items with
  | nil =>
    rw [visitItems]
    exact .pure trivial
  | cons item rest =>
    rw [visitItems]
    rw [itemSites_cons] at hsites
    have hfirst := ho.head
    refine .bind (runs_visit path _ item none false s h (.part id _) fun _ => hfirst)
      (traces_visit hd path _ item none false s h (.part id _) (fun _ => hfirst) htrail.pending
        (htrail.leadTo (hsites _ List.mem_cons_self))) fun c t ht _ _ _ => ?_
    exact .bind (runs_visitItems path id keyword (start + 1) rest t ht.consistent ho.tail)
      (traces_visitItems hd path id keyword (start + 1) rest t ht.consistent ho.tail
        (htrail.advances ht) fun site hsite => hsites site (List.mem_cons_of_mem _ hsite))
      fun _ _ _ _ _ _ => .pure trivial
termination_by (remaining ctx path, sizeOf items, 0, 0)
decreasing_by
  all_goals exact .right _ (.left _ _ (by subst_vars; simp only [List.cons.sizeOf_spec]; omega))

theorem traces_visitBranches (hd : ctx.schemas.Distinct) (path : List Fragment) (id : Fragment)
    (schema : Json) (key : Option String) (entries : List Nat) (s : Builder)
    (h : Consistent ctx asked s) (hmet : ∃ isRoot, Met ctx asked id key isRoot)
    (hr : ctx.schemas.refs.lookup id = none) (ho : Occurs ctx asked id schema) {n : NodeId}
    (htrail : Trail ctx path id n s)
    (hsites : ∀ i ∈ entries, IsSiteOf ctx id { id with variant := some i }) :
    Traces ctx asked s (visitBranches ctx path id schema key entries) fun _ _ => True := by
  cases entries with
  | nil =>
    rw [visitBranches]
    exact .pure trivial
  | cons entry rest =>
    rw [visitBranches]
    obtain ⟨isRoot, hmet⟩ := hmet
    refine .bind (runs_visit path { id with variant := some entry } schema key false s h
        (hmet.variant _) fun _ => ho.variant _ hr)
      (traces_visit hd path { id with variant := some entry } schema key false s h (hmet.variant _)
        (fun _ => ho.variant _ hr) htrail.pending (htrail.leadTo (hsites _ List.mem_cons_self)))
      fun c t ht _ _ _ => ?_
    exact .bind (runs_visitBranches path id schema key rest t ht.consistent ⟨isRoot, hmet⟩ hr ho)
      (traces_visitBranches hd path id schema key rest t ht.consistent ⟨isRoot, hmet⟩ hr ho
        (htrail.advances ht) fun i hi => hsites i (List.mem_cons_of_mem _ hi))
      fun _ _ _ _ _ _ => .pure trivial
termination_by (remaining ctx path, sizeOf schema, openVariants path id schema, 4 + entries.length)
decreasing_by
  all_goals exact .right _ (.right _ (.right _ (by subst_vars; simp only [List.length_cons]; omega)))

theorem traces_visitNamed (hd : ctx.schemas.Distinct) (path : List Fragment) (id : Fragment)
    (keyword : String) (note : String → Option String) (ms : Members) (s : Builder)
    (h : Consistent ctx asked s)
    (ho : ∀ key value, (key, value) ∈ ms → Occurs ctx asked (below id [keyword, key]) value ∧
      Met ctx asked (below id [keyword, key]) (some key) false) {n : NodeId}
    (htrail : Trail ctx path id n s)
    (hsites : ∀ entry ∈ ms, IsSiteOf ctx id (below id [keyword, entry.1])) :
    Traces ctx asked s (visitNamed ctx path id keyword note ms) fun _ t =>
      ∀ entry ∈ ms, ∀ text, note entry.1 = some text →
        Noted ctx t id n (below id [keyword, entry.1]) text := by
  cases ms with
  | nil =>
    rw [visitNamed]
    exact .pure nofun
  | cons entry rest =>
    rw [visitNamed]
    obtain ⟨hoccurs, hmet⟩ := ho entry.1 entry.2 List.mem_cons_self
    refine .bind (runs_visit path _ entry.2 (some entry.1) false s h hmet fun _ => hoccurs)
      (traces_visit hd path _ entry.2 (some entry.1) false s h hmet (fun _ => hoccurs)
        htrail.pending (htrail.leadTo (hsites entry List.mem_cons_self))) fun c t ht hc _ _ => ?_
    -- the entry keeps the note that it has by then
    have hrest : ∀ u, Advances ctx asked t u →
        (∀ text, note entry.1 = some text →
          Noted ctx u id n (below id [keyword, entry.1]) text) →
        Traces ctx asked u
          (visitNamed ctx path id keyword note rest >>= fun nodes => pure ((entry.1, c) :: nodes))
          fun _ v => ∀ other ∈ entry :: rest, ∀ text, note other.1 = some text →
            Noted ctx v id n (below id [keyword, other.1]) text := by
      intro u hu hnoted
      have ho' := fun k v hm => ho k v (List.mem_cons_of_mem _ hm)
      refine .bind (runs_visitNamed path id keyword note rest u hu.consistent ho')
        (traces_visitNamed hd path id keyword note rest u hu.consistent ho'
          (htrail.advances (ht.trans hu)) fun other hm => hsites other (List.mem_cons_of_mem _ hm))
        fun found v hv _ htells hrest => .pure fun other hm text htext => ?_
      rcases List.mem_cons.1 hm with rfl | hm
      · exact (hnoted text htext).keeps hv.grows.toKeeps htells.notes
      · exact hrest other hm text htext
    dsimp only
    split
    · rename_i hnote
      refine hrest t (.refl ht.consistent) fun text htext => ?_
      rw [hnote] at htext
      cases htext
    · rename_i text hnote
      refine .bind (runs_appendComment ht.consistent c text)
        (traces_appendComment (htrail.advances ht) ht.consistent hc.1 hc.2.1 text)
        fun _ u hu _ _ hnoted => hrest u hu fun other hother => ?_
      obtain rfl := Option.some.inj (hnote.symm.trans hother)
      exact hnoted
termination_by (remaining ctx path, sizeOf ms, 0, 0)
decreasing_by
  all_goals exact .right _ (.left _ _ (by
    have hentry : sizeOf entry.2 ≤ sizeOf entry := by
      cases entry
      simp only [Prod.mk.sizeOf_spec]
      omega
    subst_vars
    simp only [List.cons.sizeOf_spec]
    omega))

theorem traces_visitSupers (hd : ctx.schemas.Distinct) (path : List Fragment) (id : Fragment)
    (start : Nat) (items : List Json) (s : Builder) (h : Consistent ctx asked s)
    (ho : ItemsOccur ctx asked id "tsExtends" start items) {n : NodeId}
    (htrail : Trail ctx path id n s)
    (hsites : ∀ site ∈ itemSites id "tsExtends" start items, ∀ target,
      ctx.schemas.resolve site = .ok (.fragment target) → ExtendsAt ctx id site target) :
    Traces ctx asked s (visitSupers ctx path id start items) fun _ _ => True := by
  cases items with
  | nil =>
    rw [visitSupers]
    exact .pure trivial
  | cons item rest =>
    rw [visitSupers]
    rw [itemSites_cons] at hsites
    have hfirst := ho.head
    have hsite := hsites _ List.mem_cons_self
    refine .bind (runs_visit path _ item none false s h (.part id _) fun _ => hfirst)
      (traces_visit hd path _ item none false s h (.part id _) (fun _ => hfirst) htrail.pending
        (htrail.leadTo fun target hr => .inr ⟨_, hsite target hr⟩)) fun c t ht hc _ _ => ?_
    refine .bind (runs_checkSuper ht.consistent _ c)
      (traces_checkSuper (htrail.advances ht) ht.consistent hc.1 hc.2.1 hsite)
      fun _ u hu _ _ _ => ?_
    exact .bind (runs_visitSupers path id (start + 1) rest u hu.consistent ho.tail)
      (traces_visitSupers hd path id (start + 1) rest u hu.consistent ho.tail
        (htrail.advances (ht.trans hu)) fun site hm => hsites site (List.mem_cons_of_mem _ hm))
      fun _ _ _ _ _ _ => .pure trivial
termination_by (remaining ctx path, sizeOf items, 0, 0)
decreasing_by
  all_goals exact .right _ (.left _ _ (by subst_vars; simp only [List.cons.sizeOf_spec]; omega))

theorem traces_visitEach (hd : ctx.schemas.Distinct) (path : List Fragment) (id : Fragment)
    (ms : Members) (keyword : String) (note : String → Option String) (s : Builder)
    (h : Consistent ctx asked s) (hk : (keyword, .byName) ∈ Schema.keywords)
    (ho : Occurs ctx asked id (.object ms)) {n : NodeId} (htrail : Trail ctx path id n s)
    (hsites : ∀ site ∈ entrySites id ms keyword, IsSiteOf ctx id site) :
    Traces ctx asked s (visitEach ctx path id ms keyword note) fun _ t =>
      ∀ entry ∈ namedMembers ms keyword, ∀ text, note entry.1 = some text →
        Noted ctx t id n (below id [keyword, entry.1]) text := by
  rw [visitEach_eq]
  refine traces_visitNamed hd path id keyword note (namedMembers ms keyword) s h
    (fun key value hm => ?_) htrail fun entry hm => hsites _ (List.mem_map_of_mem hm)
  obtain ⟨named, hl, hm⟩ := exists_of_mem_namedMembers hm
  exact ⟨ho.entry hk hl hm, .entry ho hk hl hm⟩
termination_by (remaining ctx path, sizeOf ms, 0, 1)
decreasing_by exact .right _ (lex_of_le (sizeOf_namedMembers ms keyword) (.right _ (by omega)))

theorem traces_visitDefinitions (hd : ctx.schemas.Distinct) (path : List Fragment) (id : Fragment)
    (ms : Members) (keyword parent : String) (s : Builder) (h : Consistent ctx asked s)
    (hk : (keyword, .byName) ∈ Schema.keywords) (ho : Occurs ctx asked id (.object ms)) {n : NodeId}
    (htrail : Trail ctx path id n s)
    (hsites : ctx.options.unreachableDefinitions = true →
      ∀ site ∈ entrySites id ms keyword, IsSiteOf ctx id site) :
    Traces ctx asked s (visitDefinitions ctx path id ms keyword parent) fun _ _ => True := by
  rw [visitDefinitions]
  split
  · rename_i hkept
    exact (traces_visitEach hd path id ms keyword _ s h hk ho htrail (hsites hkept)).mono
      fun _ _ _ => trivial
  · exact .pure trivial
termination_by (remaining ctx path, sizeOf ms, 0, 2)
decreasing_by exact .right _ (.right _ (.right _ (by omega)))

theorem traces_visitIndex (hd : ctx.schemas.Distinct) (path : List Fragment) (id : Fragment)
    (ms : Members) (s : Builder) (h : Consistent ctx asked s)
    (ho : Occurs ctx asked id (.object ms)) {n : NodeId} (htrail : Trail ctx path id n s)
    (hsites : ∀ site ∈ indexSites id ms, IsSiteOf ctx id site) :
    Traces ctx asked s (visitIndex ctx path id ms) fun _ _ => True := by
  rw [visitIndex]
  split
  · exact .pure trivial
  · rename_i further hl
    have hfurther : Occurs ctx asked (below id ["additionalProperties"]) (.object further) :=
      ho.member (show ("additionalProperties", Schema.Shape.one) ∈ Schema.keywords by decide)
        (List.mem_singleton_self _) hl
    rw [indexSites, hl] at hsites
    exact .bind (runs_visit path _ (.object further) none false s h (.part id _) fun _ => hfurther)
      (traces_visit hd path _ (.object further) none false s h (.part id _) (fun _ => hfurther)
        htrail.pending (htrail.leadTo (hsites _ (List.mem_singleton_self _))))
      fun _ _ _ _ _ _ => .pure trivial
  · split
    · exact .pure trivial
    · exact .bind (runs_add h .any) ((steady_add .any).traces h (runs_add h .any))
        fun _ _ _ _ _ _ => .pure trivial
termination_by (remaining ctx path, sizeOf ms, 0, 2)
decreasing_by
  rename_i hl
  exact .right _ (.left _ _ (Schema.sizeOf_lookup hl))

theorem traces_visitExtends (hd : ctx.schemas.Distinct) (path : List Fragment) (id : Fragment)
    (ms : Members) (s : Builder) (h : Consistent ctx asked s)
    (ho : Occurs ctx asked id (.object ms)) {n : NodeId} (htrail : Trail ctx path id n s)
    (hform : HasForm ctx id (.interface ms)) :
    Traces ctx asked s (visitExtends ctx path id ms) fun _ _ => True := by
  have hsites : ∀ site ∈ superSites id ms, ∀ target,
      ctx.schemas.resolve site = .ok (.fragment target) → ExtendsAt ctx id site target :=
    fun site hsite target hr => ⟨ms, hform, hsite, hr⟩
  rw [visitExtends]
  split
  · exact .pure trivial
  · rename_i targets hl
    rw [superSites, hl] at hsites
    exact traces_visitSupers hd path id 0 targets s h (ho.items (.inr (by decide)) hl) htrail hsites
  · rename_i target hl
    rw [superSites, hl] at hsites
    have hsite := hsites _ (List.mem_singleton_self _)
    have htarget : Occurs ctx asked (below id ["tsExtends"]) (.object target) :=
      ho.member (show ("tsExtends", Schema.Shape.oneOrList) ∈ Schema.keywords by decide)
        (List.mem_singleton_self _) hl
    refine .bind (runs_visit path _ (.object target) none false s h (.part id _) fun _ => htarget)
      (traces_visit hd path _ (.object target) none false s h (.part id _) (fun _ => htarget)
        htrail.pending (htrail.leadTo fun target hr => .inr ⟨_, hsite target hr⟩))
      fun c t ht hc _ _ => ?_
    exact .bind (runs_checkSuper ht.consistent _ c)
      (traces_checkSuper (htrail.advances ht) ht.consistent hc.1 hc.2.1 hsite)
      fun _ _ _ _ _ _ => .pure trivial
  · exact .throw (.of_cause nofun)
termination_by (remaining ctx path, sizeOf ms, 0, 2)
decreasing_by
  · rename_i hl
    exact .right _ (.left _ _ (by
      have := Schema.sizeOf_lookup hl
      simp only [Json.array.sizeOf_spec] at this
      omega))
  · rename_i hl
    exact .right _ (.left _ _ (Schema.sizeOf_lookup hl))

theorem traces_interface (hd : ctx.schemas.Distinct) (path : List Fragment) (id : Fragment)
    (ms : Members) (parent : String) (s : Builder) (h : Consistent ctx asked s)
    (ho : Occurs ctx asked id (.object ms)) (hform : HasForm ctx id (.interface ms)) {n : NodeId}
    (htrail : Trail ctx path id n s) :
    Traces ctx asked s (interface ctx path id ms parent) fun _ t =>
      ∀ entry ∈ namedMembers ms "patternProperties",
        Noted ctx t id n (below id ["patternProperties", entry.1]) (patternNote parent entry.1) := by
  have hsite : ∀ site ∈ partSites ctx.options.unreachableDefinitions id (.interface ms),
      IsSiteOf ctx id site := fun site => hform.isSiteOf
  simp only [partSites, List.mem_append] at hsite
  have hdefinitions : ctx.options.unreachableDefinitions = true →
      ∀ site, site ∈ entrySites id ms "definitions" ∨ site ∈ entrySites id ms "$defs" →
        IsSiteOf ctx id site := by
    intro hkept site hs
    refine hsite site (.inl (.inr ?_))
    rw [if_pos hkept]
    exact List.mem_append.2 hs
  rw [interface]
  refine .bind (runs_visitEach path id ms "properties" _ s h (by decide) ho)
    (traces_visitEach hd path id ms "properties" _ s h (by decide) ho htrail
      fun site hs => hsite site (.inl (.inl (.inl hs)))) fun properties s₁ h₁ _ _ _ => ?_
  have t₁ := htrail.advances h₁
  refine .bind (runs_visitEach path id ms "patternProperties" _ s₁ h₁.consistent (by decide) ho)
    (traces_visitEach hd path id ms "patternProperties" _ s₁ h₁.consistent (by decide) ho t₁
      fun site hs => hsite site (.inl (.inl (.inr hs)))) fun patterns s₂ h₂ _ _ hnoted => ?_
  have t₂ := t₁.advances h₂
  refine .bind
    (runs_visitDefinitions path id ms "definitions" parent s₂ h₂.consistent (by decide) ho)
    (traces_visitDefinitions hd path id ms "definitions" parent s₂ h₂.consistent (by decide) ho t₂
      fun hkept site hs => hdefinitions hkept site (.inl hs)) fun definitions s₃ h₃ _ n₃ _ => ?_
  have t₃ := t₂.advances h₃
  refine .bind (runs_visitDefinitions path id ms "$defs" parent s₃ h₃.consistent (by decide) ho)
    (traces_visitDefinitions hd path id ms "$defs" parent s₃ h₃.consistent (by decide) ho t₃
      fun hkept site hs => hdefinitions hkept site (.inr hs)) fun defs s₄ h₄ _ n₄ _ => ?_
  have t₄ := t₃.advances h₄
  refine .bind (runs_visitIndex path id ms s₄ h₄.consistent ho)
    (traces_visitIndex hd path id ms s₄ h₄.consistent ho t₄ fun site hs => hsite site (.inr hs))
    fun index s₅ h₅ _ n₅ _ => ?_
  refine .bind (runs_visitExtends path id ms s₅ h₅.consistent ho)
    (traces_visitExtends hd path id ms s₅ h₅.consistent ho (t₄.advances h₅) hform)
    fun supers t h₆ _ n₆ _ => .pure fun entry hentry => ?_
  exact (hnoted entry hentry _ rfl).keeps ((h₃.trans h₄).trans (h₅.trans h₆)).grows.toKeeps
    ((n₃.trans n₄).trans (n₅.trans n₆)).notes
termination_by (remaining ctx path, sizeOf ms, 0, 3)
decreasing_by all_goals exact .right _ (.right _ (.right _ (by omega)))
end

/-- The fragment at a site, where nothing is under construction. -/
theorem traces_fragment (hd : ctx.schemas.Distinct) (r : Request) (s : Builder)
    (h : Consistent ctx asked s) (hr : asked r) (hin : s.inProgress = []) :
    Traces ctx asked s (fragment ctx r.site r.key r.isRoot) fun _ _ => True := by
  have hpath : OnPath [] s := fun i hi => by
    rw [hin] at hi
    cases hi
  unfold fragment
  split
  · rename_i schema hg
    exact traces_visit hd [] r.site schema r.key r.isRoot s h (.site hr) (fun _ => .site hr hg)
      hpath fun _ _ => nofun
  · rename_i hsome
    refine traces_visit hd [] r.site .null r.key r.isRoot s h (.site hr) (fun hnone => ?_) hpath
      fun _ _ => nofun
    rw [hnone] at hsome
    cases hsome
  · exact .throw (.of_cause nofun)

end Build

end Typewright
