import Typewright.Proofs.Build.References

/-!
# One node a fragment

A builder records the slot of a fragment before it visits the fragment's parts. Records are only
added, each for a fragment that has none, also by a step that fails, so a fragment never gets a second
node. And since whatever is on the path is recorded, the test that keeps the path free of repetitions
refuses nothing: a step that misses a fragment was asked for one without a value.
-/

namespace Typewright

namespace Build

variable {α β : Type} {ctx : BuildContext} {asked : Request → Prop} {path : List Fragment}
  {s t u : Builder}

/-! ## Records -/

/-- Records are only added, each for a fragment that has none. -/
structure Records (s t : Builder) : Prop where
  suffix : s.processed <:+ t.processed
  once : (s.processed.map (·.1)).Nodup → (t.processed.map (·.1)).Nodup

theorem Records.of_eq (h : t.processed = s.processed) : Records s t where
  suffix := h ▸ List.suffix_refl _
  once := h ▸ id

theorem Records.refl (s : Builder) : Records s s := .of_eq rfl

theorem Records.trans (h : Records s t) (h' : Records t u) : Records s u where
  suffix := h.suffix.trans h'.suffix
  once := h'.once ∘ h.once

theorem not_mem_keys_of_lookup {κ ν : Type} [BEq κ] [LawfulBEq κ] {l : List (κ × ν)} {k : κ}
    (h : l.lookup k = none) : k ∉ l.map (·.1) := by
  intro hmem
  obtain ⟨p, hp, rfl⟩ := List.mem_map.1 hmem
  simpa using List.lookup_eq_none_iff.1 h p hp

theorem isSome_lookup_of_suffix {κ ν : Type} [BEq κ] [LawfulBEq κ] {l l' : List (κ × ν)} {k : κ}
    (h : l <:+ l') (hk : (l.lookup k).isSome) : (l'.lookup k).isSome := by
  obtain ⟨front, rfl⟩ := h
  rw [List.lookup_append]
  cases front.lookup k <;> simp [hk]

/-- The fragments on the path are recorded. -/
def Opened (path : List Fragment) (s : Builder) : Prop :=
  ∀ id ∈ path, (s.processed.lookup id).isSome

theorem Opened.records (h : Opened path s) (hr : Records s t) : Opened path t :=
  fun id hid => isSome_lookup_of_suffix hr.suffix (h id hid)

/-- If a failure is that a fragment is missing, the fragment has no value. -/
def Excused (ctx : BuildContext) : CompileError → Prop
  | .schema _ (.fragmentMissing id) => ctx.schemas.get? id = none
  | _ => True

/-! ## Steps -/

/-- A step only adds records, whether it succeeds or fails. -/
def Remembers (ctx : BuildContext) (s : Builder) (x : Build α) : Prop :=
  Ends x s (fun _ t => Records s t) fun e t => Records s t ∧ Excused ctx e

theorem Remembers.of_eq {x : Build α}
    (h : Ends x s (fun _ t => t.processed = s.processed) fun _ _ => False) : Remembers ctx s x :=
  Ends.mono h (fun _ _ h => .of_eq h) fun _ _ h => h.elim

theorem Remembers.pure (a : α) : Remembers ctx s (Pure.pure a) := .refl s

theorem Remembers.throw {e : CompileError} (h : Excused ctx e) :
    Remembers ctx s (throw e : Build α) :=
  ⟨.refl s, h⟩

theorem Remembers.bind {x : Build β} {f : β → Build α} (hx : Remembers ctx s x)
    (hf : ∀ b t, Records s t → Remembers ctx t (f b)) : Remembers ctx s (x >>= f) := by
  unfold Remembers
  rw [ends_bind]
  refine Ends.mono hx (fun b t h => ?_) fun _ _ h => h
  exact Ends.mono (hf b t h) (fun _ _ hu => h.trans hu) fun _ _ hu => ⟨h.trans hu.1, hu.2⟩

theorem Remembers.map {x : Build β} (f : β → α) (hx : Remembers ctx s x) :
    Remembers ctx s (f <$> x) := by
  rw [← bind_pure_comp]
  exact hx.bind fun _ _ _ => .pure _

/-- Reading the state. -/
theorem Remembers.get {f : Builder → Build α} (h : Remembers ctx s (f s)) :
    Remembers ctx s (MonadState.get >>= f) := by
  unfold Remembers
  rw [ends_bind]
  exact h

theorem Remembers.modify {f : Builder → Builder} (h : (f s).processed = s.processed) :
    Remembers ctx s (modify f : Build PUnit) :=
  .of_eq h

theorem remembers_add (kind : Kind) : Remembers ctx s (add kind) := .of_eq rfl

theorem remembers_freshName (hint : String) : Remembers ctx s (freshName hint) := .of_eq rfl

theorem remembers_appendComment (node : NodeId) (extra : String) :
    Remembers ctx s (appendComment node extra) :=
  .modify rfl

theorem remembers_markReached (node : NodeId) : Remembers ctx s (markReached node) :=
  .modify (by split <;> rfl)

theorem remembers_external (name : String) : Remembers ctx s (external name) := by
  refine .get ?_
  split
  · exact .pure _
  · exact (remembers_add _).bind fun _ _ _ => (Remembers.modify rfl).bind fun _ _ _ => .pure _

theorem remembers_addLiterals (values : List Json) : Remembers ctx s (addLiterals values) := by
  unfold addLiterals
  induction values generalizing s with
  | nil => exact .pure _
  | cons value rest ih =>
      rw [List.mapM_cons]
      exact (remembers_add _).bind fun _ _ _ => ih.bind fun _ _ _ => .pure _

theorem remembers_enumKind (ms : Members) (values : List Json) (name : Option String) :
    Remembers ctx s (enumKind ms values name) := by
  unfold enumKind
  split
  · exact (remembers_addLiterals _).bind fun _ _ _ => .pure _
  · refine (remembers_addLiterals _).bind fun _ _ _ => ?_
    dsimp only
    split <;> exact .pure _

theorem remembers_checkSuper (site : Fragment) (node : NodeId) :
    Remembers ctx s (checkSuper site node) := by
  refine .get ?_
  split
  · exact .throw trivial
  · split
    · exact .pure _
    · exact .throw trivial

theorem remembers_finishName (node : NodeId) (name key : Option String) :
    Remembers ctx s (finishName node name key) := by
  refine (Remembers.modify rfl).bind fun _ _ _ => ?_
  split
  · exact .pure _
  · refine .get ?_
    split
    · exact (remembers_freshName _).bind fun _ _ _ => .pure _
    · exact .pure _

theorem remembers_hint (hint : Option String) : Remembers ctx s (hint.mapM freshName) := by
  cases hint with
  | none => exact .pure _
  | some hint => exact (remembers_freshName hint).map some

/-- A fragment without a record gets one. -/
theorem ends_start_records {id : Fragment} (hl : s.processed.lookup id = none) :
    Ends (start id) s (fun _ t => Records s t ∧ (t.processed.lookup id).isSome) fun _ _ => False := by
  refine ⟨⟨List.suffix_cons _ _, fun hn => ?_⟩, by simp [List.lookup_cons_self]⟩
  exact List.nodup_cons.2 ⟨not_mem_keys_of_lookup hl, hn⟩

/-! ## Visits -/

theorem excused_of_follow {g : SchemaGraph} {start current : Fragment} {hops : Nat}
    {e : CompileError} (h : g.follow start hops current = .error e) : Excused ctx e := by
  obtain ⟨written, rfl⟩ := exists_of_follow_error h
  trivial

mutual
theorem remembers_visit (path : List Fragment) (site : Fragment) (schema : Json)
    (key : Option String) (isRoot : Bool) (s : Builder) (h : Opened path s) :
    Remembers ctx s (visit ctx path site schema key isRoot) := by
  rw [visit]
  split
  · rename_i e hr
    exact .throw (excused_of_follow hr)
  · exact remembers_external _
  · rename_i id hr
    refine .get ?_
    split
    · exact (remembers_markReached _).bind fun _ _ _ => .pure _
    · rename_i hl
      split
      · -- what is on the path is recorded
        rename_i hp
        have hsome := h id hp
        rw [hl] at hsome
        cases hsome
      · rename_i hp
        split
        · exact remembers_build path id schema key isRoot hp s h hl
        · split
          · rename_i hg
            exact .throw hg
          · rename_i schema' _
            exact remembers_build path id schema' key isRoot hp s h hl
termination_by (remaining ctx path, sizeOf schema, openVariants path site schema, 3)
decreasing_by
  · rename_i hr _ _ hp hs _ _ _
    exact .left _ _ (remaining_cons_lt ((ctx.schemas.resolve_eq_or_mem hr).resolve_left hs) hp)
  · rename_i hs
    subst hs
    exact lex_of_le (remaining_cons_le ctx _ path) (.right _ (.right _ (by omega)))

theorem remembers_build (path : List Fragment) (id : Fragment) (schema : Json)
    (key : Option String) (isRoot : Bool) (hp : id ∉ path) (s : Builder) (h : Opened path s)
    (hl : s.processed.lookup id = none) :
    Remembers ctx s (build ctx path id schema key isRoot hp) := by
  rw [build]
  split
  case isFalse => exact .throw trivial
  rename_i hv
  unfold Remembers
  rw [ends_bind]
  refine Ends.mono (ends_start_records hl) (fun node t ht => ?_) fun _ _ h => h.elim
  obtain ⟨hrecords, hid⟩ := ht
  have hopen : Opened (id :: path) t := fun other hmem => by
    rcases List.mem_cons.1 hmem with rfl | hmem
    · exact hid
    · exact h.records hrecords other hmem
  refine Ends.mono (Remembers.bind (remembers_hint _) fun name u hu => ?_)
    (fun _ _ hu => hrecords.trans hu) fun _ _ hu => ⟨hrecords.trans hu.1, hu.2⟩
  refine (remembers_parts path id schema name key hp hv u (hopen.records hu)).bind fun _ _ _ => ?_
  refine (remembers_finishName _ _ _).bind fun _ _ _ => ?_
  exact (Remembers.modify rfl).bind fun _ _ _ => .pure _
termination_by
  (remaining ctx (id :: path), sizeOf schema, openVariants path id schema, 2)
decreasing_by exact .right _ (.right _ (.right _ (by omega)))

theorem remembers_parts (path : List Fragment) (id : Fragment) (schema : Json)
    (name key : Option String) (hp : id ∉ path) (hv : id.variant ∈ Schema.variants schema)
    (s : Builder) (h : Opened (id :: path) s) :
    Remembers ctx s (parts ctx path id schema name key hp hv) := by
  rw [parts]
  split
  case h_1 | h_2 | h_3 | h_7 | h_11 | h_12 | h_13 | h_14 | h_16 => exact .pure _
  case h_4 items hf =>
    exact (remembers_visitItems (id :: path) id "allOf" 0 items s h).bind fun _ _ _ => .pure _
  case h_5 keyword items hf =>
    exact (remembers_visitItems (id :: path) id keyword 0 items s h).bind fun _ _ _ => .pure _
  case h_6 count hf =>
    exact (remembers_visitBranches (id :: path) id schema key (List.range count) s h).bind
      fun _ _ _ => .pure _
  case h_8 items hf =>
    exact (remembers_visitItems (id :: path) id "items" 0 items s h).bind fun _ _ _ => .pure _
  case h_9 item hf =>
    exact (remembers_visit (id :: path) (below id ["items"]) item none false s h).bind
      fun _ _ _ => .pure _
  case h_10 values hf => exact remembers_enumKind _ values name
  case h_15 => exact (remembers_add .any).bind fun _ _ _ => .pure _
  case h_17 ms hf => exact remembers_interface (id :: path) id ms _ s h
  case h_18 => exact .throw trivial
termination_by
  (remaining ctx (id :: path), sizeOf schema, openVariants path id schema, 1)
decreasing_by
  all_goals
    have hsize := Schema.partSize_form ctx.options.unreachableDefinitions id.variant schema
    rw [‹Schema.form ctx.options.unreachableDefinitions id.variant schema = _›] at hsize
    simp only [Schema.Form.partSize] at hsize
  · exact .right _ (.left _ _ hsize)
  · exact .right _ (.left _ _ hsize)
  · exact .right _ (.right _ (.left _ _ (openVariants_cons_lt hv hp)))
  · exact .right _ (.left _ _ hsize)
  · exact .right _ (.left _ _ hsize)
  · exact .right _ (.left _ _ hsize)

theorem remembers_visitItems (path : List Fragment) (id : Fragment) (keyword : String)
    (start : Nat) (items : List Json) (s : Builder) (h : Opened path s) :
    Remembers ctx s (visitItems ctx path id keyword start items) := by
  cases items with
  | nil =>
    rw [visitItems]
    exact .pure _
  | cons item rest =>
    rw [visitItems]
    refine (remembers_visit path _ item none false s h).bind fun _ t ht => ?_
    exact (remembers_visitItems path id keyword (start + 1) rest t (h.records ht)).bind
      fun _ _ _ => .pure _
termination_by (remaining ctx path, sizeOf items, 0, 0)
decreasing_by
  all_goals exact .right _ (.left _ _ (by subst_vars; simp only [List.cons.sizeOf_spec]; omega))

theorem remembers_visitBranches (path : List Fragment) (id : Fragment) (schema : Json)
    (key : Option String) (entries : List Nat) (s : Builder) (h : Opened path s) :
    Remembers ctx s (visitBranches ctx path id schema key entries) := by
  cases entries with
  | nil =>
    rw [visitBranches]
    exact .pure _
  | cons entry rest =>
    rw [visitBranches]
    refine (remembers_visit path { id with variant := some entry } schema key false s h).bind
      fun _ t ht => ?_
    exact (remembers_visitBranches path id schema key rest t (h.records ht)).bind
      fun _ _ _ => .pure _
termination_by (remaining ctx path, sizeOf schema, openVariants path id schema, 4 + entries.length)
decreasing_by
  all_goals exact .right _ (.right _ (.right _ (by subst_vars; simp only [List.length_cons]; omega)))

theorem remembers_visitNamed (path : List Fragment) (id : Fragment) (keyword : String)
    (note : String → Option String) (ms : Members) (s : Builder) (h : Opened path s) :
    Remembers ctx s (visitNamed ctx path id keyword note ms) := by
  cases ms with
  | nil =>
    rw [visitNamed]
    exact .pure _
  | cons entry rest =>
    rw [visitNamed]
    refine (remembers_visit path _ entry.2 (some entry.1) false s h).bind fun c t ht => ?_
    have hrest : ∀ u, Records t u → Remembers ctx u
        (visitNamed ctx path id keyword note rest >>= fun nodes => pure ((entry.1, c) :: nodes)) :=
      fun u hu => (remembers_visitNamed path id keyword note rest u
        (h.records (ht.trans hu))).bind fun _ _ _ => .pure _
    dsimp only
    split
    · exact hrest t (.refl t)
    · exact (remembers_appendComment c _).bind fun _ u hu => hrest u hu
termination_by (remaining ctx path, sizeOf ms, 0, 0)
decreasing_by
  all_goals exact .right _ (.left _ _ (by
    have hentry : sizeOf entry.2 ≤ sizeOf entry := by
      cases entry
      simp only [Prod.mk.sizeOf_spec]
      omega
    subst_vars
    simp only [List.cons.sizeOf_spec]
    omega))

theorem remembers_visitSupers (path : List Fragment) (id : Fragment) (start : Nat)
    (items : List Json) (s : Builder) (h : Opened path s) :
    Remembers ctx s (visitSupers ctx path id start items) := by
  cases items with
  | nil =>
    rw [visitSupers]
    exact .pure _
  | cons item rest =>
    rw [visitSupers]
    refine (remembers_visit path _ item none false s h).bind fun c t ht => ?_
    refine (remembers_checkSuper _ c).bind fun _ u hu => ?_
    exact (remembers_visitSupers path id (start + 1) rest u (h.records (ht.trans hu))).bind
      fun _ _ _ => .pure _
termination_by (remaining ctx path, sizeOf items, 0, 0)
decreasing_by
  all_goals exact .right _ (.left _ _ (by subst_vars; simp only [List.cons.sizeOf_spec]; omega))

theorem remembers_visitEach (path : List Fragment) (id : Fragment) (ms : Members)
    (keyword : String) (note : String → Option String) (s : Builder) (h : Opened path s) :
    Remembers ctx s (visitEach ctx path id ms keyword note) := by
  rw [visitEach]
  split
  · rename_i named hl
    exact remembers_visitNamed path id keyword note named s h
  · exact .pure _
termination_by (remaining ctx path, sizeOf ms, 0, 1)
decreasing_by
  exact .right _ (.left _ _ (by
    rename_i hl
    have := Schema.sizeOf_lookup hl
    simp only [Json.object.sizeOf_spec] at this
    omega))

theorem remembers_visitDefinitions (path : List Fragment) (id : Fragment) (ms : Members)
    (keyword parent : String) (s : Builder) (h : Opened path s) :
    Remembers ctx s (visitDefinitions ctx path id ms keyword parent) := by
  rw [visitDefinitions]
  split
  · exact remembers_visitEach path id ms keyword _ s h
  · exact .pure _
termination_by (remaining ctx path, sizeOf ms, 0, 2)
decreasing_by exact .right _ (.right _ (.right _ (by omega)))

theorem remembers_visitIndex (path : List Fragment) (id : Fragment) (ms : Members) (s : Builder)
    (h : Opened path s) : Remembers ctx s (visitIndex ctx path id ms) := by
  rw [visitIndex]
  split
  · exact .pure _
  · rename_i further hl
    exact (remembers_visit path (below id ["additionalProperties"]) (.object further) none false s
      h).bind fun _ _ _ => .pure _
  · split
    · exact .pure _
    · exact (remembers_add .any).bind fun _ _ _ => .pure _
termination_by (remaining ctx path, sizeOf ms, 0, 2)
decreasing_by
  rename_i hl
  exact .right _ (.left _ _ (Schema.sizeOf_lookup hl))

theorem remembers_visitExtends (path : List Fragment) (id : Fragment) (ms : Members)
    (s : Builder) (h : Opened path s) : Remembers ctx s (visitExtends ctx path id ms) := by
  rw [visitExtends]
  split
  · exact .pure _
  · rename_i targets hl
    exact remembers_visitSupers path id 0 targets s h
  · rename_i target hl
    refine (remembers_visit path (below id ["tsExtends"]) (.object target) none false s h).bind
      fun c _ _ => ?_
    exact (remembers_checkSuper _ c).bind fun _ _ _ => .pure _
  · exact .throw trivial
termination_by (remaining ctx path, sizeOf ms, 0, 2)
decreasing_by
  · rename_i hl
    exact .right _ (.left _ _ (by
      have := Schema.sizeOf_lookup hl
      simp only [Json.array.sizeOf_spec] at this
      omega))
  · rename_i hl
    exact .right _ (.left _ _ (Schema.sizeOf_lookup hl))

theorem remembers_interface (path : List Fragment) (id : Fragment) (ms : Members)
    (parent : String) (s : Builder) (h : Opened path s) :
    Remembers ctx s (interface ctx path id ms parent) := by
  rw [interface]
  refine (remembers_visitEach path id ms "properties" _ s h).bind fun _ s₁ h₁ => ?_
  have h := h.records h₁
  refine (remembers_visitEach path id ms "patternProperties" _ s₁ h).bind fun _ s₂ h₂ => ?_
  have h := h.records h₂
  refine (remembers_visitDefinitions path id ms "definitions" parent s₂ h).bind fun _ s₃ h₃ => ?_
  have h := h.records h₃
  refine (remembers_visitDefinitions path id ms "$defs" parent s₃ h).bind fun _ s₄ h₄ => ?_
  have h := h.records h₄
  refine (remembers_visitIndex path id ms s₄ h).bind fun _ s₅ h₅ => ?_
  exact (remembers_visitExtends path id ms s₅ (h.records h₅)).bind fun _ _ _ => .pure _
termination_by (remaining ctx path, sizeOf ms, 0, 3)
decreasing_by all_goals exact .right _ (.right _ (.right _ (by omega)))
end

theorem remembers_fragment (r : Request) (s : Builder) :
    Remembers ctx s (fragment ctx r.site r.key r.isRoot) := by
  unfold fragment
  split
  · exact remembers_visit [] _ _ _ _ s nofun
  · exact remembers_visit [] _ _ _ _ s nofun
  · rename_i hg _
    exact .throw hg

/-! ## Requests -/

theorem records_request (ctx : BuildContext) (s : Builder) (r : Request) :
    Records s (request ctx s r) := by
  have h : Remembers ctx s _ := remembers_fragment r s
  unfold Remembers Ends at h
  unfold request
  split at h
  · rename_i heq
    rw [heq]
    exact h
  · rename_i heq
    rw [heq]
    exact h.1

theorem records_serve (ctx : BuildContext) (s : Builder) (requests : List Request) :
    Records s (serve ctx s requests) := by
  induction requests generalizing s with
  | nil => exact .refl s
  | cons r rest ih => exact (records_request ctx s r).trans (ih _)

/-- The records of a builder: each fragment has one node at most, which is no other's, and a node of
no fragment has no parts. -/
structure Memoized (ctx : BuildContext) (s : Builder) : Prop where
  once : (s.processed.map (·.1)).Nodup
  apart : (s.processed.map (·.2)).Nodup
  sources : ∀ i node, s.graph.get? i = some node →
    (∃ id, (id, i) ∈ s.processed) ∨ Loose ctx node.kind

theorem Consistent.memoized (h : Consistent ctx asked s) (hn : (s.processed.map (·.1)).Nodup) :
    Memoized ctx s where
  once := hn
  apart := by
    refine hn.of_map _ |>.map_on ?_
    rintro ⟨id, i⟩ hp ⟨id', i'⟩ hp' heq
    obtain rfl : i = i' := heq
    rw [h.separate id id' i (lookup_of_mem_of_nodup hn hp) (lookup_of_mem_of_nodup hn hp')]
  sources i node hnode := by
    rcases h.sourced i node hnode with ⟨id, _, _, hl, -⟩ | ⟨-, -, hloose⟩
    · exact .inl ⟨id, mem_of_lookup hl⟩
    · exact .inr hloose

/-- A request for a recorded fragment is answered by its record. -/
theorem Consistent.run_fragment_of_lookup (h : Consistent ctx asked s) (hd : ctx.schemas.Distinct)
    (r : Request) {id : Fragment} {i : NodeId}
    (hr : ctx.schemas.resolve r.site = .ok (.fragment id)) (hl : s.processed.lookup id = some i) :
    ∃ needsName, (fragment ctx r.site r.key r.isRoot).run s = (.ok i, { s with needsName }) := by
  have hvisit : ∀ schema, ∃ needsName,
      (visit ctx [] r.site schema r.key r.isRoot).run s = (.ok i, { s with needsName }) := by
    intro schema
    refine ⟨if i ∈ s.inProgress then i :: s.needsName else s.needsName, run_of_ends ?_⟩
    rw [ends_visit_seen hr hl]
    split <;> exact ⟨rfl, rfl⟩
  unfold fragment
  split
  · exact hvisit _
  · exact hvisit _
  · -- such a site is a recorded fragment itself, so it has a value
    rename_i hget hrefs
    obtain rfl : r.site = id := by
      rw [SchemaGraph.resolve, SchemaGraph.follow, hrefs] at hr
      exact Target.fragment.inj (Except.ok.inj hr)
    obtain ⟨-, -, schema, hoccurs, -⟩ := h.processed _ _ hl
    rw [hoccurs.get? hd] at hget
    cases hget

/-- A fragment gets one node, whatever requests a builder serves, also after failed ones: what is
recorded stays recorded under the same node, distinct fragments have distinct nodes, and a request for
a recorded fragment is answered with its node and makes nothing. A request fails for a missing fragment
only if that has no value, however the references lead in circles. -/
theorem memoized_serve {env : Environment} {options : Options} {location : Option FileUrl}
    {schema : Json} {g : SchemaGraph} (h : SchemaGraph.load env options location schema = .ok g)
    (hd : schema.Distinct) (ctx : BuildContext)
    (hs : ctx.schemas = g ∨ ∃ name, ctx.schemas = g.normalize name) (reserved : List String)
    (requests later : List Request) (r : Request) :
    let s := serve ctx { usedNames := reserved } requests
    let t := serve ctx s later
    Memoized ctx s ∧ s.processed <:+ t.processed ∧
    Ends (fragment ctx r.site r.key r.isRoot) t (fun i u => Finds ctx u r.site i)
      (fun e _ => Excused ctx e) ∧
    ∀ id i, ctx.schemas.resolve r.site = .ok (.fragment id) → s.processed.lookup id = some i →
      ∃ needsName, (fragment ctx r.site r.key r.isRoot).run t = (.ok i, { t with needsName }) := by
  intro s t
  have hdistinct := SchemaGraph.distinct_of_load_or_normalize h hd hs
  obtain ⟨hcs, -⟩ : Consistent ctx (fun _ => True) s ∧ _ :=
    keeps_serve (consistent_empty ctx _ reserved) fun _ _ => trivial
  obtain ⟨hct, hgrows⟩ : Consistent ctx (fun _ => True) t ∧ _ := keeps_serve hcs fun _ _ => trivial
  have honce : (s.processed.map (·.1)).Nodup := (records_serve ctx _ requests).once List.nodup_nil
  refine ⟨hcs.memoized honce, (records_serve ctx s later).suffix, ?_, fun id i hr hl => ?_⟩
  · have hfound := runs_fragment r t hct trivial
    have hexcused : Remembers ctx t _ := remembers_fragment r t
    unfold Runs Remembers Ends at *
    split
    · rename_i heq
      rw [heq] at hfound
      exact hfound.2.1
    · rename_i heq
      rw [heq] at hexcused
      exact hexcused.2
  · exact hct.run_fragment_of_lookup hdistinct r hr (hgrows.processed id i hl)

/-- A request for the items of recursive lists is answered with the node of the list. -/
theorem memoized_serve_recursiveList :
    SchemaGraph.load noFiles {} none recursiveList = .ok recursiveContext.schemas ∧
    recursiveList.Distinct ∧
    ∃ needsName, (fragment recursiveContext (below .root ["items"]) none false).run
      (serve recursiveContext {} [.root]) =
        (.ok 0, { serve recursiveContext {} [.root] with needsName }) := by
  have hload := load_recursiveList defaultBanner
  have hd : recursiveList.Distinct :=
    ⟨by decide, trivial, trivial, ⟨List.nodup_singleton _, trivial, trivial⟩, trivial⟩
  have hrun : (serve recursiveContext {} [.root]).processed.lookup .root = some 0 := by
    change ((fragment recursiveContext .root none true).run {}).2.processed.lookup .root = some 0
    rw [run_recursive (by rfl) (by rfl) (by rfl) (by rfl) (by rfl)]
    rfl
  obtain ⟨-, -, -, hrecall⟩ := memoized_serve hload hd recursiveContext (.inl rfl) [] [.root] []
    ⟨below .root ["items"], none, false⟩
  exact ⟨hload, hd, hrecall .root 0 (by rfl) hrun⟩

end Build

end Typewright
