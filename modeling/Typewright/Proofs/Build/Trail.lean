import Typewright.Proofs.Build.References

/-!
# The trail of a build

The type of a fragment is made of other fragments, which it contains or extends. While it is built
the fragments under construction form a trail: each of them leads to the one that is visited. So a
step that comes to an unfinished node has come back to a fragment which leads to the place where the
step is. This is when a super type is refused, and when the comment of a node stays as it is.
-/

namespace Typewright

namespace Build

variable {α β : Type} {ctx : BuildContext} {asked : Request → Prop} {path : List Fragment}
  {site id target : Fragment} {i n : NodeId} {text : String} {s t u : Builder}

/-! ## What a fragment leads to -/

/-- Where the schemas stand that a keyword holds by name. -/
def entrySites (id : Fragment) (ms : Members) (keyword : String) : List Fragment :=
  (namedMembers ms keyword).map fun entry => below id [keyword, entry.1]

/-- Where the schema of further properties stands. -/
def indexSites (id : Fragment) (ms : Members) : List Fragment :=
  match ms.lookup "additionalProperties" with
  | some (.object _) => [below id ["additionalProperties"]]
  | _ => []

/-- Where the parts of a form stand, apart from super types. -/
def partSites (keep : Bool) (id : Fragment) : Schema.Form → List Fragment
  | .allOf items => itemSites id "allOf" 0 items
  | .someOf keyword items => itemSites id keyword 0 items
  | .branches count => (List.range count).map fun i => { id with variant := some i }
  | .tuple items => itemSites id "items" 0 items
  | .listOf _ => [below id ["items"]]
  | .interface ms =>
    entrySites id ms "properties" ++ entrySites id ms "patternProperties" ++
    (if keep then entrySites id ms "definitions" ++ entrySites id ms "$defs" else []) ++
    indexSites id ms
  | _ => []

/-- The value of a fragment has a form. -/
def HasForm (ctx : BuildContext) (id : Fragment) (f : Schema.Form) : Prop :=
  ∃ schema, ctx.schemas.get? id = some schema ∧
    Schema.form ctx.options.unreachableDefinitions id.variant schema = f

theorem HasForm.unique {f f' : Schema.Form} (h : HasForm ctx id f) (h' : HasForm ctx id f') :
    f = f' := by
  obtain ⟨schema, hget, rfl⟩ := h
  obtain ⟨schema', hget', rfl⟩ := h'
  rw [Option.some.inj (hget.symm.trans hget')]

theorem HasForm.get? {ms : Members} (h : HasForm ctx id (.interface ms)) :
    ctx.schemas.get? id = some (.object ms) := by
  obtain ⟨schema, hget, hform⟩ := h
  rcases Schema.exists_members_of_form _ hform with ⟨ms', rfl, rfl⟩ | hf | hf | hf
  · exact hget
  all_goals cases hf

/-- The references from a part of a fragment, which is no super type, lead to another fragment. -/
def Contains (ctx : BuildContext) (id target : Fragment) : Prop :=
  ∃ f site, HasForm ctx id f ∧ site ∈ partSites ctx.options.unreachableDefinitions id f ∧
    ctx.schemas.resolve site = .ok (.fragment target)

/-- The references from a super type of a fragment, which stands at a site, lead to another. -/
def ExtendsAt (ctx : BuildContext) (id site target : Fragment) : Prop :=
  ∃ ms, HasForm ctx id (.interface ms) ∧ site ∈ superSites id ms ∧
    ctx.schemas.resolve site = .ok (.fragment target)

/-- Inheritance: a fragment has another as a super type. -/
def Extends (ctx : BuildContext) (id target : Fragment) : Prop :=
  ∃ site, ExtendsAt ctx id site target

/-- The type of a fragment is made of another fragment. -/
def Leads (ctx : BuildContext) (id target : Fragment) : Prop :=
  Contains ctx id target ∨ Extends ctx id target

/-- Whatever the references from a site lead to, the type of a fragment is made of it. -/
def IsSiteOf (ctx : BuildContext) (id site : Fragment) : Prop :=
  ∀ target, ctx.schemas.resolve site = .ok (.fragment target) → Leads ctx id target

theorem HasForm.isSiteOf {f : Schema.Form} (h : HasForm ctx id f)
    (hs : site ∈ partSites ctx.options.unreachableDefinitions id f) : IsSiteOf ctx id site :=
  fun _ hr => .inl ⟨f, site, h, hs, hr⟩

theorem itemSites_cons (id : Fragment) (keyword : String) (start : Nat) (item : Json)
    (rest : List Json) : itemSites id keyword start (item :: rest) =
      below id [keyword, toString start] :: itemSites id keyword (start + 1) rest := rfl

/-! ## The trail -/

/-- What is under construction was recorded for a fragment of the path. -/
def OnPath (path : List Fragment) (s : Builder) : Prop :=
  ∀ i ∈ s.inProgress, ∃ a ∈ path, s.processed.lookup a = some i

/-- All fragments of a path lead to a fragment. -/
def LeadTo (ctx : BuildContext) (path : List Fragment) (id : Fragment) : Prop :=
  ∀ a ∈ path, Relation.ReflTransGen (Leads ctx) a id

/-- The parts of a fragment, which has the slot `n`, are being visited: what is under construction
leads to it and was begun no later. -/
structure Trail (ctx : BuildContext) (path : List Fragment) (id : Fragment) (n : NodeId)
    (s : Builder) : Prop where
  pending : OnPath path s
  leads : LeadTo ctx path id
  newest : ∀ i ∈ s.inProgress, i ≤ n

theorem OnPath.advances (h : OnPath path s) (ha : Advances ctx asked s t) : OnPath path t := by
  intro i hi
  obtain ⟨a, ha', hl⟩ := h i (ha.inProgress ▸ hi)
  exact ⟨a, ha', ha.grows.processed _ _ hl⟩

theorem Trail.advances (h : Trail ctx path id n s) (ha : Advances ctx asked s t) :
    Trail ctx path id n t where
  pending := h.pending.advances ha
  leads := h.leads
  newest i hi := h.newest i (ha.inProgress ▸ hi)

theorem Trail.leadTo (h : Trail ctx path id n s) (hs : IsSiteOf ctx id site) (target : Fragment)
    (hr : ctx.schemas.resolve site = .ok (.fragment target)) : LeadTo ctx path target :=
  fun a ha => (h.leads a ha).tail (hs target hr)

/-- The references from a site lead to a fragment that leads back. -/
def LeadsBack (ctx : BuildContext) (site id : Fragment) : Prop :=
  ∃ target, ctx.schemas.resolve site = .ok (.fragment target) ∧
    Relation.ReflTransGen (Leads ctx) target id

/-- The node that is found for a site is built, or it was begun earlier and leads back. -/
theorem Trail.built_or_back (h : Trail ctx path id n s) (hc : Consistent ctx asked s)
    (hf : Finds ctx s site i) (hi : i < s.graph.size) :
    (∃ node, s.graph.get? i = some node) ∨ i ≤ n ∧ LeadsBack ctx site id := by
  cases hn : s.graph.get? i with
  | some node => exact .inl ⟨node, rfl⟩
  | none =>
      right
      have hopen := (hc.pending i).2 ⟨hi, hn⟩
      obtain ⟨a, ha, hl⟩ := h.pending i hopen
      unfold Finds at hf
      split at hf
      · rename_i target hr
        obtain rfl := hc.separate _ _ i hf hl
        exact ⟨h.newest i hopen, target, hr, h.leads target ha⟩
      · obtain ⟨node, hnode, -⟩ := hc.references _ _ hf
        rw [hn] at hnode
        cases hnode
      · exact hf.elim

/-! ## Notes -/

/-- The comment of a node has a text in it. -/
def HasNote (g : TypeGraph) (i : NodeId) (text : String) : Prop :=
  ∃ node comment, g.get? i = some node ∧ node.comment = some comment ∧
    text.toList <:+: comment.toList

/-- The node that is found for a site has a note, unless it was begun no later than the node `n` of
a fragment and leads back to that. -/
def Noted (ctx : BuildContext) (s : Builder) (id : Fragment) (n : NodeId) (site : Fragment)
    (text : String) : Prop :=
  ∃ i, Finds ctx s site i ∧ (HasNote s.graph i text ∨ i ≤ n ∧ LeadsBack ctx site id)

/-- No note is lost. -/
def KeepsNotes (s t : Builder) : Prop := ∀ i text, HasNote s.graph i text → HasNote t.graph i text

theorem Noted.keeps (h : Noted ctx s id n site text) (hk : Keeps s t) (hn : KeepsNotes s t) :
    Noted ctx t id n site text := by
  obtain ⟨i, hf, hnote⟩ := h
  exact ⟨i, hf.keeps hk, hnote.imp_left (hn i text)⟩

theorem KeepsNotes.of_get? (h : ∀ i node, s.graph.get? i = some node → t.graph.get? i = some node) :
    KeepsNotes s t := by
  rintro i text ⟨node, comment, hn, hc, htext⟩
  exact ⟨node, comment, h i node hn, hc, htext⟩

/-- What the notes of an interface call it: its name if something hints at one, and otherwise the
key under which it was met, or the name of the root. -/
def caller (ctx : BuildContext) (id : Fragment) (schema : Json) (isRoot : Bool) (node : Node) :
    String :=
  (if (nameHint ctx id schema node.key isRoot).isSome then node.name else node.key).getD
    ctx.rootName

/-- The patterns of an interface have notes that call it `parent`. -/
def SignsAs (ctx : BuildContext) (s : Builder) (id : Fragment) (n : NodeId) (parent : String) :
    Prop :=
  ∀ ms, HasForm ctx id (.interface ms) → ∀ entry ∈ namedMembers ms "patternProperties",
    Noted ctx s id n (below id ["patternProperties", entry.1]) (patternNote parent entry.1)

/-- The patterns of a fragment with a node have its notes. -/
def Signs (ctx : BuildContext) (asked : Request → Prop) (s : Builder) (id : Fragment) (i : NodeId)
    (node : Node) : Prop :=
  ∃ schema isRoot, ctx.schemas.get? id = some schema ∧ Met ctx asked id node.key isRoot ∧
    SignsAs ctx s id i (caller ctx id schema isRoot node)

/-! ## Steps -/

/-- The built fragments do not inherit in circles, and their patterns have notes. -/
def Orderly (ctx : BuildContext) (asked : Request → Prop) (s : Builder) : Prop :=
  ∀ id i node, s.processed.lookup id = some i → s.graph.get? i = some node →
    Acc (fun b a => Extends ctx a b) id ∧ Signs ctx asked s id i node

theorem Signs.keeps {node : Node} {comment : Option String} (h : Signs ctx asked s id i node)
    (hk : Keeps s t) (hn : KeepsNotes s t) : Signs ctx asked t id i { node with comment } := by
  obtain ⟨schema, isRoot, hget, hmet, hsigns⟩ := h
  exact ⟨schema, isRoot, hget, hmet, fun ms hf entry hm => (hsigns ms hf entry hm).keeps hk hn⟩

/-- A fragment that was built before stays orderly. -/
theorem Orderly.keeps {node : Node} (h : Orderly ctx asked s) (hk : Keeps s t) (hn : KeepsNotes s t)
    (hl : s.processed.lookup id = some i) (hopen : s.graph.get? i = none → t.graph.get? i = none)
    (hi : t.graph.get? i = some node) :
    Acc (fun b a => Extends ctx a b) id ∧ Signs ctx asked t id i node := by
  cases hs : s.graph.get? i with
  | none =>
      rw [hopen hs] at hi
      cases hi
  | some old =>
      obtain ⟨comment, ht⟩ := hk.built i old hs
      obtain rfl := Option.some.inj (ht.symm.trans hi)
      obtain ⟨hacc, hsigns⟩ := h id i old hl hs
      exact ⟨hacc, hsigns.keeps hk hn⟩

/-- What a step that succeeds adds. -/
structure Tells (ctx : BuildContext) (asked : Request → Prop) (s t : Builder) : Prop where
  notes : KeepsNotes s t
  orderly : Orderly ctx asked s → Orderly ctx asked t

theorem Tells.refl (s : Builder) : Tells ctx asked s s := ⟨fun _ _ h => h, id⟩

theorem Tells.trans (h : Tells ctx asked s t) (h' : Tells ctx asked t u) : Tells ctx asked s u :=
  ⟨fun i text hn => h'.notes i text (h.notes i text hn), h'.orderly ∘ h.orderly⟩

/-- If a failure is that a super type is unfinished, the super type leads back to the fragment that
extends it. -/
def Blamed (ctx : BuildContext) (e : CompileError) : Prop :=
  ∀ pointer, e = .schema pointer .extendsUnfinished → ∃ id site target,
    ExtendsAt ctx id site target ∧ site.pointer = pointer ∧
      Relation.ReflTransGen (Leads ctx) target id

theorem Blamed.of_cause {pointer : String} {cause : SchemaFailure}
    (h : cause ≠ .extendsUnfinished) : Blamed ctx (.schema pointer cause) :=
  fun _ heq => (h (CompileError.schema.inj heq).2).elim

theorem blamed_of_follow {g : SchemaGraph} {start current : Fragment} {hops : Nat}
    {e : CompileError} (h : g.follow start hops current = .error e) : Blamed ctx e := by
  obtain ⟨written, rfl⟩ := exists_of_follow_error h
  exact fun _ heq => by cases heq

/-- A step adds what is orderly, or fails for a reason. -/
def Traces (ctx : BuildContext) (asked : Request → Prop) (s : Builder) (x : Build α)
    (post : α → Builder → Prop) : Prop :=
  Ends x s (fun a t => Tells ctx asked s t ∧ post a t) fun e _ => Blamed ctx e

section Rules

variable {post post' : α → Builder → Prop}

theorem Traces.mono {x : Build α} (h : Traces ctx asked s x post)
    (hp : ∀ a t, post a t → post' a t) : Traces ctx asked s x post' :=
  Ends.mono h (fun a t h => ⟨h.1, hp a t h.2⟩) fun _ _ h => h

theorem Traces.pure {a : α} (hp : post a s) : Traces ctx asked s (Pure.pure a) post :=
  ⟨.refl s, hp⟩

theorem Traces.throw {e : CompileError} (h : Blamed ctx e) :
    Traces ctx asked s (throw e : Build α) post :=
  h

theorem Ends.and {x : Build α} {done done' : α → Builder → Prop}
    {failed failed' : CompileError → Builder → Prop} (h : Ends x s done failed)
    (h' : Ends x s done' failed') :
    Ends x s (fun a t => done a t ∧ done' a t) fun e t => failed e t ∧ failed' e t := by
  unfold Ends at *
  split <;> simp_all

/-- A step whose run is known, and what follows it. -/
theorem Traces.bind {x : Build β} {f : β → Build α} {mid mid' : β → Builder → Prop}
    (hr : Runs ctx asked s x mid) (hx : Traces ctx asked s x mid')
    (hf : ∀ b t, Advances ctx asked s t → mid b t → Tells ctx asked s t → mid' b t →
      Traces ctx asked t (f b) post) : Traces ctx asked s (x >>= f) post := by
  unfold Traces
  rw [ends_bind]
  refine Ends.mono (Ends.and hr hx) (fun b t hb => ?_) fun _ _ he => he.2
  obtain ⟨⟨ha, hm⟩, ht, hm'⟩ := hb
  exact Ends.mono (hf b t ha hm ht hm') (fun a u hu => ⟨ht.trans hu.1, hu.2⟩) fun _ _ he => he

/-- Reading the state. -/
theorem Traces.get {f : Builder → Build α} (h : Traces ctx asked s (f s) post) :
    Traces ctx asked s (MonadState.get >>= f) post := by
  unfold Traces
  rw [ends_bind]
  exact h

end Rules

/-! ## Steps that build no fragment -/

/-- A step leaves records and slots alone, apart from new slots. -/
structure Quiet (s t : Builder) : Prop where
  processed : t.processed = s.processed
  size : s.graph.size ≤ t.graph.size
  get? : ∀ i < s.graph.size, t.graph.get? i = s.graph.get? i

theorem Quiet.of_graph (hg : t.graph = s.graph) (hp : t.processed = s.processed) : Quiet s t :=
  ⟨hp, by rw [hg], fun _ _ => by rw [hg]⟩

theorem Quiet.trans (h : Quiet s t) (h' : Quiet t u) : Quiet s u where
  processed := h'.processed.trans h.processed
  size := Nat.le_trans h.size h'.size
  get? i hi := (h'.get? i (Nat.lt_of_lt_of_le hi h.size)).trans (h.get? i hi)

theorem Quiet.keepsNotes (h : Quiet s t) : KeepsNotes s t :=
  .of_get? fun i _ hn => (h.get? i (s.graph.lt_size_of_get? hn)).trans hn

/-- Whatever the state is, a step is quiet and does not fail. -/
def Steady (x : Build α) : Prop := ∀ s, Ends x s (fun _ t => Quiet s t) fun _ _ => False

theorem Steady.pure (a : α) : Steady (Pure.pure a : Build α) := fun _ => .of_graph rfl rfl

theorem Steady.bind {x : Build β} {f : β → Build α} (hx : Steady x) (hf : ∀ b, Steady (f b)) :
    Steady (x >>= f) := by
  intro s
  rw [ends_bind]
  refine Ends.mono (hx s) (fun b t ht => ?_) fun _ _ h => h
  exact Ends.mono (hf b t) (fun _ _ hu => ht.trans hu) fun _ _ h => h

theorem Steady.get {f : Builder → Build α}
    (h : ∀ s, Ends (f s) s (fun _ t => Quiet s t) fun _ _ => False) :
    Steady (MonadState.get >>= f) := by
  intro s
  rw [ends_bind]
  exact h s

theorem Steady.modify {f : Builder → Builder} (hg : ∀ s, (f s).graph = s.graph)
    (hp : ∀ s, (f s).processed = s.processed) : Steady (modify f : Build PUnit) :=
  fun s => Quiet.of_graph (hg s) (hp s)

theorem Steady.map {x : Build β} (f : β → α) (hx : Steady x) : Steady (f <$> x) := by
  rw [← bind_pure_comp]
  exact hx.bind fun _ => .pure _

theorem steady_add (kind : Kind) : Steady (add kind) := fun s =>
  ⟨rfl, Nat.le_of_lt (by rw [s.graph.size_add]; exact Nat.lt_succ_self _),
    fun _ hi => s.graph.get?_add_of_ne (Nat.ne_of_lt hi)⟩

theorem steady_addLiterals (values : List Json) : Steady (addLiterals values) := by
  unfold addLiterals
  induction values with
  | nil => exact .pure _
  | cons value rest ih =>
      rw [List.mapM_cons]
      exact (steady_add _).bind fun _ => ih.bind fun _ => .pure _

theorem steady_freshName (hint : String) : Steady (freshName hint) :=
  fun _ => Quiet.of_graph rfl rfl

theorem steady_hint (hint : Option String) : Steady (hint.mapM freshName) := by
  cases hint with
  | none => exact .pure _
  | some hint => exact (steady_freshName hint).map some

theorem steady_external (name : String) : Steady (external name) := by
  refine .get fun s => ?_
  split
  · exact Steady.pure _ s
  · refine (steady_add _).bind (fun _ => ?_) s
    refine Steady.bind ?_ fun _ => .pure _
    exact .modify (fun _ => rfl) fun _ => rfl

theorem steady_markReached (node : NodeId) : Steady (markReached node) :=
  .modify (fun s => by split <;> rfl) fun s => by split <;> rfl

theorem steady_enumKind (ms : Members) (values : List Json) (name : Option String) :
    Steady (enumKind ms values name) := by
  unfold enumKind
  split
  · exact (steady_addLiterals _).bind fun _ => .pure _
  · refine (steady_addLiterals _).bind fun _ => ?_
    dsimp only
    split <;> exact .pure _

theorem Quiet.tells (h : Quiet s t) (hc : Consistent ctx asked s) (hk : Keeps s t) :
    Tells ctx asked s t where
  notes := h.keepsNotes
  orderly hs id i node hl hn := by
    rw [h.processed] at hl
    refine hs.keeps hk h.keepsNotes hl (fun hnone => ?_) hn
    rw [h.get? i (hc.processed id i hl).1, hnone]

/-- A quiet step tells nothing new. -/
theorem Steady.traces {x : Build α} {post : α → Builder → Prop} (h : Steady x)
    (hc : Consistent ctx asked s) (hr : Runs ctx asked s x post) :
    Traces ctx asked s x fun _ _ => True :=
  Ends.mono (Ends.and hr (h s)) (fun _ _ ht => ⟨ht.2.tells hc ht.1.1.grows.toKeeps, trivial⟩)
    fun _ _ he => he.2.elim

/-! ## Notes and super types -/

/-- A node that is built takes the note. -/
theorem traces_appendComment (h : Trail ctx path id n s) (hc : Consistent ctx asked s)
    (hf : Finds ctx s site i) (hi : i < s.graph.size) (text : String) :
    Traces ctx asked s (appendComment i text) fun _ t => Noted ctx t id n site text := by
  obtain ⟨f, hcomment, heq⟩ : ∃ f : Node → Node,
      (∀ node, ∃ comment, f node = { node with comment := some comment } ∧
        text.toList <:+: comment.toList ∧
        ∀ old, node.comment = some old → old.toList <:+: comment.toList) ∧
      appendComment i text = modify fun s => { s with graph := s.graph.modify i f } := by
    refine ⟨_, fun node => ⟨_, rfl, ?_, fun old hold => ?_⟩, rfl⟩
    · cases node.comment with
      | none => exact List.infix_rfl
      | some old =>
          rw [String.toList_append]
          exact (List.suffix_append _ _).isInfix
    · rw [hold]
      dsimp only
      rw [String.append_assoc, String.toList_append]
      exact (List.prefix_append _ _).isInfix
  have hrun := runs_appendComment hc i text
  rw [heq] at hrun ⊢
  obtain ⟨ha, -⟩ := hrun
  have hget : ∀ j, (s.graph.modify i f).get? j =
      if j = i then (s.graph.get? i).map f else s.graph.get? j := fun j => s.graph.get?_modify
  have hnotes : KeepsNotes s { s with graph := s.graph.modify i f } := by
    rintro j old ⟨node, comment, hn, hold, hinfix⟩
    by_cases hj : j = i
    · subst hj
      obtain ⟨longer, hlonger, -, hkept⟩ := hcomment node
      refine ⟨f node, longer, ?_, by rw [hlonger], hinfix.trans (hkept comment hold)⟩
      rw [hget, if_pos rfl, hn, Option.map_some]
    · exact ⟨node, comment, (hget j).trans (if_neg hj ▸ hn), hold, hinfix⟩
  refine ⟨⟨hnotes, fun hs id' j node hl hj => ?_⟩, i, hf.keeps ha.grows.toKeeps, ?_⟩
  · exact hs.keeps ha.grows.toKeeps hnotes hl (ha.grows.unbuilt j (hc.processed id' j hl).1) hj
  · obtain ⟨node, hn⟩ | hback := h.built_or_back hc hf hi
    · obtain ⟨comment, hlonger, hinfix, -⟩ := hcomment node
      refine .inl ⟨f node, comment, ?_, by rw [hlonger], hinfix⟩
      rw [hget, if_pos rfl, hn, Option.map_some]
    · exact .inr hback

/-- A super type that is unfinished leads back. -/
theorem traces_checkSuper (h : Trail ctx path id n s) (hc : Consistent ctx asked s)
    (hf : Finds ctx s site i) (hi : i < s.graph.size)
    (he : ∀ target, ctx.schemas.resolve site = .ok (.fragment target) →
      ExtendsAt ctx id site target) : Traces ctx asked s (checkSuper site i) fun _ _ => True := by
  refine .get ?_
  split
  · rename_i hnone
    refine .throw fun pointer heq => ?_
    obtain ⟨node, hn⟩ | ⟨-, target, hr, hback⟩ := h.built_or_back hc hf hi
    · rw [hnone] at hn
      cases hn
    · obtain ⟨hpointer, -⟩ := CompileError.schema.inj heq
      exact ⟨id, site, target, he target hr, hpointer, hback⟩
  · split
    · exact .pure trivial
    · exact .throw (.of_cause (by decide))

end Build

end Typewright
