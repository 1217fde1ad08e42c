import Typewright.Proofs.Build.References

/-!
# Slots that failed requests leave open

A request that fails leaves the slots of the fragments it was building reserved and recorded. Nothing
fills them later, and a request that comes to such a fragment again is answered with its slot. So a
request that succeeds leads to finished nodes, and to what earlier requests left open
(`finished_iff_of_run`); one may even be answered with an open slot (`exists_unfinished`).
-/

namespace Typewright

namespace Build

variable {ctx : BuildContext} {asked : Request → Prop} {s t : Builder} {requests : List Request}
  {i n : NodeId}

/-! ## Open slots -/

/-- A slot that a request reserves and leaves without a node, since it fails. -/
structure LeavesOpen (ctx : BuildContext) (s : Builder) (r : Request) (n : NodeId) : Prop where
  fails : ∃ e, ((fragment ctx r.site r.key r.isRoot).run s).1 = .error e
  new : s.graph.size ≤ n
  inside : n < (request ctx s r).graph.size
  unbuilt : (request ctx s r).graph.get? n = none

/-- A slot that one of a series of requests leaves open. -/
def LeftOpen (ctx : BuildContext) (s : Builder) (requests : List Request) (n : NodeId) : Prop :=
  ∃ before r after, requests = before ++ r :: after ∧ LeavesOpen ctx (serve ctx s before) r n

theorem LeftOpen.cons {r : Request} (h : LeftOpen ctx (request ctx s r) requests n) :
    LeftOpen ctx s (r :: requests) n := by
  obtain ⟨before, r', after, rfl, h⟩ := h
  exact ⟨r :: before, r', after, rfl, h⟩

/-- What is under construction after a request was so before, or the request left it open. -/
theorem mem_inProgress_request (h : Consistent ctx asked s) {r : Request} (hr : asked r)
    (hn : n ∈ (request ctx s r).inProgress) : n ∈ s.inProgress ∨ LeavesOpen ctx s r n := by
  obtain ⟨hc, hg⟩ := keeps_request h r hr
  obtain ⟨hlt, hnone⟩ := (hc.pending n).1 hn
  by_cases hold : n < s.graph.size
  · exact .inl ((h.pending n).2 ⟨hold, get?_none_of_keeps hg.toKeeps hnone⟩)
  · cases hrun : (fragment ctx r.site r.key r.isRoot).run s with
    | mk result t =>
        cases result with
        | error e => exact .inr ⟨⟨e, by rw [hrun]⟩, Nat.le_of_not_lt hold, hlt, hnone⟩
        | ok i =>
            -- a request that succeeds finishes what it began
            have hruns := runs_fragment r s h hr
            unfold Runs Ends at hruns
            rw [request, hrun] at hn
            rw [hrun] at hruns
            exact .inl (hruns.1.inProgress ▸ hn)

theorem mem_inProgress_serve (h : Consistent ctx asked s) (hr : ∀ r ∈ requests, asked r)
    (hn : n ∈ (serve ctx s requests).inProgress) :
    n ∈ s.inProgress ∨ LeftOpen ctx s requests n := by
  induction requests generalizing s with
  | nil => exact .inl hn
  | cons r rest ih =>
      have hfirst := hr r List.mem_cons_self
      obtain ⟨hc, -⟩ := keeps_request h r hfirst
      rcases ih hc (fun r' hr' => hr r' (List.mem_cons_of_mem _ hr')) hn with hn | hn
      · exact (mem_inProgress_request h hfirst hn).imp_right fun hopen =>
          ⟨[], r, rest, rfl, hopen⟩
      · exact .inr hn.cons

/-- What a request left open stays open. -/
theorem LeftOpen.get?_eq_none (h : LeftOpen ctx s requests n) (hc : Consistent ctx asked s)
    (hr : ∀ r ∈ requests, asked r) :
    n < (serve ctx s requests).graph.size ∧ (serve ctx s requests).graph.get? n = none := by
  obtain ⟨before, r, after, rfl, hopen⟩ := h
  have hsplit : serve ctx s (before ++ r :: after) =
      serve ctx (request ctx (serve ctx s before) r) after := by
    simp only [serve, List.foldl_append, List.foldl_cons]
  obtain ⟨hc, -⟩ := keeps_serve hc fun r' hr' => hr r' (List.mem_append_left _ hr')
  obtain ⟨hc, -⟩ := keeps_request hc r (hr r (by simp))
  obtain ⟨-, hg⟩ := keeps_serve hc fun r' (hr' : r' ∈ after) => hr r' (by simp [hr'])
  rw [hsplit]
  exact ⟨Nat.lt_of_lt_of_le hopen.inside hg.size, hg.unbuilt n hopen.inside hopen.unbuilt⟩

/-! ## Finished nodes -/

/-- What a node of a sound state leads to has a slot. -/
theorem Consistent.lt_size_of_reaches (h : Consistent ctx asked s) {root : NodeId}
    (hroot : root < s.graph.size) (hn : ({ s.graph with root } : TypeGraph).Reaches n) :
    n < s.graph.size := by
  induction hn with
  | refl => exact hroot
  | tail hab hbc _ => exact h.inside root _ hab _ hbc

/-- A request that succeeds leads to finished nodes, apart from what earlier requests left open: if
each of them succeeded, the node and all that it leads to are built. -/
theorem finished_iff_of_run (ctx : BuildContext) (reserved : List String) (requests : List Request)
    (r : Request) (h : (fragment ctx r.site r.key r.isRoot).run
      (serve ctx { usedNames := reserved } requests) = (.ok i, t)) (n : NodeId)
    (hn : ({ t.graph with root := i } : TypeGraph).Reaches n) :
    (∃ node, t.graph.get? n = some node) ↔ ¬ LeftOpen ctx { usedNames := reserved } requests n := by
  have hempty := consistent_empty ctx (fun _ => True) reserved
  obtain ⟨hc, -⟩ := keeps_serve hempty fun r (_ : r ∈ requests) => trivial
  have hruns := runs_fragment r _ hc trivial
  unfold Runs Ends at hruns
  rw [h] at hruns
  obtain ⟨hadv, -, hknown⟩ := hruns
  constructor
  · rintro ⟨node, hnode⟩ hopen
    obtain ⟨hlt, hnone⟩ := hopen.get?_eq_none hempty fun _ _ => trivial
    rw [hadv.grows.unbuilt n hlt hnone] at hnode
    cases hnode
  · intro hopen
    by_contra hnone
    have hnone : t.graph.get? n = none := Option.eq_none_iff_forall_ne_some.2 fun node hnode =>
      hnone ⟨node, hnode⟩
    have hpending := (hadv.consistent.pending n).2
      ⟨hadv.consistent.lt_size_of_reaches hknown.1 hn, hnone⟩
    rw [hadv.inProgress] at hpending
    exact (mem_inProgress_serve hempty (fun _ _ => trivial) hpending).elim
      (fun hmem => by cases hmem) hopen

/-! ## A request that is made again -/

/-- A schema whose super type is no schema. -/
def extendsNumber : Json := .object [("tsExtends", .number (.integer 1))]

/-- The schema in normal form. -/
def extendsMembers : Members :=
  [("tsExtends", .number (.integer 1)), ("required", .array []), ("title", .string "Root")]

def extendsContext : BuildContext where
  schemas := ⟨[⟨none, .object extendsMembers⟩], [], 50⟩
  rootName := "Root"
  options := {}

theorem load_extendsNumber : SchemaGraph.load noFiles {} none extendsNumber =
    .ok ⟨[⟨none, extendsNumber⟩], [], 50⟩ := by
  cbv

theorem normalize_extendsNumber :
    (⟨[⟨none, extendsNumber⟩], [], 50⟩ : SchemaGraph).normalize "Root" = extendsContext.schemas := by
  cbv

theorem interface_extendsMembers (path : List Fragment) (parent : String) :
    interface extendsContext path .root extendsMembers parent = (do
      let _ ← add .any
      throw (.schema "#/tsExtends" .extendsShape)) := by
  have hpointer : (below .root ["tsExtends"]).pointer = "#/tsExtends" := by decide
  rw [interface_of_reachable rfl]
  simp only [show namedMembers extendsMembers "properties" = [] by rfl,
    show namedMembers extendsMembers "patternProperties" = [] by rfl, visitNamed, pure_bind,
    show extendsMembers.lookup "additionalProperties" = none by rfl,
    show extendsMembers.lookup "tsExtends" = some (.number (.integer 1)) by rfl, indexOf, supersOf,
    hpointer, show singlePattern extendsMembers [] = false by rfl]
  rfl

/-- What the first request for the schema leaves behind: its slot stays open. -/
def extendsBuilder : Builder where
  graph := ⟨#[none, some { kind := .any }], 0⟩
  processed := [(.root, 0)]
  usedNames := ["Root"]
  inProgress := [0]

theorem run_extendsContext :
    (fragment extendsContext .root none true).run {} =
      (.error (.schema "#/tsExtends" .extendsShape), extendsBuilder) := by
  have hroot : extendsContext.schemas.resolve .root = .ok (.fragment .root) := by rfl
  have hform : Schema.form extendsContext.options.unreachableDefinitions (Fragment.root).variant
      (.object extendsMembers) = .interface extendsMembers := by rfl
  have hhint : nameHint extendsContext .root (.object extendsMembers) none true = some "Root" := by
    rfl
  refine run_of_ends_error ?_
  rw [ends_fragment (by rfl), ends_visit_new hroot rfl List.not_mem_nil, ends_build_named hhint rfl,
    parts_eq, hform, partsOf, interface_extendsMembers]
  exact ⟨rfl, rfl⟩

/-- The second request for it is answered with the open slot. -/
theorem run_extendsContext_again :
    (fragment extendsContext .root none true).run (serve extendsContext {} [.root]) =
      (.ok 0, { extendsBuilder with needsName := [0] }) := by
  have hroot : extendsContext.schemas.resolve .root = .ok (.fragment .root) := by rfl
  have hserve : serve extendsContext {} [.root] = extendsBuilder := by
    change ((fragment extendsContext .root none true).run {}).2 = _
    rw [run_extendsContext]
  rw [hserve]
  refine run_of_ends ((ends_fragment (by rfl)).2 ?_)
  rw [ends_visit_seen hroot rfl]
  exact ⟨rfl, rfl⟩

/-- The open slot is that of the request that failed. -/
theorem finished_iff_of_run_again :
    (fragment extendsContext .root none true).run (serve extendsContext {} [.root]) =
      (.ok 0, { extendsBuilder with needsName := [0] }) ∧
    ((∃ node, extendsBuilder.graph.get? 0 = some node) ↔
      ¬ LeftOpen extendsContext {} [.root] 0) :=
  ⟨run_extendsContext_again,
    finished_iff_of_run extendsContext [] [.root] .root run_extendsContext_again 0 .refl⟩

/-- A request for a fragment whose build failed may be answered with an unfinished node. -/
theorem exists_unfinished : ¬ ∀ (env : Environment) (options : Options) (location : Option FileUrl)
    (schema : Json) (g : SchemaGraph) (name : String) (requests : List Request) (r : Request)
    (i : NodeId) (t : Builder), schema.Distinct →
    SchemaGraph.load env options location schema = .ok g →
    (fragment ⟨g.normalize name, name, options⟩ r.site r.key r.isRoot).run
      (serve ⟨g.normalize name, name, options⟩ {} requests) = (.ok i, t) →
    ∀ n, ({ t.graph with root := i } : TypeGraph).Reaches n → ∃ node, t.graph.get? n = some node := by
  intro h
  have hd : extendsNumber.Distinct := ⟨List.nodup_singleton _, trivial, trivial⟩
  have hctx : (⟨SchemaGraph.normalize ⟨[⟨none, extendsNumber⟩], [], 50⟩ "Root", "Root", {}⟩ :
      BuildContext) = extendsContext := by
    rw [normalize_extendsNumber]
    rfl
  obtain ⟨node, hnode⟩ := h noFiles {} none extendsNumber _ "Root" [.root] .root 0
    { extendsBuilder with needsName := [0] } hd load_extendsNumber
    (by rw [hctx]; exact run_extendsContext_again) 0 .refl
  cases hnode

end Build

end Typewright
