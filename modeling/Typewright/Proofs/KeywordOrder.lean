import Typewright.Proofs.Build.References
import Typewright.Proofs.Build.Reordered
import Typewright.Proofs.Compile

/-!
# Compiles and the order of keywords

The order of keywords does not matter: two schemas in memory that differ in it alone have the same
declarations, or fail in the same way (`compile_eq_of_reordered`). Each stage is shown to look
keywords up and never to go through them: the check and the loading by the positions of the
documents, the normal form by its rules, the build by the forms of its schemas. After the build
nothing is left of the order.
-/

namespace Typewright

open Schema (Reordered PointsInside)

variable {a b : Json}

namespace SchemaGraph

variable {g g' : SchemaGraph}

/-- The root of a graph in normal form, with the other documents. -/
theorem normalize_of_documents {root : Document} {rest : List Document} (name : String)
    (h : g.documents = root :: rest) : (g.normalize name).documents =
      { root with root := Schema.normalize name root.root } ::
        rest.map fun d => { d with root := Schema.normalizeFragment d.root } := by
  unfold normalize
  rw [h]

theorem maxDepth_normalize (g : SchemaGraph) (name : String) :
    (g.normalize name).maxDepth = g.maxDepth := by
  unfold normalize
  split <;> rfl

theorem rel_refl (x : Option Json) : Option.Rel Reordered x x := by
  cases x with
  | none => exact .none
  | some v => exact .some (.refl v)

/-- The roots in normal form. -/
theorem Twins.root (h : Twins a b g g') (hr : Reordered a b) (ha : a.Distinct) (hb : b.Distinct)
    (name : String) : Option.Rel Reordered ((g.normalize name).get? .root)
      ((g'.normalize name).get? .root) := by
  obtain ⟨rest, hdocs, hdocs'⟩ := h.documents
  rw [Fragment.root, get?_normalize_root (by rw [hdocs]; rfl),
    get?_normalize_root (by rw [hdocs']; rfl)]
  exact .some (hr.normalize ha hb name)

/-- What references lead to differs in the order of keywords alone. -/
theorem Twins.context (h : Twins a b g g') (hr : Reordered a b) (ha : a.Distinct)
    (hb : b.Distinct) (name : String) (options : Options) : BuildContext.Twins
      ⟨g.normalize name, name, options⟩ ⟨g'.normalize name, name, options⟩ := by
  obtain ⟨rest, hdocs, hdocs'⟩ := h.documents
  have hnormal := normalize_of_documents name hdocs
  have hnormal' := normalize_of_documents name hdocs'
  refine ⟨rfl, rfl, ?_, ?_, fun index _ => ?_, fun id hid => ?_⟩
  · simp only [refs_normalize, h.refs]
  · simp only [maxDepth_normalize, h.maxDepth]
  · dsimp only
    rw [hnormal, hnormal']
    cases index <;> rfl
  · simp only [targets_normalize] at hid
    dsimp only
    rw [get?, get?, hnormal, hnormal']
    cases hzero : id.document with
    | zero =>
        obtain ⟨v, hv⟩ := h.inside id hid hzero
        obtain ⟨w, hw⟩ := Schema.mem_positions_normalize name ha hv
        obtain ⟨x, hx, hy, hwx⟩ := (hr.normalize ha hb name).exists_at?
          (Schema.distinct_normalize name ha) (Schema.distinct_normalize name hb) hw
        simp only [List.getElem?_cons_zero, Option.bind_some]
        rw [hx, hy]
        exact .some hwx
    | succ index =>
        exact rel_refl _

end SchemaGraph

namespace Build

variable {ctx ctx' : BuildContext}

theorem fragment_twins (h : ctx.Twins ctx') (site : Fragment)
    (hsite : Option.Rel Reordered (ctx.schemas.get? site) (ctx'.schemas.get? site))
    (key : Option String) (isRoot : Bool) :
    fragment ctx site key isRoot = fragment ctx' site key isRoot := by
  unfold fragment
  rw [h.refs]
  generalize ctx.schemas.get? site = x, ctx'.schemas.get? site = y at hsite
  cases hsite with
  | some hvw => exact visit_twins h [] site _ _ hvw key isRoot
  | none =>
      split
      · rename_i heq
        cases heq
      · exact visit_twins h [] site _ _ (.refl .null) key isRoot
      · rfl

end Build

/-- The order of keywords does not matter to a compile: if its references into the document lead to
schemas of the document, a schema with its keywords in another order has the same declarations, or
fails in the same way. -/
theorem compile_eq_of_reordered (hr : Reordered a b) (ha : a.Distinct) (hb : b.Distinct)
    (hin : PointsInside a) (env : Environment) (options : Options) (name : String) :
    compile env options name a = compile env options name b := by
  have hcheck : check name a = check name b := by
    unfold check
    rw [hr.faults_eq]
  have hload := SchemaGraph.agree_load hr ha hb hin env options
  unfold compile Job.run
  dsimp only
  rw [hcheck]
  refine bind_congr fun _ => ?_
  generalize SchemaGraph.load env options none a = x, SchemaGraph.load env options none b = y
    at hload
  cases hload with
  | error e => rfl
  | @ok g g' h =>
      have hbuild : TypeGraph.ofSchemas ⟨g.normalize name, name, options⟩ =
          TypeGraph.ofSchemas ⟨g'.normalize name, name, options⟩ := by
        unfold TypeGraph.ofSchemas
        rw [Build.fragment_twins (h.context hr ha hb name options) .root (h.root hr ha hb name)]
      simp only [bind, Except.bind]
      rw [hbuild]

/-! ## Two orders of a linked list -/

def linkedList : Json :=
  .object [("title", .string "List"), ("properties", .object
    [("next", .object [("$ref", .string "#"), ("description", .string "The rest.")])])]

def shuffledList : Json :=
  .object [("properties", .object
    [("next", .object [("description", .string "The rest."), ("$ref", .string "#")])]),
    ("title", .string "List")]

theorem reordered_shuffledList : Reordered linkedList shuffledList := by
  refine .object (.swap _ _ _) fun key v w hv hw => ?_
  have hmem := mem_of_lookup hv
  simp only [List.mem_cons, Prod.mk.injEq, List.not_mem_nil, or_false] at hmem
  rcases hmem with ⟨rfl, rfl⟩ | ⟨rfl, rfl⟩
  · obtain rfl := Option.some.inj hw
    exact .same _ _
  · obtain rfl := Option.some.inj hw
    exact .byName rfl (.cons (Schema.reordered_of_perm (.swap _ _ _) (by decide)) .nil)

theorem pointsInside_linkedList : PointsInside linkedList := by
  have hpositions : Schema.positions "#" linkedList = [("#", linkedList), ("#/properties/next",
      .object [("$ref", .string "#"), ("description", .string "The rest.")])] := by cbv
  intro c hc reference fragment href hlocal
  rw [hpositions] at hc
  simp only [List.mem_cons, List.not_mem_nil, or_false] at hc
  rcases hc with rfl | rfl
  · cases href
  · obtain rfl := Option.some.inj href
    obtain ⟨-, rfl⟩ := List.cons.inj hlocal
    exact ⟨"#", linkedList, by rfl, Schema.mem_positions_self _ _⟩

/-- A linked list is compiled to the same text in both orders. -/
theorem compile_eq_of_reordered_shuffledList :
    linkedList ≠ shuffledList ∧ Reordered linkedList shuffledList ∧ linkedList.Distinct ∧
    shuffledList.Distinct ∧ PointsInside linkedList ∧
    compile Build.noFiles {} "Root" linkedList = compile Build.noFiles {} "Root" shuffledList := by
  have hl : linkedList.Distinct := by
    simp [linkedList, Json.Distinct, Json.DistinctMembers, Members.keys]
  have hs : shuffledList.Distinct := by
    simp [shuffledList, Json.Distinct, Json.DistinctMembers, Members.keys]
  exact ⟨by decide, reordered_shuffledList, hl, hs, pointsInside_linkedList,
    compile_eq_of_reordered reordered_shuffledList hl hs pointsInside_linkedList Build.noFiles {}
      "Root"⟩

end Typewright
