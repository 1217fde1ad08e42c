import Typewright.Proofs.Build.Sources
import Typewright.Proofs.Declaration.Reading
import Typewright.Proofs.IndexSignature

/-!
# Operators bind as they are meant

No operator stands outside of brackets in an operand, unless the text of a `tsType` keyword brings it
in, which is written as it is. Where these texts are operands themselves, every type is read as it is
meant (`Job.binds_of_run`). A `tsType` that is a union is not: its brackets would be missing
(`Job.exists_operand_open`).
-/

namespace Typewright

open Build Reading

namespace TypeGraph

/-- In all types, operands show operators only where custom types do. -/
def Bound (g : TypeGraph) : Prop :=
  ∀ id node text, g.Writes id node text → node.kind.Binds g text

/-- No operator stands outside of brackets in the element of a list, and no `|` in a member of an
intersection. -/
def Parenthesized (g : TypeGraph) : Prop :=
  ∀ id node text, g.Writes id node text →
    (∀ element operand, node.kind = .array element → text = operand ++ "[]" →
      ∀ c ∈ outer {} operand.toList, c ≠ '|' ∧ c ≠ '&') ∧
    ∀ cs operands, node.kind = .intersection cs → 2 ≤ cs.length →
      List.Forall₂ g.Written cs operands →
      text = "(" ++ String.intercalate " & " operands ++ ")" →
      ∀ operand ∈ operands, ∀ c ∈ outer {} operand.toList, c ≠ '|'

/-- All types are read as they are meant. -/
def Faithful (g : TypeGraph) : Prop :=
  ∀ id node text, g.Writes id node text →
    ∃ shapes, List.Forall₂ g.Denotes node.kind.rendered shapes ∧
      read text.toList = node.kind.toShape shapes

end TypeGraph

namespace Job

variable {env : Environment} {job : Job} {out written : String} {schemas : SchemaGraph}
  {g : TypeGraph}

/-- The custom types of a compile are the texts of `tsType` keywords, and its references are names. -/
theorem Stages.verbatim (h : job.Stages env schemas g written out) {P : List Char → Prop}
    (hnever : P "never".toList)
    (hP : ∀ text, TypeText (job.context schemas) text → P text.toList) (keep : Bool) :
    (g.simplify keep).Verbatim P where
  custom id node text hn hk := by
    have hinside := (TypeGraph.wellFormed_ofSchemas h.built).inside
    rcases TypeGraph.typeText_of_customType h.built
      (TypeGraph.hasKind_of_simplify hinside (.custom text) ⟨id, node, hn, hk⟩) with rfl | htext
    · exact hnever
    · exact hP text htext
  reference id node text hn hk := by
    have hinside := (TypeGraph.wellFormed_ofSchemas h.built).inside
    obtain ⟨name, -, htext⟩ := TypeGraph.exists_unloaded_of_reference h.built
      (TypeGraph.hasKind_of_simplify hinside (.reference text) ⟨id, node, hn, hk⟩)
    rw [htext]
    exact isBare_externalText name

/-- In a compile whose `tsType` texts close what they open, operands show operators only where such a
text does that stands in them. Where those texts are items, and operands if they stand in operands,
all types are read as they are meant. -/
theorem binds_of_run (h : job.run env = .ok out)
    (hbalanced : ∀ schemas text,
      SchemaGraph.load env job.options job.location job.schema = .ok schemas →
      TypeText (job.context schemas) text → Balanced text.toList) :
    ∃ schemas g written, job.Stages env schemas g written out ∧
      (g.simplify job.options.unreachableDefinitions).Bound ∧
      ((∀ text, TypeText (job.context schemas) text → Item text.toList) →
        (g.simplify job.options.unreachableDefinitions).Closed →
        (g.simplify job.options.unreachableDefinitions).Faithful) := by
  obtain ⟨schemas, g, written, hs⟩ := exists_stages h
  have hnever := (@Declaration.operand_keyword "never" (by decide)).1.item
  refine ⟨schemas, g, written, hs, fun id node text hw => ?_, fun hitem hclosed id node text hw => ?_⟩
  · exact Declaration.binds_of_writes
      (hs.verbatim hnever.balanced (fun text => hbalanced schemas text hs.loaded) _) hw
  · exact Declaration.read_of_writes (hs.labelled _) (hs.verbatim hnever hitem _) hclosed hw

end Job

/-! ## Lists of a type text -/

namespace Build

/-- A list whose items are as a text says. -/
def listOfText (text : String) : Json := .object [("items", oneKeyword "tsType" text)]

def listOfTextMembers (text : String) : Members :=
  [("items", oneKeyword "tsType" text), ("required", .array []), ("title", .string "List")]

def listOfTextGraph (text : String) : TypeGraph :=
  ⟨#[some { kind := .array 1, name := some "List" }, some { kind := .customType text }], 0⟩

theorem normalize_listOfText (text : String) :
    (mixedGraph (listOfText text)).normalize "List" =
      mixedGraph (.object (listOfTextMembers text)) := by
  cbv

theorem ofSchemas_listOfText (text : String) :
    TypeGraph.ofSchemas (objectContext "List" (listOfTextMembers text)) =
      .ok (listOfTextGraph text) := by
  have hself : ∀ id, (objectContext "List" (listOfTextMembers text)).schemas.resolve id =
      .ok (.fragment id) := fun _ => by rfl
  have hform : Schema.form false none (.object (listOfTextMembers text)) =
      .listOf (oneKeyword "tsType" text) := by rfl
  have hrun : (fragment (objectContext "List" (listOfTextMembers text)) .root none true).run {} =
      (.ok 0, {
        graph := listOfTextGraph text
        processed := [(⟨0, "#/items", none⟩, 1), (.root, 0)]
        usedNames := ["List"] }) := by
    refine run_of_ends ((ends_objectContext (by rfl) (by rfl) (by rfl)).2 ?_)
    rw [hform, partsOf]
    simp only [ends_bind, ends_pure]
    rw [ends_visit_leaf (hself _) (by rfl) (by decide) (by rfl) (mem_variants rfl _)
      (show _ = pure (Kind.customType text) by rfl) List.not_mem_nil]
    exact ⟨trivial, rfl⟩
  unfold TypeGraph.ofSchemas
  rw [hrun]
  rfl

/-- The only type text of the list is that of its items. -/
theorem eq_of_typeText_list {text other : String}
    (h : TypeText (objectContext "List" (listOfTextMembers text)) other) : other = text := by
  obtain ⟨id, ms, ho, hl⟩ := h
  have hd : (Json.object (listOfTextMembers text)).Distinct := by
    simp [listOfTextMembers, oneKeyword, Json.Distinct, Json.DistinctMembers, Json.DistinctItems,
      Members.keys]
  have hpositions : Schema.positions "#" (.object (listOfTextMembers text)) =
      [("#", .object (listOfTextMembers text)), ("#/items", oneKeyword "tsType" text)] := by cbv
  obtain ⟨path, hmem⟩ := mem_positions_objectContext hd ho rfl
  rw [hpositions] at hmem
  simp only [List.mem_cons, Prod.mk.injEq, Json.object.injEq, oneKeyword, List.not_mem_nil,
    or_false] at hmem
  rcases hmem with ⟨-, rfl⟩ | ⟨-, rfl⟩
  · cases hl
  · exact (Json.string.inj (Option.some.inj hl)).symm

end Build

namespace Job

theorem simplify_listOfText (text : String) :
    (listOfTextGraph text).simplify false = listOfTextGraph text := by
  cbv

open Declaration in
/-- The text stands in front of the brackets of the list. -/
theorem structureText_listOfText {text : String} (hquote : text.toList.getLast? ≠ some '"') :
    structureText (listOfTextGraph text) 0 { kind := .array 1, name := some "List" } "#" =
      .ok (text ++ "[]") := by
  have hitems : expression (listOfTextGraph text) (unexpanded (listOfTextGraph text) [0]) 1
      "#/items" = .ok text := by
    rw [expression, nodeAt_eq (by rfl)]
    rfl
  have hlist : kindText (listOfTextGraph text) (.array 1) [text] = text ++ "[]" := by
    rw [kindText_array, if_neg (by simpa using hquote)]
  change (List.mapM _ [("items", 1)] >>= fun parts => pure (kindText _ (.array 1) parts)) = _
  rw [List.mapM_cons]
  change ((expression _ _ 1 "#/items" >>= _) >>= _) = _
  rw [hitems]
  exact congrArg Except.ok hlist

open Declaration in
theorem text_listOfText {text : String} (hquote : text.toList.getLast? ≠ some '"') :
    Declaration.text { bannerComment := "" } ((listOfTextGraph text).simplify false) =
      .ok ("export type List = " ++ (text ++ "[]") ++ "\n") := by
  have halias : aliasText (listOfTextGraph text) 0 { kind := .array 1, name := some "List" } "#" =
      .ok ("export type List = " ++ (text ++ "[]")) := by
    rw [aliasText, structureText_listOfText hquote]
    -- only what stands in front of the text is computed
    exact congrArg (fun front : String => Except.ok (front ++ (text ++ "[]"))) (by decide)
  have haliases : aliases { bannerComment := "" } (listOfTextGraph text) =
      .ok ("export type List = " ++ (text ++ "[]")) := by
    have hmentioned : (listOfTextGraph text).mentioned = [0, 1] := by cbv
    rw [aliases, collect, hmentioned]
    change (walk _ _ _ [0, 1] [.enter 0 "#"] >>= _) = _
    rw [walk, dif_pos (by decide), nodeAt_eq (by rfl)]
    change (walk _ _ _ [1] [.enter 1 _, .declare 0 _ _] >>= _) = _
    rw [walk, dif_pos (by decide), nodeAt_eq (by rfl)]
    change (walk _ _ _ [] [.declare 0 _ _] >>= _) = _
    rw [walk, halias, walk]
    rfl
  have hinterfaces : interfaces { bannerComment := "" } (listOfTextGraph text) = .ok "" := by cbv
  have henums : enums { bannerComment := "" } (listOfTextGraph text) = .ok "" := by cbv
  rw [simplify_listOfText, Declaration.text, haliases, hinterfaces, henums]
  have hsections : ["", "export type List = " ++ (text ++ "[]"), "", ""].filter (· != "") =
      ["export type List = " ++ (text ++ "[]")] := by
    simp
  exact congrArg (fun sections => Except.ok (String.intercalate "\n\n" sections ++ "\n")) hsections

theorem stages_listOfText {text out : String} (hquote : text.toList.getLast? ≠ some '"')
    (hout : Layout.format {} ("export type List = " ++ (text ++ "[]") ++ "\n") = .ok out) :
    (inMemory {} "List" (listOfText text)).Stages noFiles (mixedGraph (listOfText text))
      (listOfTextGraph text) ("export type List = " ++ (text ++ "[]") ++ "\n") out :=
  stages_objectContext (by cbv) (by cbv) (normalize_listOfText text) (ofSchemas_listOfText text)
    (text_listOfText hquote) hout

theorem typeText_listOfText {text other : String}
    (h : TypeText ((inMemory {} "List" (listOfText text)).context (mixedGraph (listOfText text)))
      other) : other = text := by
  have hcontext : (inMemory {} "List" (listOfText text)).context (mixedGraph (listOfText text)) =
      objectContext "List" (listOfTextMembers text) :=
    congrArg (fun schemas => (⟨schemas, "List", { bannerComment := "" }⟩ : BuildContext))
      (normalize_listOfText text)
  rw [hcontext] at h
  exact eq_of_typeText_list h

/-- What a set may hold stands in brackets, so a list of sets is read as one. -/
theorem binds_of_run_sets :
    (inMemory {} "List" (listOfText "Set<string | null>")).run noFiles =
      .ok "export type List = Set<string | null>[];\n" ∧
    ∃ schemas g written, (inMemory {} "List" (listOfText "Set<string | null>")).Stages noFiles
      schemas g written "export type List = Set<string | null>[];\n" ∧
      (g.simplify false).Bound ∧ (g.simplify false).Faithful := by
  have hrun := (@stages_listOfText "Set<string | null>" "export type List = Set<string | null>[];\n"
    (by decide) (by decide +kernel))
  have hoperand : Operand "Set<string | null>".toList := by decide
  obtain ⟨schemas, g, written, hs, hbound, hfaithful⟩ := binds_of_run hrun.run_eq
    fun schemas text hload htext => by
      obtain rfl := Except.ok.inj (hload.symm.trans hrun.loaded)
      exact typeText_listOfText htext ▸ hoperand.balanced
  obtain rfl := Except.ok.inj (hs.loaded.symm.trans hrun.loaded)
  have htexts : ∀ text, TypeText ((inMemory {} "List" (listOfText "Set<string | null>")).context
      (mixedGraph (listOfText "Set<string | null>"))) text → Operand text.toList :=
    fun text htext => typeText_listOfText htext ▸ hoperand
  have hnever := (@Declaration.operand_keyword "never" (by decide)).1
  exact ⟨hrun.run_eq, _, g, written, hs, hbound, hfaithful
    (fun text htext => (htexts text htext).item) (hs.verbatim hnever htexts false).closed⟩

/-- A union that a `tsType` brings in is no operand: here the brackets of the list belong to its last
member only. -/
theorem exists_operand_open : ¬ ∀ (env : Environment) (job : Job) (out : String),
    job.run env = .ok out →
    (∀ schemas text, SchemaGraph.load env job.options job.location job.schema = .ok schemas →
      TypeText (job.context schemas) text → Balanced text.toList) →
    ∃ schemas g written, job.Stages env schemas g written out ∧
      (g.simplify job.options.unreachableDefinitions).Parenthesized := by
  intro h
  have hrun := (@stages_listOfText "string | number" "export type List = string | number[];\n"
    (by decide) (by decide +kernel))
  obtain ⟨schemas, g, written, hs, hparentheses⟩ := h noFiles _ _ hrun.run_eq
    fun schemas text hload htext => by
      obtain rfl := Except.ok.inj (hload.symm.trans hrun.loaded)
      have hbalanced : Balanced "string | number".toList := by decide
      exact typeText_listOfText htext ▸ hbalanced
  obtain rfl := Except.ok.inj (hs.loaded.symm.trans hrun.loaded)
  obtain rfl := Except.ok.inj (hs.built.symm.trans hrun.built)
  have hparentheses : (listOfTextGraph "string | number").Parenthesized :=
    simplify_listOfText "string | number" ▸ hparentheses
  have hwrites : (listOfTextGraph "string | number").Writes 0
      { kind := .array 1, name := some "List" } ("string | number" ++ "[]") :=
    ⟨rfl, .inl ⟨"#", structureText_listOfText (by decide)⟩⟩
  have hfree := (hparentheses 0 _ _ hwrites).1 1 "string | number" rfl rfl '|' (by decide)
  exact hfree.1 rfl

end Job

end Typewright
