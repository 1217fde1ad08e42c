import Typewright.Proofs.Build.Basic
import Typewright.Proofs.Graph.Reordered

/-!
# Builds and the order of keywords

Schemas that differ in the order of keywords alone have the same form, but for their parts, which
differ in the same way. So two builds that read such documents run through the same steps.
-/

namespace Typewright

namespace Schema

/-- A form of object schemas that carries no schemas. -/
def Form.IsPlain : Form → Prop
  | .allOf _ | .someOf _ _ | .tuple _ | .listOf _ | .interface _ | .invalid => False
  | _ => True

/-- The same form of two object schemas. The schemas that it carries differ in the order of keywords
alone. -/
inductive ReorderedForm : Form → Form → Prop
  | plain {f : Form} (h : f.IsPlain) : ReorderedForm f f
  | allOf {xs ys : List Json} (h : List.Forall₂ Reordered xs ys) :
      ReorderedForm (.allOf xs) (.allOf ys)
  | someOf (keyword : String) {xs ys : List Json} (h : List.Forall₂ Reordered xs ys) :
      ReorderedForm (.someOf keyword xs) (.someOf keyword ys)
  | tuple {xs ys : List Json} (h : List.Forall₂ Reordered xs ys) :
      ReorderedForm (.tuple xs) (.tuple ys)
  | listOf {x y : Json} (h : Reordered x y) : ReorderedForm (.listOf x) (.listOf y)
  | interface {ms ns : Members} (h : ReorderedMembers ms ns) :
      ReorderedForm (.interface ms) (.interface ns)

variable {ms ns : Members} {v w : Json} (u : Bool)

/-- The list that a keyword for a list of schemas holds. -/
theorem ReorderedMembers.items (h : ReorderedMembers ms ns) {key : String}
    (hk : shape? key = some .list) :
    Option.Rel (List.Forall₂ Reordered) ((ms.lookup key).bind Json.items?)
      ((ns.lookup key).bind Json.items?) := by
  have hkey := h key
  rw [hk] at hkey
  generalize ms.lookup key = v, ns.lookup key = w at hkey
  cases hkey with
  | none => exact .none
  | @some v w hu =>
      cases hu with
      | same =>
          cases v with
          | array xs => exact .some (List.forall₂_same.2 fun x _ => .refl x)
          | _ => exact .none
      | list hs h => exact .some h
      | one hs h => rcases hs with hs | hs <;> cases hs

theorem ReorderedMembers.describes (h : ReorderedMembers ms ns) :
    describesMembers u ms = describesMembers u ns := by
  have hfurther := h "additionalProperties"
  unfold describesMembers
  simp only [h.has_eq]
  generalize ms.lookup "additionalProperties" = v, ns.lookup "additionalProperties" = w at hfurther
  cases hfurther with
  | none => rfl
  | some hu => cases hu <;> rfl

theorem isPlain_defaultForm (v : Option Json) : (defaultForm v).IsPlain := by
  unfold defaultForm
  split <;> trivial

theorem ReorderedMembers.namedForm (h : ReorderedMembers ms ns) (t : Option String) :
    ReorderedForm (namedForm u ms t) (namedForm u ns t) := by
  have hinterface : ∀ f : Form, f.IsPlain →
      ReorderedForm (if describesMembers u ms then .interface ms else f)
        (if describesMembers u ns then .interface ns else f) := by
    intro f hf
    rw [h.describes]
    split
    · exact .interface h
    · exact .plain hf
  unfold Schema.namedForm
  rw [h.lookup_eq (show shape? "default" = none by decide)]
  dsimp only
  split
  case h_7 => exact hinterface _ trivial
  case h_8 => exact hinterface _ (isPlain_defaultForm _)
  all_goals exact .plain trivial

theorem ReorderedMembers.valueForm (h : ReorderedMembers ms ns) (t : Option String) :
    ReorderedForm (valueForm u ms t) (valueForm u ns t) := by
  unfold Schema.valueForm
  rw [h.lookup_eq (show shape? "enum" = none by decide),
    h.lookup_eq (show shape? "const" = none by decide)]
  split
  · exact .plain trivial
  · split
    · exact .plain trivial
    · exact h.namedForm u t

theorem ReorderedMembers.itemsForm (h : ReorderedMembers ms ns) (t : Option String) :
    ReorderedForm (itemsForm u ms t) (itemsForm u ns t) := by
  have hitems := h "items"
  have hrest := h.valueForm u t
  unfold Schema.itemsForm
  generalize ms.lookup "items" = v, ns.lookup "items" = w at hitems
  cases hitems with
  | none => exact hrest
  | some hu =>
      cases hu with
      | same =>
          split
          · exact .tuple (List.forall₂_same.2 fun x _ => .refl x)
          · exact .listOf (.refl _)
          · exact .listOf (.refl _)
          · exact hrest
      | one hs h => exact .listOf h
      | list hs h => exact .tuple h

theorem ReorderedMembers.typeForm (h : ReorderedMembers ms ns) (t : Option Json) :
    ReorderedForm (typeForm u ms t) (typeForm u ns t) := by
  unfold Schema.typeForm
  split
  · exact .plain trivial
  · exact .plain trivial
  · exact h.itemsForm u _

/-- The lists of alternatives, the first of them that is there. -/
theorem choiceForm_eq (ms : Members) (t : Option Json) : choiceForm u ms t =
    ((((ms.lookup "allOf").bind Json.items?).map Form.allOf <|>
      ((ms.lookup "anyOf").bind Json.items?).map (Form.someOf "anyOf")) <|>
      ((ms.lookup "oneOf").bind Json.items?).map (Form.someOf "oneOf")).getD (typeForm u ms t) := by
  have hnone : ∀ v : Option Json, (∀ xs, v = some (.array xs) → False) →
      v.bind Json.items? = none := by
    intro v hv
    rcases v with - | v
    · rfl
    · cases v <;> first | rfl | exact (hv _ rfl).elim
  unfold choiceForm
  split
  · rename_i items heq
    rw [heq]
    rfl
  · rename_i hall
    rw [hnone _ hall]
    split
    · rename_i items heq
      rw [heq]
      rfl
    · rename_i hany
      rw [hnone _ hany]
      split
      · rename_i items heq
        rw [heq]
        rfl
      · rename_i hone
        rw [hnone _ hone]
        rfl

theorem ReorderedMembers.choiceForm (h : ReorderedMembers ms ns) (t : Option Json) :
    ReorderedForm (choiceForm u ms t) (choiceForm u ns t) := by
  have hall := h.items (show shape? "allOf" = some .list by decide)
  have hany := h.items (show shape? "anyOf" = some .list by decide)
  have hone := h.items (show shape? "oneOf" = some .list by decide)
  rw [choiceForm_eq, choiceForm_eq]
  revert hall hany hone
  generalize (ms.lookup "allOf").bind Json.items? = all,
    (ns.lookup "allOf").bind Json.items? = all',
    (ms.lookup "anyOf").bind Json.items? = any, (ns.lookup "anyOf").bind Json.items? = any',
    (ms.lookup "oneOf").bind Json.items? = one, (ns.lookup "oneOf").bind Json.items? = one'
  intro hall hany hone
  cases hall with
  | some hxy => exact .allOf hxy
  | none =>
      cases hany with
      | some hxy => exact .someOf "anyOf" hxy
      | none =>
          cases hone with
          | some hxy => exact .someOf "oneOf" hxy
          | none => exact h.typeForm u t

theorem ReorderedMembers.objectForm (h : ReorderedMembers ms ns) (t : Option Json) :
    ReorderedForm (objectForm u ms t) (objectForm u ns t) := by
  unfold Schema.objectForm
  rw [h.lookup_eq (show shape? "tsType" = none by decide)]
  split
  · exact .plain trivial
  · exact h.choiceForm u t

theorem Reordered.typeList_eq (h : Reordered v w) : typeList v = typeList w := by
  unfold typeList
  rw [h.member?_eq (by decide)]

/-- The form of an object schema does not depend on the order of keywords. -/
theorem Reordered.form (h : Reordered (.object ms) (.object ns)) (variant : Option Nat) :
    ReorderedForm (form u variant (.object ms)) (form u variant (.object ns)) := by
  have htype : entryType ms variant = entryType ns variant := by
    cases variant with
    | none => exact h.members.lookup_eq (by decide)
    | some i => simp only [entryType, h.typeList_eq]
  unfold Schema.form
  dsimp only
  rw [htype]
  exact h.members.objectForm u _

end Schema

open Schema (Reordered ReorderedMembers ReorderedForm Matched)

/-- What two builds read, if the schemas that references lead to differ in the order of keywords
alone. Only the documents other than the root are named after their files. -/
structure BuildContext.Twins (ctx ctx' : BuildContext) : Prop where
  rootName : ctx.rootName = ctx'.rootName
  unreachable : ctx.options.unreachableDefinitions = ctx'.options.unreachableDefinitions
  refs : ctx.schemas.refs = ctx'.schemas.refs
  maxDepth : ctx.schemas.maxDepth = ctx'.schemas.maxDepth
  stem : ∀ index : Nat, index ≠ 0 → (ctx.schemas.documents[index]?).bind Document.stem? =
    (ctx'.schemas.documents[index]?).bind Document.stem?
  value : ∀ id ∈ ctx.schemas.targets,
    Option.Rel Reordered (ctx.schemas.get? id) (ctx'.schemas.get? id)

namespace Build

variable {ctx ctx' : BuildContext} {schema schema' : Json} {ms ns : Members}

/-! ## What a schema says of itself -/

theorem nameHint_twins (h : ctx.Twins ctx') (hs : Reordered schema schema') (id : Fragment)
    (key : Option String) (isRoot : Bool) :
    nameHint ctx id schema key isRoot = nameHint ctx' id schema' key isRoot := by
  have hposition : ∀ segments, nameHint.atPosition ctx id schema key isRoot segments =
      nameHint.atPosition ctx' id schema' key isRoot segments := by
    intro segments
    by_cases hzero : id.document = 0
    · simp [nameHint.atPosition, h.rootName, hzero,
        hs.member?_eq (show Schema.shape? "tsEnumNames" = none by decide)]
    · simp only [nameHint.atPosition, h.rootName, h.stem _ hzero,
        hs.member?_eq (show Schema.shape? "tsEnumNames" = none by decide)]
  unfold nameHint
  simp only [hs.member?_eq (show Schema.shape? "title" = none by decide), hposition]

theorem description_reordered (hs : Reordered schema schema') (id : Fragment) :
    description id schema = description id schema' := by
  unfold description
  rw [hs.member?_eq (by decide)]

theorem enumKind_reordered (hs : Reordered schema schema') (values : List Json)
    (name : Option String) : enumKind (schema.members?.getD []) values name =
      enumKind (schema'.members?.getD []) values name := by
  have hnames : (schema.members?.getD []).lookup "tsEnumNames" =
      (schema'.members?.getD []).lookup "tsEnumNames" := by
    cases hs with
    | object perm under => exact (Reordered.members (.object perm under)).lookup_eq (by decide)
    | other => rfl
  unfold enumKind
  rw [hnames]

/-- The schemas that a keyword holds by name, one by one. -/
theorem namedMembers_reordered (h : ReorderedMembers ms ns) {keyword : String}
    (hk : Schema.shape? keyword = some .byName) :
    List.Forall₂ Matched (namedMembers ms keyword) (namedMembers ns keyword) := by
  have hkey := h keyword
  rw [hk] at hkey
  unfold namedMembers
  generalize ms.lookup keyword = v, ns.lookup keyword = w at hkey
  cases hkey with
  | none => exact .nil
  | some hu =>
      cases hu with
      | same => exact List.forall₂_same.2 fun m _ => .refl m
      | one hs h => rcases hs with hs | hs <;> cases hs
      | list hs h => exact .nil
      | byName hkeys h => exact Schema.matched_of_keys hkeys h

theorem singlePattern_reordered (h : ReorderedMembers ms ns) :
    singlePattern ms (namedMembers ms "patternProperties") =
      singlePattern ns (namedMembers ns "patternProperties") := by
  have hlength := (namedMembers_reordered h
    (show Schema.shape? "patternProperties" = some .byName by decide)).length_eq
  have hfurther := h "additionalProperties"
  unfold singlePattern
  rw [hlength]
  generalize ms.lookup "additionalProperties" = v, ns.lookup "additionalProperties" = w at hfurther
  cases hfurther with
  | none => rfl
  | some hu => cases hu <;> rfl

theorem interfaceMembers_reordered (h : ReorderedMembers ms ns)
    (properties patterns definitions : List (String × NodeId)) (index : List InterfaceMember) :
    interfaceMembers ms properties patterns definitions index =
      interfaceMembers ns properties patterns definitions index := by
  unfold interfaceMembers requiredKeys
  rw [singlePattern_reordered h, h.lookup_eq (by decide)]

/-! ## Two builds -/

mutual
theorem visit_twins (h : ctx.Twins ctx') (path : List Fragment) (site : Fragment)
    (schema schema' : Json) (hs : Reordered schema schema') (key : Option String) (isRoot : Bool) :
    visit ctx path site schema key isRoot = visit ctx' path site schema' key isRoot := by
  have hresolve := SchemaGraph.resolve_congr h.refs h.maxDepth site
  cases hr : ctx.schemas.resolve site with
  | error e => rw [visit_of_error hr, visit_of_error (hresolve ▸ hr)]
  | ok target =>
      cases target with
      | external name => rw [visit_of_external hr, visit_of_external (hresolve ▸ hr)]
      | fragment id =>
          rw [visit_of_fragment hr, visit_of_fragment (hresolve ▸ hr)]
          refine bind_congr fun s => ?_
          cases s.processed.lookup id with
          | some node => rfl
          | none =>
              rw [Option.elim_none, Option.elim_none]
              by_cases hp : id ∈ path
              · rw [dif_pos hp, dif_pos hp]
              · rw [dif_neg hp, dif_neg hp]
                -- a site comes with its value, what references lead to is looked up
                by_cases hsite : id = site
                · rw [if_pos hsite, if_pos hsite]
                  exact build_twins h path id schema schema' hs key isRoot hp
                · have ht := (ctx.schemas.resolve_eq_or_mem hr).resolve_left hsite
                  have hvalue := h.value id ht
                  rw [if_neg hsite, if_neg hsite]
                  generalize ctx.schemas.get? id = x, ctx'.schemas.get? id = y at hvalue
                  cases hvalue with
                  | none => rfl
                  | @some v w hvw => exact build_twins h path id v w hvw key isRoot hp
termination_by (remaining ctx path, sizeOf schema, openVariants path site schema, 3)
decreasing_by
  · subst hsite
    exact lex_of_le (remaining_cons_le ctx _ path) (.right _ (.right _ (by omega)))
  · exact .left _ _ (remaining_cons_lt ht hp)

theorem build_twins (h : ctx.Twins ctx') (path : List Fragment) (id : Fragment)
    (schema schema' : Json) (hs : Reordered schema schema') (key : Option String) (isRoot : Bool)
    (hp : id ∉ path) :
    build ctx path id schema key isRoot hp = build ctx' path id schema' key isRoot hp := by
  have hvariants : Schema.variants schema = Schema.variants schema' := by
    rw [Schema.variants, Schema.variants, hs.typeList_eq]
  rw [build, build]
  split
  · rename_i hv
    rw [dif_pos (hvariants ▸ hv), nameHint_twins h hs, description_reordered hs]
    refine bind_congr fun node => bind_congr fun name => ?_
    rw [parts_twins h path id schema schema' hs name key hp hv (hvariants ▸ hv)]
  · rename_i hv
    rw [dif_neg (hvariants ▸ hv)]
termination_by
  (remaining ctx (id :: path), sizeOf schema, openVariants path id schema, 2)
decreasing_by exact .right _ (.right _ (.right _ (by omega)))

theorem parts_twins (h : ctx.Twins ctx') (path : List Fragment) (id : Fragment)
    (schema schema' : Json) (hs : Reordered schema schema') (name key : Option String)
    (hp : id ∉ path)
    (hv : id.variant ∈ Schema.variants schema) (hv' : id.variant ∈ Schema.variants schema') :
    parts ctx path id schema name key hp hv = parts ctx' path id schema' name key hp hv' := by
  rw [parts_eq, parts_eq, ← h.unreachable]
  cases hs with
  | other hvalue =>
      cases schema with
      | bool b => cases b <;> rfl
      | object ms => cases hvalue
      | _ => rfl
  | @object ms ns perm under =>
      have hs : Reordered (.object ms) (.object ns) := .object perm under
      have hform := hs.form ctx.options.unreachableDefinitions id.variant
      have hsize := Schema.partSize_form ctx.options.unreachableDefinitions id.variant (.object ms)
      generalize Schema.form ctx.options.unreachableDefinitions id.variant (.object ms) = f,
        Schema.form ctx.options.unreachableDefinitions id.variant (.object ns) = f' at hform hsize
      cases hform with
      | plain hplain =>
          cases f with
          | branches count =>
              have hopen := openVariants_cons_lt hv hp
              rw [partsOf, partsOf, visitBranches_twins h (id :: path) id _ _ hs key]
          | enumeration values => exact enumKind_reordered hs values name
          | _ => first | rfl | exact hplain.elim
      | @allOf xs ys hxy =>
          rw [partsOf, partsOf, visitItems_twins h (id :: path) id "allOf" 0 xs ys hxy]
      | @someOf keyword xs ys hxy =>
          rw [partsOf, partsOf, visitItems_twins h (id :: path) id keyword 0 xs ys hxy]
      | @tuple xs ys hxy =>
          rw [partsOf, partsOf, visitItems_twins h (id :: path) id "items" 0 xs ys hxy]
      | @listOf x y hxy =>
          rw [partsOf, partsOf, visit_twins h (id :: path) (below id ["items"]) x y hxy none false]
      | @interface ms ns hms =>
          rw [partsOf, partsOf, ← h.rootName, interface_twins h (id :: path) id ms ns hms]
termination_by
  (remaining ctx (id :: path), sizeOf schema, openVariants path id schema, 1)
decreasing_by
  all_goals
    subst_vars
    simp only [Schema.Form.partSize] at hsize
  · exact .right _ (.right _ (.left _ _ hopen))
  all_goals exact .right _ (.left _ _ hsize)

theorem visitItems_twins (h : ctx.Twins ctx') (path : List Fragment) (id : Fragment)
    (keyword : String) (start : Nat) (xs ys : List Json) (hxy : List.Forall₂ Reordered xs ys) :
    visitItems ctx path id keyword start xs = visitItems ctx' path id keyword start ys := by
  cases hxy with
  | nil => rw [visitItems, visitItems]
  | @cons x y xs ys hx hxs =>
      rw [visitItems, visitItems, visit_twins h path _ x y hx none false]
      refine bind_congr fun node => ?_
      rw [visitItems_twins h path id keyword (start + 1) xs ys hxs]
termination_by (remaining ctx path, sizeOf xs, 0, 0)
decreasing_by
  all_goals exact .right _ (.left _ _ (by simp only [List.cons.sizeOf_spec]; omega))

theorem visitBranches_twins (h : ctx.Twins ctx') (path : List Fragment) (id : Fragment)
    (schema schema' : Json) (hs : Reordered schema schema') (key : Option String)
    (entries : List Nat) :
    visitBranches ctx path id schema key entries =
      visitBranches ctx' path id schema' key entries := by
  cases entries with
  | nil => rw [visitBranches, visitBranches]
  | cons entry rest =>
      rw [visitBranches, visitBranches, visit_twins h path _ schema schema' hs key false]
      refine bind_congr fun node => ?_
      rw [visitBranches_twins h path id schema schema' hs key rest]
termination_by (remaining ctx path, sizeOf schema, openVariants path id schema, 4 + entries.length)
decreasing_by
  all_goals
    exact .right _ (.right _ (.right _ (by subst_vars; simp only [List.length_cons]; omega)))

theorem visitNamed_twins (h : ctx.Twins ctx') (path : List Fragment) (id : Fragment)
    (keyword : String) (note : String → Option String) (ms ns : Members)
    (hmn : List.Forall₂ Matched ms ns) :
    visitNamed ctx path id keyword note ms = visitNamed ctx' path id keyword note ns := by
  cases hmn with
  | nil => rw [visitNamed, visitNamed]
  | @cons m n ms ns hm hms =>
      rw [visitNamed, visitNamed, ← hm.1, visit_twins h path _ m.2 n.2 hm.2 (some m.1) false,
        visitNamed_twins h path id keyword note ms ns hms]
termination_by (remaining ctx path, sizeOf ms, 0, 0)
decreasing_by
  all_goals exact .right _ (.left _ _ (by
    have hentry : sizeOf m.2 ≤ sizeOf m := by
      cases m
      simp only [Prod.mk.sizeOf_spec]
      omega
    simp only [List.cons.sizeOf_spec]
    omega))

theorem visitSupers_twins (h : ctx.Twins ctx') (path : List Fragment) (id : Fragment) (start : Nat)
    (xs ys : List Json) (hxy : List.Forall₂ Reordered xs ys) :
    visitSupers ctx path id start xs = visitSupers ctx' path id start ys := by
  cases hxy with
  | nil => rw [visitSupers, visitSupers]
  | @cons x y xs ys hx hxs =>
      rw [visitSupers, visitSupers, visit_twins h path _ x y hx none false,
        visitSupers_twins h path id (start + 1) xs ys hxs]
termination_by (remaining ctx path, sizeOf xs, 0, 0)
decreasing_by
  all_goals exact .right _ (.left _ _ (by simp only [List.cons.sizeOf_spec]; omega))

theorem visitEach_twins (h : ctx.Twins ctx') (path : List Fragment) (id : Fragment)
    (ms ns : Members) (hmn : ReorderedMembers ms ns) (keyword : String)
    (note : String → Option String) (hk : Schema.shape? keyword = some .byName) :
    visitEach ctx path id ms keyword note = visitEach ctx' path id ns keyword note := by
  rw [visitEach_eq, visitEach_eq]
  exact visitNamed_twins h path id keyword note _ _ (namedMembers_reordered hmn hk)
termination_by (remaining ctx path, sizeOf ms, 0, 1)
decreasing_by exact .right _ (lex_of_le (sizeOf_namedMembers ms keyword) (.right _ (by omega)))

theorem visitDefinitions_twins (h : ctx.Twins ctx') (path : List Fragment) (id : Fragment)
    (ms ns : Members) (hmn : ReorderedMembers ms ns) (keyword parent : String)
    (hk : Schema.shape? keyword = some .byName) :
    visitDefinitions ctx path id ms keyword parent =
      visitDefinitions ctx' path id ns keyword parent := by
  rw [visitDefinitions, visitDefinitions, ← h.unreachable]
  split
  · exact visitEach_twins h path id ms ns hmn keyword _ hk
  · rfl
termination_by (remaining ctx path, sizeOf ms, 0, 2)
decreasing_by exact .right _ (.right _ (.right _ (by omega)))

theorem visitIndex_twins (h : ctx.Twins ctx') (path : List Fragment) (id : Fragment)
    (ms ns : Members) (hmn : ReorderedMembers ms ns) :
    visitIndex ctx path id ms = visitIndex ctx' path id ns := by
  have hkey := hmn "additionalProperties"
  have hsize : ∀ v, ms.lookup "additionalProperties" = some v → sizeOf v < sizeOf ms :=
    fun v => Schema.sizeOf_lookup
  rw [visitIndex_eq, visitIndex_eq, singlePattern_reordered hmn]
  generalize ms.lookup "additionalProperties" = x, ns.lookup "additionalProperties" = y
    at hkey hsize
  have hobject : ∀ vs ws, x = some (.object vs) → Reordered (.object vs) (.object ws) →
      ∀ single, indexOf ctx path id single (some (.object vs)) =
        indexOf ctx' path id single (some (.object ws)) := by
    intro vs ws hx hvw single
    have hsize := hsize _ hx
    rw [indexOf, indexOf, visit_twins h path _ _ _ hvw none false]
  cases hkey with
  | none => rfl
  | @some v w hu =>
      cases hu with
      | same =>
          cases v with
          | object vs => exact hobject vs vs rfl (.refl _) _
          | bool b => cases b <;> rfl
          | _ => rfl
      | one hs hvw => exact hobject _ _ rfl hvw _
      | list hs hvw => rfl
termination_by (remaining ctx path, sizeOf ms, 0, 2)
decreasing_by exact .right _ (.left _ _ hsize)

theorem visitExtends_twins (h : ctx.Twins ctx') (path : List Fragment) (id : Fragment)
    (ms ns : Members) (hmn : ReorderedMembers ms ns) :
    visitExtends ctx path id ms = visitExtends ctx' path id ns := by
  have hkey := hmn "tsExtends"
  have hsize : ∀ v, ms.lookup "tsExtends" = some v → sizeOf v < sizeOf ms :=
    fun v => Schema.sizeOf_lookup
  rw [visitExtends_eq, visitExtends_eq]
  generalize ms.lookup "tsExtends" = x, ns.lookup "tsExtends" = y at hkey hsize
  have hobject : ∀ vs ws, x = some (.object vs) → Reordered (.object vs) (.object ws) →
      supersOf ctx path id (some (.object vs)) = supersOf ctx' path id (some (.object ws)) := by
    intro vs ws hx hvw
    have hsize := hsize _ hx
    rw [supersOf, supersOf, visit_twins h path _ _ _ hvw none false]
  have harray : ∀ xs ys, x = some (.array xs) → List.Forall₂ Reordered xs ys →
      supersOf ctx path id (some (.array xs)) = supersOf ctx' path id (some (.array ys)) := by
    intro xs ys hx hxy
    have hsize : sizeOf xs < sizeOf ms := by
      have hlt := hsize _ hx
      rw [Json.array.sizeOf_spec] at hlt
      omega
    rw [supersOf, supersOf, visitSupers_twins h path id 0 xs ys hxy]
  cases hkey with
  | none => rfl
  | @some v w hu =>
      cases hu with
      | same =>
          cases v with
          | object vs => exact hobject vs vs rfl (.refl _)
          | array xs => exact harray xs xs rfl (List.forall₂_same.2 fun x _ => .refl x)
          | _ => rfl
      | one hs hvw => exact hobject _ _ rfl hvw
      | list hs hxy => exact harray _ _ rfl hxy
termination_by (remaining ctx path, sizeOf ms, 0, 2)
decreasing_by
  all_goals exact .right _ (.left _ _ hsize)

theorem interface_twins (h : ctx.Twins ctx') (path : List Fragment) (id : Fragment)
    (ms ns : Members) (hmn : ReorderedMembers ms ns) (parent : String) :
    interface ctx path id ms parent = interface ctx' path id ns parent := by
  rw [interface, interface]
  simp only [interfaceMembers_reordered hmn,
    visitEach_twins h path id ms ns hmn "properties" _ (by decide),
    visitEach_twins h path id ms ns hmn "patternProperties" _ (by decide),
    visitDefinitions_twins h path id ms ns hmn "definitions" parent (by decide),
    visitDefinitions_twins h path id ms ns hmn "$defs" parent (by decide),
    visitIndex_twins h path id ms ns hmn, visitExtends_twins h path id ms ns hmn]
termination_by (remaining ctx path, sizeOf ms, 0, 3)
decreasing_by all_goals exact .right _ (.right _ (.right _ (by omega)))
end

end Build

end Typewright
