import Typewright.Proofs.Build.Graph
import Typewright.Proofs.TypeGraph.Kept

/-!
# Where the texts of a graph come from

The names of a built graph are made of the hints of its fragments, the texts of its custom types are
those of `tsType` keywords, and the texts of its references are those of the references that are not
loaded. A name is new among the names, but nothing compares it with the texts of references.
-/

namespace Typewright

/-- The name of something that is referred to but not loaded. -/
def SchemaGraph.Unloaded (g : SchemaGraph) (name : String) : Prop :=
  ∃ site, g.refs.lookup site = some (.external name)

namespace Build

variable {ctx : BuildContext} {s : Builder} {id : Fragment} {schema : Json} {kind : Kind}

/-- A text that a fragment may be named after: its hint, or else the key under which a build comes
to it. -/
def Hinted (ctx : BuildContext) (hint : String) : Prop :=
  ∃ id schema key isRoot, Occurs ctx (· = .root) id schema ∧ ctx.schemas.refs.lookup id = none ∧
    Met ctx (· = .root) id key isRoot ∧
    (nameHint ctx id schema key isRoot).getD (key.getD "Recursive") = hint

/-- The text of a `tsType` keyword that a build may come to. -/
def TypeText (ctx : BuildContext) (text : String) : Prop :=
  ∃ id ms, Occurs ctx (· = .root) id (.object ms) ∧ ms.lookup "tsType" = some (.string text)

/-! ## References -/

theorem unloaded_of_follow {g : SchemaGraph} {start current : Fragment} {hops : Nat} {name : String}
    (h : g.follow start hops current = .ok (.external name)) : g.Unloaded name := by
  induction hops generalizing current with
  | zero => cases h
  | succ hops ih =>
      rw [SchemaGraph.follow] at h
      split at h
      · cases h
      · rename_i hl
        obtain rfl := Target.external.inj (Except.ok.inj h)
        exact ⟨current, hl⟩
      · exact ih h

/-- The text of a reference is a name. -/
theorem isBare_externalText (name : String) :
    Identifier.isBare (externalText name).toList = true := by
  unfold externalText
  by_cases hempty : (Identifier.sanitize name).isEmpty
  · rw [if_pos hempty]
    decide
  · rw [if_neg hempty]
    have hne : Identifier.sanitizeChars name.toList ≠ [] := fun hnil =>
      hempty (by simp [Identifier.sanitize, hnil])
    rw [Identifier.sanitize, String.toList_ofList]
    exact (Identifier.clean_sanitizeChars hne).bare

/-- No fragment is described by a reference. -/
theorem Describes.ne_reference (h : Describes ctx s id schema kind) (text : String) :
    kind ≠ .reference text := by
  rcases h.cases with ⟨ms, -, hinterface⟩ | ⟨values, -, henum⟩ | ⟨-, -, hreference⟩
  · obtain ⟨_, _, rfl⟩ := hinterface.exists_interface
    exact nofun
  · rcases henum.enum_or_union with ⟨_, rfl⟩ | ⟨_, rfl⟩ <;> exact nofun
  · exact hreference text

/-- A custom type is described by its keyword, or by a schema that nothing satisfies. -/
theorem Describes.customType {text : String} (h : Describes ctx s id schema (.customType text)) :
    text = "never" ∨ ∃ ms, schema = .object ms ∧ ms.lookup "tsType" = some (.string text) := by
  unfold Describes at h
  split at h
  case h_2 => exact .inl (Kind.customType.inj h)
  case h_3 text' hform =>
    obtain rfl := Kind.customType.inj h
    rcases Schema.exists_members_of_form _ hform with ⟨ms, hschema, hl⟩ | hf | hf | hf
    · exact .inr ⟨ms, hschema, hl⟩
    all_goals cases hf
  case h_10 => rcases DescribesEnum.enum_or_union h with ⟨_, hkind⟩ | ⟨_, hkind⟩ <;> cases hkind
  case h_17 =>
    obtain ⟨_, _, hkind⟩ := DescribesInterface.exists_interface h
    cases hkind
  case h_18 => exact h.elim
  case h_4 | h_5 | h_6 | h_8 | h_9 | h_15 =>
    obtain ⟨_, hkind, -⟩ := h
    cases hkind
  all_goals cases h

end Build

namespace TypeGraph

open Build

variable {ctx : BuildContext} {g : TypeGraph}

/-- The text of a reference in a built graph is that of one which is not loaded. -/
theorem exists_unloaded_of_reference (h : ofSchemas ctx = .ok g) {text : String}
    (hp : g.HasKind (.reference text)) : ∃ name, ctx.schemas.Unloaded name ∧ text = externalText name := by
  obtain ⟨i, node, hn, hk⟩ := hp
  rcases describes_or_loose h hn with ⟨s, id, schema, -, hd⟩ | hloose
  · exact absurd hk (hd.ne_reference text)
  · rw [hk] at hloose
    generalize heq : Kind.reference text = kind at hloose
    cases hloose with
    | any => cases heq
    | literal => cases heq
    | external hr => exact ⟨_, unloaded_of_follow hr, Kind.reference.inj heq⟩

/-- The text of a custom type in a built graph is that of a `tsType` keyword, or stands for a schema
that nothing satisfies. -/
theorem typeText_of_customType (h : ofSchemas ctx = .ok g) {text : String}
    (hc : g.HasKind (.customType text)) : text = "never" ∨ TypeText ctx text := by
  obtain ⟨i, node, hn, hk⟩ := hc
  rcases describes_or_loose h hn with ⟨s, id, schema, ho, hd⟩ | hloose
  · rw [hk] at hd
    exact (hd.customType).imp_right fun ⟨ms, hschema, hl⟩ => ⟨id, ms, hschema ▸ ho, hl⟩
  · rw [hk] at hloose
    cases hloose

/-- The name of a node in a built graph is made of the hint of a fragment. -/
theorem exists_hinted_of_holds (h : ofSchemas ctx = .ok g) {i : NodeId} {name : String}
    (hi : g.Holds i name) : ∃ hint used, Hinted ctx hint ∧ name = Identifier.fresh hint used := by
  obtain ⟨s, hc, -, hg, -, -⟩ := exists_builder h
  obtain ⟨node, hn, hname⟩ := hi
  rw [hg] at hn
  -- only the nodes of fragments have names
  rcases hc.sourced i node hn with ⟨id, schema, isRoot, hl, ho, hmet, htitled, -⟩ | ⟨hnone, -⟩
  · have hrefs := (hc.processed id i hl).2.1
    unfold Titled at htitled
    cases hhint : nameHint ctx id schema node.key isRoot with
    | some hint =>
        rw [hhint] at htitled
        obtain ⟨used, hused⟩ := htitled
        exact ⟨hint, used, ⟨id, schema, node.key, isRoot, ho, hrefs, hmet, by rw [hhint]; rfl⟩,
          Option.some.inj (hname.symm.trans hused)⟩
    | none =>
        rw [hhint] at htitled
        obtain ⟨used, hused⟩ := htitled name hname
        exact ⟨_, used, ⟨id, schema, node.key, isRoot, ho, hrefs, hmet, by rw [hhint]; rfl⟩, hused⟩
  · rw [hname] at hnone
    cases hnone

end TypeGraph

end Typewright
