import Typewright.Proofs.Build.Graph

/-!
# Names of roots and definitions

The root of a build and the fragments under `definitions` and `$defs` always have a hint for their
name, so their nodes have names made of it.
-/

namespace Typewright

namespace Build

variable {ctx : BuildContext} {asked : Request → Prop} {s : Builder} {id : Fragment}
  {schema : Json} {key : Option String} {isRoot : Bool} {node : Node}

/-! ## Steps below a fragment -/

/-- Fragments that are as many steps below others are equal only if the others and the steps are. -/
theorem below_inj {owner owner' : Fragment} {steps steps' : List String}
    (h : below owner steps = below owner' steps') (hlength : steps.length = steps'.length)
    (hp : Pointer.Rooted owner.pointer) (hp' : Pointer.Rooted owner'.pointer)
    (hv : owner.variant = owner'.variant) : owner = owner' ∧ steps = steps' := by
  cases owner with
  | mk document pointer variant =>
      cases owner' with
      | mk document' pointer' variant' =>
          obtain ⟨rfl, hpointer, -⟩ := Fragment.mk.inj h
          obtain rfl : variant = variant' := hv
          have hsplit := congrArg Pointer.split hpointer
          rw [(Pointer.split_build hp _).2, (Pointer.split_build hp' _).2] at hsplit
          obtain ⟨-, rfl⟩ := List.append_inj' hsplit hlength
          rw [Pointer.build_eq_append, Pointer.build_eq_append pointer'] at hpointer
          obtain rfl := (String.append_left_inj _).1 hpointer
          exact ⟨rfl, rfl⟩

/-! ## Hints -/

/-- The root has a hint, whatever reference led to it. -/
theorem isSome_nameHint_root (hv : id.variant = none) (schema : Json) (key : Option String) :
    (nameHint ctx id schema key true).isSome := by
  have hroot : ∀ segments, (nameHint.atPosition ctx id schema key true segments).isSome :=
    fun _ => rfl
  unfold nameHint
  rw [hv]
  dsimp only [Option.isSome_none]
  rw [if_neg Bool.false_ne_true]
  split
  · rfl
  · split
    · split
      · rfl
      · exact hroot _
    · exact hroot _

/-- A definition is named after its title, or else after its key. -/
theorem nameHint_definition {keyword : String} (hk : keyword = "definitions" ∨ keyword = "$defs")
    (hid : Pointer.Rooted id.pointer) (name : String) (schema : Json) (key : Option String)
    (isRoot : Bool) : nameHint ctx (below id [keyword, name]) schema key isRoot =
      some (((schema.member? "title").bind Json.string?).getD name) := by
  have hsegments : (Pointer.split (below id [keyword, name]).pointer).reverse =
      name :: keyword :: (Pointer.split id.pointer).reverse := by
    rw [below, (Pointer.split_build hid _).2]
    simp
  have hparent : (keyword == "definitions" || keyword == "$defs") = true := by
    rcases hk with rfl | rfl <;> rfl
  unfold nameHint
  rw [show (below id [keyword, name]).variant = none from rfl]
  dsimp only [Option.isSome_none]
  rw [if_neg Bool.false_ne_true]
  cases (schema.member? "title").bind Json.string? with
  | some title => rfl
  | none => simp only [hsegments, hparent, if_true, Option.getD_none]

theorem Titled.exists_name {hint : String} (h : Titled ctx id schema isRoot node)
    (hh : nameHint ctx id schema node.key isRoot = some hint) :
    ∃ used, node.name = some (Identifier.fresh hint used) := by
  rw [Titled, hh] at h
  exact h

/-! ## The root -/

/-- The first visit of a fragment makes a node that is named after it. -/
theorem runs_visit_first {path : List Fragment} {site : Fragment}
    (hr : ctx.schemas.resolve site = .ok (.fragment id)) (h : Consistent ctx asked s)
    (hmet : Met ctx asked site key isRoot) (hl : s.processed.lookup id = none)
    (ho : ctx.schemas.refs.lookup site = none → Occurs ctx asked site schema) :
    Runs ctx asked s (visit ctx path site schema key isRoot) fun i t =>
      ∃ schema node, t.graph.get? i = some node ∧ Titled ctx id schema isRoot node := by
  have hbuild : ∀ schema' hp, Occurs ctx asked id schema' →
      Runs ctx asked s (build ctx path id schema' key isRoot hp) fun i t =>
        ∃ schema node, t.graph.get? i = some node ∧ Titled ctx id schema isRoot node :=
    fun schema' hp ho => (runs_build path id schema' key isRoot hp s h (hmet.target hr) hl
      (follow_lookup hr) ho).mono fun i t _ hb => ⟨schema', hb.2⟩
  rw [visit_of_fragment hr]
  refine .get ?_
  rw [hl, Option.elim_none]
  split
  · exact .throw h trivial
  · rename_i hp
    split
    · rename_i hs
      exact hbuild schema hp (hs ▸ ho (hs ▸ follow_lookup hr))
    · rename_i hs
      have ht := (ctx.schemas.resolve_eq_or_mem hr).resolve_left hs
      cases hg : ctx.schemas.get? id with
      | none => exact .throw h trivial
      | some schema' => exact hbuild schema' hp (.target ht hg)

end Build

namespace TypeGraph

open Build

variable {ctx : BuildContext} {g : TypeGraph} {id : Fragment}

/-- The root of a built graph has a name, unless it is the name of something that is not loaded. -/
theorem exists_root_name (h : ofSchemas ctx = .ok g)
    (hr : ctx.schemas.resolve .root = .ok (.fragment id)) (hv : id.variant = none) :
    ∃ node name, g.get? g.root = some node ∧ node.name = some name := by
  have hempty := consistent_empty ctx (· = .root) []
  have hmet : Met ctx (· = .root) .root none true := .site (r := .root) rfl
  have hruns : Runs ctx (· = .root) {} (fragment ctx .root none true) fun i t =>
      ∃ schema node, t.graph.get? i = some node ∧ Titled ctx id schema true node := by
    unfold fragment
    split
    · rename_i schema hg
      exact runs_visit_first hr hempty hmet rfl fun _ => .site (r := .root) rfl hg
    · rename_i hsome
      exact runs_visit_first hr hempty hmet rfl fun hnone => by
        rw [hnone] at hsome
        cases hsome
    · exact .throw hempty trivial
  unfold Runs Ends at hruns
  unfold ofSchemas at h
  split at h
  · rename_i root s heq
    rw [heq] at hruns
    obtain rfl := Except.ok.inj h
    obtain ⟨-, schema, node, hn, htitled⟩ := hruns
    obtain ⟨hint, hh⟩ := Option.isSome_iff_exists.1 (isSome_nameHint_root hv schema node.key)
    obtain ⟨used, hname⟩ := htitled.exists_name hh
    exact ⟨node, _, hn, hname⟩
  · cases h

end TypeGraph

end Typewright
