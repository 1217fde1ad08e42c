import Typewright.Proofs.Declaration.Text
import Typewright.Proofs.TypeGraph.Names

/-!
# Every reachable name is declared once

Unless declarations are restricted, each pass declares the named nodes of its own kinds that the root
reaches, whatever way its walk takes: the literals of an enum, which no walk enters, have no names
and lead nowhere. So the three passes share the reachable names out between them.
-/

namespace Typewright

namespace Pass

open Declaration

variable {g : TypeGraph} {options : Options}

/-- The node in a slot if a pass declares it. -/
def pick (pass : Pass) (g : TypeGraph) (id : NodeId) : Option (NodeId × Node) :=
  (g.get? id).bind fun node =>
    if node.kind.pass = pass ∧ node.name.isSome then some (id, node) else none

theorem pick_eq_some {pass : Pass} {id : NodeId} {d : NodeId × Node} :
    pass.pick g id = some d ↔
      d.1 = id ∧ g.get? id = some d.2 ∧ d.2.kind.pass = pass ∧ d.2.name.isSome := by
  obtain ⟨i, n⟩ := d
  simp only [pick, Option.bind_eq_some_iff, Option.ite_none_right_eq_some, Option.some.injEq,
    Prod.mk.injEq]
  constructor
  · rintro ⟨node, hn, ⟨hpass, hname⟩, rfl, rfl⟩
    exact ⟨rfl, hn, hpass, hname⟩
  · rintro ⟨rfl, hn, hpass, hname⟩
    exact ⟨n, hn, ⟨hpass, hname⟩, rfl, rfl⟩

/-- The neighbours that every walk enters. -/
def next (g : TypeGraph) (id : NodeId) : List NodeId :=
  (g.get? id).elim [] fun node => node.kind.expanded

theorem refers_of_mem_next {a b : NodeId} (h : b ∈ next g a) : g.Refers a b := by
  unfold next at h
  cases hn : g.get? a with
  | none => rw [hn] at h; cases h
  | some node =>
      rw [hn] at h
      rw [TypeGraph.Refers, g.childrenOf_eq hn]
      exact node.kind.expanded_subset h

/-- A walk meets every reachable node but the literals of enums. -/
theorem mem_preorder_or_plain (h : g.Labelled) {id : NodeId} (hid : g.Reaches id) :
    id ∈ Walk.preorder (next g) g.mentioned [g.root] ∨ g.PlainLiteral id := by
  induction hid with
  | refl => exact .inl (Walk.mem_preorder_of_mem List.mem_cons_self g.root_mem_mentioned)
  | @tail a b _ hab ih =>
      have hmem := g.mem_mentioned_of_refers hab
      cases hn : g.get? a with
      | none => simp [TypeGraph.Refers, TypeGraph.childrenOf, hn] at hab
      | some node =>
          rw [TypeGraph.Refers, g.childrenOf_eq hn] at hab
          rcases ih with ih | ⟨lit, value, hlit, -, hvalue⟩
          · have hnext : next g a = node.kind.expanded := by rw [next, hn]; rfl
            cases hkind : node.kind with
            | enum members =>
                rw [hkind] at hab
                obtain ⟨m, hm, rfl⟩ := List.mem_map.1 hab
                exact .inr (h.enums a node members hn hkind m hm)
            | _ =>
                refine .inl (Walk.next_mem_preorder ih ?_ hmem)
                rwa [hnext, hkind, Kind.expanded, ← hkind]
                intro ms heq
                cases heq
          · obtain rfl := Option.some.inj (hn.symm.trans hlit)
            rw [hvalue] at hab
            cases hab

/-- A pass declares the reachable nodes of its own, each once. -/
theorem perm_declared (h : g.Labelled) (pass : Pass) (options : Options)
    (hopt : options.declareExternallyReferenced = true) :
    ((pass.declared g options).map fun d => (d.1, d.2.1)).Perm
      (g.reachable.filterMap (pass.pick g)) := by
  have hwalk : ((pass.declared g options).map fun d => (d.1, d.2.1)).Perm
      ((Walk.preorder (next g) g.mentioned [g.root]).filterMap (pass.pick g)) := by
    refine Declaration.perm_declared (fun id node path hn => ⟨?_, ?_⟩) fun id hn => ⟨?_, ?_⟩
    · rw [entered_plan pass hopt, next, hn]
      rfl
    · rw [pending_plan pass, pick, hn, Option.bind_some]
      simp only [mayDeclare_of_option hopt, implies_true, and_true]
      split <;> rfl
    · rw [next, hn]
      rfl
    · rw [pick, hn]
      rfl
  have hinj : ∀ a a' d, d ∈ pass.pick g a → d ∈ pass.pick g a' → a = a' :=
    fun a a' d ha ha' => (pick_eq_some.1 ha).1.symm.trans (pick_eq_some.1 ha').1
  refine hwalk.trans ((List.perm_ext_iff_of_nodup
    ((Walk.nodup_preorder g.nodup_mentioned).filterMap hinj)
    (g.nodup_reachable.filterMap hinj)).2 fun d => ?_)
  simp only [List.mem_filterMap]
  refine exists_congr fun id => and_congr_left fun hpick => ?_
  obtain ⟨-, hn, -, hname⟩ := pick_eq_some.1 hpick
  rw [g.mem_reachable_iff]
  constructor
  · refine Walk.preorder_induction (P := g.Reaches) ?_
      (fun a ha b hb => ha.tail (refers_of_mem_next hb)) id
    simp only [List.mem_singleton, forall_eq]
    exact .refl
  · intro hid
    refine (mem_preorder_or_plain h hid).resolve_right ?_
    rintro ⟨lit, value, hlit, hnone, -⟩
    obtain rfl := Option.some.inj (hn.symm.trans hlit)
    rw [hnone] at hname
    cases hname

/-- A pass declares nodes of its own kinds that have names. -/
theorem of_mem_declared {pass : Pass} {d : NodeId × Node × String}
    (hd : d ∈ pass.declared g options) :
    g.get? d.1 = some d.2.1 ∧ d.2.1.kind.pass = pass ∧ d.2.1.name.isSome := by
  refine Declaration.of_mem_declared (P := fun id node _ => g.get? id = some node ∧
    node.kind.pass = pass ∧ node.name.isSome) (fun id node path hn i n p hp => ?_)
    (fun i n p hp => by simp at hp) d hd
  obtain ⟨heq, hpass, hname⟩ := of_mem_pending_plan (mem_pending hp)
  obtain ⟨rfl, rfl⟩ := Prod.mk.inj heq
  exact ⟨hn, hpass, hname⟩

/-- The neighbours that the walk of a pass enters. -/
def successors (pass : Pass) (g : TypeGraph) (options : Options) (id : NodeId) : List NodeId :=
  (g.get? id).elim [] fun node => entered (pass.plan g options id node "")

/-- What the walk of a pass declares at a node. -/
def entry (pass : Pass) (g : TypeGraph) (options : Options) (id : NodeId) : Option (NodeId × Node) :=
  (g.get? id).bind fun node => (pending (pass.plan g options id node "")).head?

theorem fst_of_entry {pass : Pass} {id : NodeId} {d : NodeId × Node}
    (h : d ∈ pass.entry g options id) : d.1 = id := by
  obtain ⟨node, -, h⟩ := Option.bind_eq_some_iff.1 h
  rw [(of_mem_pending_plan (List.mem_of_head? h)).1]

/-- A pass declares what its walk meets, whatever way it takes. -/
theorem perm_entries (pass : Pass) (options : Options) :
    ((pass.declared g options).map fun d => (d.1, d.2.1)).Perm
      ((Walk.preorder (pass.successors g options) g.mentioned [g.root]).filterMap
        (pass.entry g options)) := by
  refine Declaration.perm_declared (fun id node path hn => ⟨?_, ?_⟩) fun id hn => ⟨?_, ?_⟩
  · rw [successors, hn]
    exact entered_plan_congr pass ""
  · rw [entry, hn, Option.bind_some, pending_plan, pending_plan]
    split <;> rfl
  · rw [successors, hn]
    rfl
  · rw [entry, hn, Option.bind_none]

/-- A pass declares no node twice. -/
theorem nodup_declared (pass : Pass) (options : Options) :
    ((pass.declared g options).map (·.1)).Nodup := by
  have hnodup : (((Walk.preorder (pass.successors g options) g.mentioned [g.root]).filterMap
      (pass.entry g options)).map (·.1)).Nodup := by
    refine List.Nodup.map_on (fun d hd d' hd' heq => ?_) (List.Nodup.filterMap (fun a a' d ha ha' =>
      (fst_of_entry ha).symm.trans (fst_of_entry ha')) (Walk.nodup_preorder g.nodup_mentioned))
    obtain ⟨a, -, ha⟩ := List.mem_filterMap.1 hd
    obtain ⟨a', -, ha'⟩ := List.mem_filterMap.1 hd'
    obtain rfl : a = a' := (fst_of_entry ha).symm.trans (heq.trans (fst_of_entry ha'))
    exact Option.some.inj (ha.symm.trans ha')
  have hdeclared := ((pass.perm_entries options).map (·.1)).nodup_iff.2 hnodup
  rwa [List.map_map] at hdeclared

/-- The root is declared if it has a name, whatever the options. -/
theorem mem_declared_root {node : Node} (hn : g.get? g.root = some node) (hname : node.name.isSome)
    (options : Options) : ∃ d ∈ node.kind.pass.declared g options, d.1 = g.root ∧ d.2.1 = node := by
  have hentry : node.kind.pass.entry g options g.root = some (g.root, node) := by
    have hmay : mayDeclare g options g.root = true := by simp [mayDeclare]
    rw [entry, hn, Option.bind_some, pending_plan, if_pos ⟨rfl, hname, fun _ => hmay⟩]
    rfl
  have hmem := (node.kind.pass.perm_entries (g := g) options).mem_iff.2 (List.mem_filterMap.2
    ⟨g.root, Walk.mem_preorder_of_mem List.mem_cons_self g.root_mem_mentioned, hentry⟩)
  obtain ⟨d, hd, heq⟩ := List.mem_map.1 hmem
  exact ⟨d, hd, Prod.mk.inj heq⟩

/-- What is declared is declared once, by the pass of its kind. -/
theorem count_declared {pass : Pass} {d : NodeId × Node × String}
    (hd : d ∈ pass.declared g options) (pass' : Pass) :
    ((pass'.declared g options).map (·.1)).count d.1 = if pass' = pass then 1 else 0 := by
  split
  · rename_i heq
    subst heq
    exact List.count_eq_one_of_mem (nodup_declared _ options) (List.mem_map_of_mem hd)
  · rename_i hne
    refine List.count_eq_zero_of_not_mem fun hmem => hne ?_
    obtain ⟨d', hd', heq⟩ := List.mem_map.1 hmem
    obtain ⟨hn, hpass, -⟩ := of_mem_declared hd
    obtain ⟨hn', hpass', -⟩ := of_mem_declared hd'
    rw [heq, hn, Option.some.injEq] at hn'
    exact hpass'.symm.trans (hn' ▸ hpass)

/-- Unless declarations are restricted, each named node that the root reaches is declared. -/
theorem mem_declared_of_reaches (h : g.Labelled) (hopt : options.declareExternallyReferenced = true)
    {id : NodeId} {node : Node} (hid : g.Reaches id) (hn : g.get? id = some node)
    (hname : node.name.isSome) :
    ∃ d ∈ node.kind.pass.declared g options, d.1 = id ∧ d.2.1 = node := by
  have hpick : node.kind.pass.pick g id = some (id, node) := pick_eq_some.2 ⟨rfl, hn, rfl, hname⟩
  have hmem := (perm_declared h node.kind.pass options hopt).mem_iff.2
    (List.mem_filterMap.2 ⟨id, (g.mem_reachable_iff).2 hid, hpick⟩)
  obtain ⟨d, hd, heq⟩ := List.mem_map.1 hmem
  exact ⟨d, hd, Prod.mk.inj heq⟩

end Pass

namespace Declaration

variable {g : TypeGraph} {options : Options}

theorem declaredName_eq (h : g.Labelled) {id : NodeId} {node : Node} {name : String}
    (hn : g.get? id = some node) (hname : node.name = some name) : declaredName node = name := by
  rw [declaredName, hname]
  exact Identifier.sanitize_of_clean (h.clean id node name hn hname)

/-- The passes share the names of a list of nodes out between them. -/
theorem perm_names (h : g.Labelled) (ids : List NodeId) :
    ((ids.filterMap (Pass.aliases.pick g) ++ ids.filterMap (Pass.interfaces.pick g) ++
      ids.filterMap (Pass.enums.pick g)).map fun d => declaredName d.2).Perm
        (ids.filterMap fun id => (g.get? id).bind (·.name)) := by
  induction ids with
  | nil => exact .refl _
  | cons id rest ih =>
      cases hn : g.get? id with
      | none => simpa only [List.filterMap_cons, Pass.pick, hn, Option.bind_none] using ih
      | some node =>
          cases hname : node.name with
          | none =>
              simpa only [List.filterMap_cons, Pass.pick, hn, Option.bind_some, hname,
                Option.isSome_none, Bool.false_eq_true, and_false, if_false] using ih
          | some name =>
              have hdeclared := declaredName_eq h hn hname
              simp only [List.filterMap_cons, Pass.pick, hn, Option.bind_some, hname,
                Option.isSome_some, and_true]
              cases hpass : node.kind.pass with
              | aliases =>
                  simp only [reduceCtorEq, if_true, if_false, List.cons_append, List.map_cons,
                    hdeclared]
                  exact ih.cons name
              | interfaces =>
                  simp only [reduceCtorEq, if_true, if_false, List.append_assoc, List.cons_append,
                    List.map_append, List.map_cons, hdeclared]
                  refine List.perm_middle.trans (List.Perm.cons name ?_)
                  simpa only [List.append_assoc, List.map_append] using ih
              | enums =>
                  simp only [reduceCtorEq, if_true, if_false, List.map_append, List.map_cons,
                    hdeclared]
                  refine List.perm_middle.trans (List.Perm.cons name ?_)
                  simpa only [List.map_append] using ih

/-- Two reachable nodes have different names. -/
theorem nodup_reachableNames (h : g.Labelled) : g.reachableNames.Nodup := by
  refine g.nodup_reachable.filterMap fun a b name ha hb => ?_
  obtain ⟨node, hn, hname⟩ := Option.bind_eq_some_iff.1 ha
  obtain ⟨node', hn', hname'⟩ := Option.bind_eq_some_iff.1 hb
  exact h.distinct a b node node' name hn hn' hname hname'

/-- No two declarations are made under one name, whatever is left out of them. -/
theorem nodup_declared (h : g.Labelled) (options : Options) :
    (Pass.aliases.names g options ++ Pass.interfaces.names g options ++
      Pass.enums.names g options).Nodup := by
  have hdeclared : ∀ pass : Pass, ∀ d ∈ pass.declared g options, ∃ name,
      g.get? d.1 = some d.2.1 ∧ d.2.1.kind.pass = pass ∧ d.2.1.name = some name ∧
        declaredName d.2.1 = name := by
    intro pass d hd
    obtain ⟨hn, hpass, hname⟩ := Pass.of_mem_declared hd
    obtain ⟨name, hname⟩ := Option.isSome_iff_exists.1 hname
    exact ⟨name, hn, hpass, hname, declaredName_eq h hn hname⟩
  have hsame : ∀ (pass pass' : Pass) (d) (_ : d ∈ pass.declared g options) (d')
      (_ : d' ∈ pass'.declared g options), declaredName d.2.1 = declaredName d'.2.1 →
        d.1 = d'.1 ∧ pass = pass' := by
    intro pass pass' d hd d' hd' heq
    obtain ⟨name, hn, hpass, hname, hdn⟩ := hdeclared pass d hd
    obtain ⟨name', hn', hpass', hname', hdn'⟩ := hdeclared pass' d' hd'
    obtain rfl : name = name' := hdn.symm.trans (heq.trans hdn')
    have hid := h.distinct d.1 d'.1 d.2.1 d'.2.1 name hn hn' hname hname'
    rw [hid] at hn
    rw [Option.some.inj (hn.symm.trans hn')] at hpass
    exact ⟨hid, hpass.symm.trans hpass'⟩
  have hpass : ∀ pass : Pass, (pass.names g options).Nodup := by
    intro pass
    refine List.Nodup.map_on (fun d hd d' hd' heq => ?_) (Pass.nodup_declared pass options).of_map
    have hid := (hsame pass pass d hd d' hd' heq).1
    exact List.inj_on_of_nodup_map (Pass.nodup_declared pass options) hd hd' hid
  have hdisjoint : ∀ pass pass' : Pass, pass ≠ pass' →
      (pass.names g options).Disjoint (pass'.names g options) := by
    intro pass pass' hne name hmem hmem'
    obtain ⟨d, hd, rfl⟩ := List.mem_map.1 hmem
    obtain ⟨d', hd', heq⟩ := List.mem_map.1 hmem'
    exact hne (hsame pass pass' d hd d' hd' heq.symm).2
  refine ((hpass .aliases).append (hpass .interfaces)
    (hdisjoint .aliases .interfaces nofun)).append (hpass .enums) ?_
  exact List.disjoint_append_left.2
    ⟨hdisjoint .aliases .enums nofun, hdisjoint .interfaces .enums nofun⟩

/-- The declarations of a graph are closed, and no name is declared twice. -/
structure Complete (g : TypeGraph) (options : Options) : Prop where
  /-- The three passes together declare the reachable names. -/
  names : (Pass.aliases.names g options ++ Pass.interfaces.names g options ++
    Pass.enums.names g options).Perm g.reachableNames
  distinct : g.reachableNames.Nodup
  /-- A pass declares reachable nodes of its own kinds, under their names. -/
  declared : ∀ pass : Pass, ∀ d ∈ pass.declared g options, g.Reaches d.1 ∧
    g.get? d.1 = some d.2.1 ∧ d.2.1.kind.pass = pass ∧ d.2.1.name = some (declaredName d.2.1)
  aliases : Section .aliases options g (aliases options g)
  interfaces : Section .interfaces options g (interfaces options g)
  enums : Section .enums options g (enums options g)
  /-- The text that stands for a reachable named node is a name that is declared. -/
  printed : ∀ id node name, g.Reaches id → g.get? id = some node → node.name = some name →
    name ∈ node.kind.pass.names g options ∧
    (∀ fresh path, expression g fresh id path = .ok name) ∧
    ∀ path index, superName g path id index = .ok name

/-- A well-formed graph with clean and distinct names has complete declarations. -/
theorem complete_of_labelled (hw : g.WellFormed) (h : g.Labelled)
    (hopt : options.declareExternallyReferenced = true) : Complete g options where
  names := by
    refine List.Perm.trans ?_ (perm_names h g.reachable)
    have hpass : ∀ pass : Pass, (pass.names g options).Perm
        ((g.reachable.filterMap (pass.pick g)).map fun d => declaredName d.2) := by
      intro pass
      have := (Pass.perm_declared h pass options hopt).map fun d => declaredName d.2
      rwa [List.map_map] at this
    rw [List.map_append, List.map_append]
    exact ((hpass .aliases).append (hpass .interfaces)).append (hpass .enums)
  distinct := nodup_reachableNames h
  declared pass d hd := by
    have hmem := (Pass.perm_declared h pass options hopt).mem_iff.1
      (List.mem_map_of_mem (f := fun d => (d.1, d.2.1)) hd)
    obtain ⟨id, hid, hpick⟩ := List.mem_filterMap.1 hmem
    obtain ⟨rfl, hn, hpass, hname⟩ := Pass.pick_eq_some.1 hpick
    obtain ⟨name, hname⟩ := Option.isSome_iff_exists.1 hname
    exact ⟨(g.mem_reachable_iff).1 hid, hn, hpass,
      hname.trans (congrArg some (declaredName_eq h hn hname).symm)⟩
  aliases := section_aliases hw options
  interfaces := section_interfaces hw options
  enums := section_enums hw options
  printed id node name hid hn hname := by
    have hclean := Identifier.sanitize_of_clean (h.clean id node name hn hname)
    refine ⟨?_, fun fresh path => ?_, fun path index => ?_⟩
    · obtain ⟨d, hd, -, rfl⟩ := Pass.mem_declared_of_reaches h hopt hid hn (by simp [hname])
      exact List.mem_map.2 ⟨d, hd, declaredName_eq h hn hname⟩
    · rw [expression_of_named hn hname, hclean]
    · rw [superName_of_named hn hname, hclean]

end Declaration

end Typewright
