import Typewright.Proofs.Declaration.Walk

/-!
# The plans of the three walks

Type aliases, interfaces and enums are declared by walks of their own. Each walk enters all that a
node refers to, except for the literals of an enum, and declares the named nodes of its own pass.
-/

namespace Typewright

/-- The walk that declares a node. -/
inductive Pass where
  | aliases
  | interfaces
  | enums
deriving DecidableEq, Repr

namespace Kind

def pass : Kind → Pass
  | .interface _ _ => .interfaces
  | .enum _ => .enums
  | _ => .aliases

/-- The children that a walk enters. -/
def expanded : Kind → List NodeId
  | .enum _ => []
  | kind => kind.children

theorem expanded_subset (kind : Kind) : kind.expanded ⊆ kind.children := by
  cases kind <;> simp [expanded]

end Kind

namespace Declaration

variable {g : TypeGraph} {options : Options} {id : NodeId} {node : Node} {path : String}

/-! ## Lists of tasks -/

theorem mem_entered {tasks : List Task} {i : NodeId} {p : String} (h : .enter i p ∈ tasks) :
    i ∈ entered tasks :=
  List.mem_filterMap.2 ⟨_, h, rfl⟩

theorem mem_pending {tasks : List Task} {i : NodeId} {n : Node} {p : String}
    (h : .declare i n p ∈ tasks) : (i, n) ∈ pending tasks :=
  List.mem_filterMap.2 ⟨_, h, rfl⟩

@[simp] theorem entered_map_enter (cs : List (NodeId × String)) :
    entered (cs.map fun (child, path) => .enter child path) = cs.map (·.1) := by
  simp [entered, List.filterMap_map]

@[simp] theorem pending_map_enter (cs : List (NodeId × String)) :
    pending (cs.map fun (child, path) => .enter child path) = [] := by
  simp [pending, List.filterMap_map]

@[simp] theorem entered_enterItems (element : NodeId) :
    entered (enterItems path element) = [element] := rfl

@[simp] theorem pending_enterItems (element : NodeId) :
    pending (enterItems path element) = [] := rfl

@[simp] theorem entered_enterEach (cs : List NodeId) : entered (enterEach path cs) = cs := by
  simp [entered, enterEach, List.filterMap_map]

@[simp] theorem pending_enterEach (cs : List NodeId) : pending (enterEach path cs) = [] := by
  simp [pending, enterEach, List.filterMap_map]

@[simp] theorem map_fst_enterInterface (path : String) (members : List InterfaceMember)
    (supers : List NodeId) : (enterInterface path members supers).map (·.1) =
      (Kind.interface members supers).children := by
  simp [enterInterface, Kind.children, Function.comp_def]

@[simp] theorem entered_declareNamed : entered (declareNamed id node path) = [] := by
  unfold declareNamed
  split <;> rfl

@[simp] theorem pending_declareNamed :
    pending (declareNamed id node path) = if node.name.isSome then [(id, node)] else [] := by
  unfold declareNamed
  split <;> rfl

@[simp] theorem entered_nil : entered [] = [] := rfl

@[simp] theorem pending_nil : pending [] = [] := rfl

/-! ## What the plans enter and declare -/

theorem mayDeclare_of_option (h : options.declareExternallyReferenced = true) (i : NodeId) :
    mayDeclare g options i = true := by
  simp [mayDeclare, h]

theorem entered_planAliases_subset :
    entered (planAliases g options id node path) ⊆ node.kind.expanded := by
  cases hkind : node.kind with
  | interface members supers =>
      simp only [planAliases, hkind, entered_map_enter, Kind.expanded]
      intro i hi
      obtain ⟨c, hc, rfl⟩ := List.mem_map.1 hi
      rw [← map_fst_enterInterface path]
      exact List.mem_map_of_mem (List.mem_filter.1 hc).1
  | _ => simp [planAliases, hkind, Kind.expanded, Kind.children]

theorem entered_planAliases (h : options.declareExternallyReferenced = true) :
    entered (planAliases g options id node path) = node.kind.expanded := by
  cases hkind : node.kind with
  | interface members supers =>
      have hall : (enterInterface path members supers).filter
          (fun c => mayDeclare g options c.1) = enterInterface path members supers :=
        List.filter_eq_self.2 fun c _ => mayDeclare_of_option h c.1
      simp only [planAliases, hkind, hall, entered_map_enter, map_fst_enterInterface, Kind.expanded]
  | _ => simp [planAliases, hkind, Kind.expanded, Kind.children]

theorem pending_planAliases :
    pending (planAliases g options id node path) =
      if node.kind.pass = .aliases ∧ node.name.isSome then [(id, node)] else [] := by
  cases hkind : node.kind <;> simp [planAliases, hkind, Kind.pass]

theorem entered_planInterfaces :
    entered (planInterfaces g options id node path) = node.kind.expanded := by
  cases hkind : node.kind with
  | interface members supers =>
      simp only [planInterfaces, hkind, entered_append, entered_map_enter, map_fst_enterInterface]
      split <;> simp [Kind.expanded]
  | _ => simp [planInterfaces, hkind, Kind.expanded, Kind.children]

theorem pending_planInterfaces :
    pending (planInterfaces g options id node path) =
      if node.kind.pass = .interfaces ∧ node.name.isSome ∧ mayDeclare g options id then
        [(id, node)]
      else [] := by
  cases hkind : node.kind with
  | interface members supers =>
      simp only [planInterfaces, hkind, pending_append, pending_map_enter, List.append_nil]
      split <;> simp_all [Kind.pass]
  | _ => simp [planInterfaces, hkind, Kind.pass]

theorem entered_planEnums : entered (planEnums id node path) = node.kind.expanded := by
  cases hkind : node.kind <;> simp [planEnums, hkind, Kind.expanded, Kind.children]

theorem pending_planEnums :
    pending (planEnums id node path) =
      if node.kind.pass = .enums ∧ node.name.isSome then [(id, node)] else [] := by
  cases hkind : node.kind <;> simp [planEnums, hkind, Kind.pass]

end Declaration

/-! ## The passes -/

namespace Pass

open Declaration

variable {g : TypeGraph} {options : Options} {id : NodeId} {node : Node} {path : String}

/-- What the walk of a pass does at a node. -/
def plan (g : TypeGraph) (options : Options) : Pass → NodeId → Node → String → List Task
  | .aliases => planAliases g options
  | .interfaces => planInterfaces g options
  | .enums => planEnums

/-- The nodes that a pass declares, in order. -/
def declared (pass : Pass) (g : TypeGraph) (options : Options) : List (NodeId × Node × String) :=
  Declaration.declared g (pass.plan g options) g.mentioned [.enter g.root "#"]

/-- The names that a pass declares, in order. -/
def names (pass : Pass) (g : TypeGraph) (options : Options) : List String :=
  (pass.declared g options).map fun d => declaredName d.2.1

/-- The word in front of a name that is declared. -/
def keyword (options : Options) : Pass → String
  | .aliases => "type"
  | .interfaces => "interface"
  | .enums => if options.enableConstEnums then "const enum" else "enum"

/-- How the declaration of a node begins. -/
def heading (pass : Pass) (options : Options) (node : Node) : String :=
  leadingComment node ++ "export " ++ pass.keyword options ++ " " ++ declaredName node ++ " "

theorem entered_plan_subset (pass : Pass) :
    entered (pass.plan g options id node path) ⊆ node.kind.expanded := by
  cases pass with
  | aliases => exact entered_planAliases_subset
  | interfaces => exact entered_planInterfaces ▸ fun _ h => h
  | enums => exact entered_planEnums ▸ fun _ h => h

theorem entered_plan (pass : Pass) (h : options.declareExternallyReferenced = true) :
    entered (pass.plan g options id node path) = node.kind.expanded := by
  cases pass with
  | aliases => exact entered_planAliases h
  | interfaces => exact entered_planInterfaces
  | enums => exact entered_planEnums

/-- What the walk of a pass enters does not depend on the way. -/
theorem entered_plan_congr (pass : Pass) (path' : String) :
    entered (pass.plan g options id node path) = entered (pass.plan g options id node path') := by
  cases pass with
  | aliases =>
      cases hkind : node.kind with
      | interface members supers =>
          have hfilter : ∀ p, entered (planAliases g options id node p) =
              (Kind.interface members supers).children.filter (mayDeclare g options ·) := by
            intro p
            rw [planAliases, hkind]
            dsimp only
            rw [entered_map_enter, ← map_fst_enterInterface p, List.filter_map]
            rfl
          exact (hfilter path).trans (hfilter path').symm
      | _ => simp [plan, planAliases, hkind]
  | interfaces => exact entered_planInterfaces.trans entered_planInterfaces.symm
  | enums => exact entered_planEnums.trans entered_planEnums.symm

/-- A pass declares the named nodes of its own that may be declared. -/
theorem pending_plan (pass : Pass) :
    pending (pass.plan g options id node path) =
      if node.kind.pass = pass ∧ node.name.isSome ∧
          (pass = .interfaces → mayDeclare g options id = true) then
        [(id, node)]
      else [] := by
  cases pass with
  | aliases => simp [plan, pending_planAliases]
  | interfaces => simp [plan, pending_planInterfaces]
  | enums => simp [plan, pending_planEnums]

/-- A pass declares only named nodes of its own. -/
theorem of_mem_pending_plan {pass : Pass} {d : NodeId × Node}
    (h : d ∈ pending (pass.plan g options id node path)) :
    d = (id, node) ∧ node.kind.pass = pass ∧ node.name.isSome := by
  rw [pending_plan] at h
  split at h
  · rename_i hp
    exact ⟨List.mem_singleton.1 h, hp.1, hp.2.1⟩
  · cases h

end Pass

end Typewright
