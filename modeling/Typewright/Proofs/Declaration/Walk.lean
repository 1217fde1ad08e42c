import Typewright.Declaration.Basic
import Typewright.Proofs.TypeGraph.Basic

/-!
# What a walk declares

`declared` lists the nodes that a walk declares. A walk over built nodes writes the texts of this
list and nothing else (`walk_eq`), and if each node plans to declare at most itself and to enter its
neighbours, the list is made of the nodes that are reached, each once (`perm_declared`).
-/

namespace Typewright.Declaration

variable {g : TypeGraph} {plan : NodeId → Node → String → List Task}

/-- The nodes that a walk declares, in order. -/
def declared (g : TypeGraph) (plan : NodeId → Node → String → List Task) (fresh : List NodeId) :
    List Task → List (NodeId × Node × String)
  | [] => []
  | .declare id node path :: rest => (id, node, path) :: declared g plan fresh rest
  | .enter id path :: rest =>
    if _h : id ∈ fresh then
      match g.get? id with
      | some node => declared g plan (fresh.erase id) (plan id node path ++ rest)
      | none => declared g plan (fresh.erase id) rest
    else declared g plan fresh rest
termination_by tasks => (fresh.length, tasks.length)
decreasing_by
  · exact .right _ (by simp)
  · exact .left _ _ (Walk.length_erase_lt_of_mem ‹_›)
  · exact .left _ _ (Walk.length_erase_lt_of_mem ‹_›)
  · exact .right _ (by simp)

/-! ## Walks over built nodes -/

/-- The tasks enter only nodes with the property `live`. -/
def Enters (live : NodeId → Prop) (tasks : List Task) : Prop :=
  ∀ id path, .enter id path ∈ tasks → live id

theorem nodeAt_eq {id : NodeId} {node : Node} (h : g.get? id = some node) (path : String) :
    nodeAt g id path = .ok node := by
  have hc : g.contains id = true := by simpa [TypeGraph.contains] using g.lt_size_of_get? h
  simp [nodeAt, hc, h]

/-- A walk over built nodes writes the text of each node that it declares. -/
theorem walk_eq {live : NodeId → Prop}
    (hlive : ∀ id, live id → ∃ node, g.get? id = some node ∧ ∀ path, Enters live (plan id node path))
    (text : NodeId → Node → String → Except CompileError String) {fresh : List NodeId}
    {tasks : List Task} (ht : Enters live tasks) :
    walk g plan text fresh tasks =
      (declared g plan fresh tasks).mapM fun d => text d.1 d.2.1 d.2.2 := by
  fun_induction declared g plan fresh tasks with
  | case1 => rw [walk]; rfl
  | case2 fresh id node path rest ih =>
      rw [walk, ih fun i p h => ht i p (List.mem_cons_of_mem _ h), List.mapM_cons]
  | case3 fresh id path rest hf node hn ih =>
      rw [walk, dif_pos hf, nodeAt_eq hn]
      refine ih fun i p h => ?_
      obtain ⟨node', hn', hplan⟩ := hlive id (ht id path List.mem_cons_self)
      obtain rfl := Option.some.inj (hn.symm.trans hn')
      rcases List.mem_append.1 h with h | h
      · exact hplan path i p h
      · exact ht i p (List.mem_cons_of_mem _ h)
  | case4 fresh id path rest hf hn =>
      obtain ⟨node', hn', -⟩ := hlive id (ht id path List.mem_cons_self)
      rw [hn] at hn'
      cases hn'
  | case5 fresh id path rest hf ih =>
      rw [walk, dif_neg hf, ih fun i p h => ht i p (List.mem_cons_of_mem _ h)]

/-- A walk that succeeds writes the text of each node that it declares. -/
theorem mapM_declared_of_walk {text : NodeId → Node → String → Except CompileError String}
    {fresh : List NodeId} {tasks : List Task} {out : List String}
    (h : walk g plan text fresh tasks = .ok out) :
    ((declared g plan fresh tasks).mapM fun d => text d.1 d.2.1 d.2.2) = .ok out := by
  fun_induction declared g plan fresh tasks generalizing out with
  | case1 =>
      rw [walk] at h
      exact h
  | case2 fresh id node path rest ih =>
      rw [walk] at h
      rw [List.mapM_cons]
      cases hfirst : text id node path with
      | error e => rw [hfirst] at h; cases h
      | ok first =>
          rw [hfirst] at h
          cases hrest : walk g plan text fresh rest with
          | error e => rw [hrest] at h; cases h
          | ok more =>
              rw [hrest] at h
              rw [ih hrest]
              exact h
  | case3 fresh id path rest hf node hn ih =>
      rw [walk, dif_pos hf, nodeAt_eq hn] at h
      exact ih h
  | case4 fresh id path rest hf hn =>
      rw [walk, dif_pos hf] at h
      unfold nodeAt at h
      rw [hn] at h
      split at h <;> cases h
  | case5 fresh id path rest hf ih =>
      rw [walk, dif_neg hf] at h
      exact ih h

/-- A declared node was planned. -/
theorem of_mem_declared {P : NodeId → Node → String → Prop}
    (hplan : ∀ id node path, g.get? id = some node →
      ∀ i n p, .declare i n p ∈ plan id node path → P i n p) {fresh : List NodeId}
    {tasks : List Task} (ht : ∀ i n p, .declare i n p ∈ tasks → P i n p) :
    ∀ d ∈ declared g plan fresh tasks, P d.1 d.2.1 d.2.2 := by
  fun_induction declared g plan fresh tasks with
  | case1 => nofun
  | case2 fresh id node path rest ih =>
      intro d hd
      rcases List.mem_cons.1 hd with rfl | hd
      · exact ht _ _ _ List.mem_cons_self
      · exact ih (fun i n p h => ht i n p (List.mem_cons_of_mem _ h)) d hd
  | case3 fresh id path rest hf node hn ih =>
      refine ih fun i n p h => ?_
      rcases List.mem_append.1 h with h | h
      · exact hplan id node path hn i n p h
      · exact ht i n p (List.mem_cons_of_mem _ h)
  | case4 fresh id path rest hf hn ih =>
      exact ih fun i n p h => ht i n p (List.mem_cons_of_mem _ h)
  | case5 fresh id path rest hf ih =>
      exact ih fun i n p h => ht i n p (List.mem_cons_of_mem _ h)

/-! ## What is declared -/

/-- The nodes that tasks enter. -/
def entered (tasks : List Task) : List NodeId :=
  tasks.filterMap fun
    | .enter id _ => some id
    | .declare _ _ _ => none

/-- The nodes that tasks declare. -/
def pending (tasks : List Task) : List (NodeId × Node) :=
  tasks.filterMap fun
    | .enter _ _ => none
    | .declare id node _ => some (id, node)

@[simp] theorem entered_append (ts us : List Task) : entered (ts ++ us) = entered ts ++ entered us :=
  List.filterMap_append

@[simp] theorem pending_append (ts us : List Task) : pending (ts ++ us) = pending ts ++ pending us :=
  List.filterMap_append

/-- If each node plans to enter its neighbours and to declare what is picked from it, the walk
declares what is picked from the nodes that it reaches. -/
theorem perm_declared {next : NodeId → List NodeId} {pick : NodeId → Option (NodeId × Node)}
    (hplan : ∀ id node path, g.get? id = some node →
      entered (plan id node path) = next id ∧ pending (plan id node path) = (pick id).toList)
    (hnone : ∀ id, g.get? id = none → next id = [] ∧ pick id = none) {fresh : List NodeId}
    {tasks : List Task} :
    ((declared g plan fresh tasks).map fun d => (d.1, d.2.1)).Perm
      (pending tasks ++ (Walk.preorder next fresh (entered tasks)).filterMap pick) := by
  fun_induction declared g plan fresh tasks with
  | case1 => simp [pending, entered, Walk.preorder]
  | case2 fresh id node path rest ih => exact ih.cons (id, node)
  | case3 fresh id path rest hf node hn ih =>
      obtain ⟨he, hp⟩ := hplan id node path hn
      have hstep : Walk.preorder next fresh (entered (.enter id path :: rest)) =
          id :: Walk.preorder next (fresh.erase id) (next id ++ entered rest) := by
        show Walk.preorder next fresh (id :: entered rest) = _
        rw [Walk.preorder, dif_pos hf]
      rw [pending_append, entered_append, he, hp] at ih
      rw [hstep]
      refine ih.trans ?_
      show (_ : List (NodeId × Node)).Perm (pending rest ++ _)
      rw [List.append_assoc, List.filterMap_cons]
      cases hpick : pick id with
      | none => exact .refl _
      | some d =>
          rw [Option.toList_some, List.singleton_append]
          exact List.perm_middle.symm
  | case4 fresh id path rest hf hn ih =>
      obtain ⟨hnext, hpick⟩ := hnone id hn
      show (_ : List (NodeId × Node)).Perm
        (pending rest ++ (Walk.preorder next fresh (id :: entered rest)).filterMap pick)
      rw [Walk.preorder, dif_pos hf, hnext, List.filterMap_cons, hpick]
      exact ih
  | case5 fresh id path rest hf ih =>
      show (_ : List (NodeId × Node)).Perm
        (pending rest ++ (Walk.preorder next fresh (id :: entered rest)).filterMap pick)
      rw [Walk.preorder, dif_neg hf]
      exact ih

end Typewright.Declaration
