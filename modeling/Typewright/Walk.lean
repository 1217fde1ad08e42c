/-!
# Depth-first walks

Walks over a graph given by the list `next` of each thing's neighbours. A walk keeps the list
`fresh` of what it may still visit. A thing is taken out of it when it is visited, so no thing is
visited twice and every walk ends.
-/

namespace Typewright.Walk

variable {α : Type} [DecidableEq α]

theorem length_erase_lt_of_mem {l : List α} {a : α} (h : a ∈ l) :
    (l.erase a).length < l.length :=
  List.length_erase_of_mem h ▸ Nat.sub_one_lt (Nat.ne_of_gt (List.length_pos_of_mem h))

/-- The things met from `pending` on, each before its neighbours. -/
def preorder (next : α → List α) (fresh : List α) : List α → List α
  | [] => []
  | a :: rest =>
    if _h : a ∈ fresh then a :: preorder next (fresh.erase a) (next a ++ rest)
    else preorder next fresh rest
termination_by pending => (fresh.length, pending.length)
decreasing_by
  · exact .left _ _ (length_erase_lt_of_mem ‹_›)
  · exact .right _ (by simp)

/-- A thing whose neighbours come next, or one whose neighbours are done. -/
inductive Step (α : Type) where
  | enter (a : α)
  | leave (a : α)

/-- The things met from `pending` on, each after its neighbours. -/
def postorder (next : α → List α) (fresh : List α) : List (Step α) → List α
  | [] => []
  | .leave a :: rest => a :: postorder next fresh rest
  | .enter a :: rest =>
    if _h : a ∈ fresh then postorder next (fresh.erase a) ((next a).map .enter ++ .leave a :: rest)
    else postorder next fresh rest
termination_by pending => (fresh.length, pending.length)
decreasing_by
  · exact .right _ (by simp)
  · exact .left _ _ (length_erase_lt_of_mem ‹_›)
  · exact .right _ (by simp)

end Typewright.Walk
