/-!
# Depth-first order over a finite universe

`preorder next unvisited pending` lists the nodes of `unvisited` that can be reached from `pending`
in depth-first order: a node comes before its successors, and those before its next sibling.  A
node leaves `unvisited` when it is listed, so cycles end and no node of a duplicate-free universe
is listed twice.
-/

namespace LateBinding

/-- The depth-first order from the nodes of `pending`, within `unvisited`. -/
def preorder [DecidableEq α] (next : α → List α) (unvisited : List α) : List α → List α
  | [] => []
  | n :: rest =>
    if n ∈ unvisited then
      n :: preorder next (unvisited.erase n) (next n ++ rest)
    else
      preorder next unvisited rest
termination_by pending => (unvisited.length, pending.length)
decreasing_by
  · have hmem : n ∈ unvisited := by assumption
    have := List.length_erase_of_mem hmem
    have := List.length_pos_of_mem hmem
    exact Prod.Lex.left _ _ (by omega)
  · exact Prod.Lex.right _ (by simp)

theorem mem_of_mem_preorder [DecidableEq α] {next : α → List α} {unvisited pending : List α}
    {a : α} (h : a ∈ preorder next unvisited pending) : a ∈ unvisited := by
  fun_induction preorder next unvisited pending with
  | case1 => cases h
  | case2 unvisited n rest hmem ih =>
    cases h with
    | head => exact hmem
    | tail _ h => exact List.mem_of_mem_erase (ih h)
  | case3 unvisited n rest _ ih => exact ih h

theorem nodup_preorder [DecidableEq α] {next : α → List α} {unvisited pending : List α}
    (h : unvisited.Nodup) : (preorder next unvisited pending).Nodup := by
  fun_induction preorder next unvisited pending with
  | case1 => exact List.nodup_nil
  | case2 unvisited n rest hmem ih =>
    refine List.nodup_cons.2 ⟨fun hn => ?_, ih (h.erase n)⟩
    exact (h.mem_erase_iff.1 (mem_of_mem_preorder hn)).1 rfl
  | case3 unvisited n rest _ ih => exact ih h

end LateBinding
