import Mathlib.Data.Fintype.Card
import Mathlib.Data.Set.Finite.List
import Mathlib.Logic.Relation
import LateBinding.Preorder

/-!
# Reachability and depth-first order

Everything in a preorder is reachable from where it starts, and everything reachable is in it if
nothing of that has been visited before, cycles or not.  The preorder of a row of nodes is the
preorders of its parts one after the other, each within what the parts before it left unvisited.
It is also listed node by node, in as many steps as there are nodes (`preorder_eq_within`).  Where
no cycle is reachable in a finite graph, the successor relation is accessible.
-/

namespace LateBinding

open Relation

variable {α : Type u}

/-- Reachability along successors, in any number of steps. -/
abbrev Reaches (next : α → List α) : α → α → Prop := ReflTransGen fun a b => b ∈ next a

/-- Reachability in at least one step. -/
abbrev Precedes (next : α → List α) : α → α → Prop := TransGen fun a b => b ∈ next a

/-- No cycle can be reached from `a`. -/
def AcyclicFrom (next : α → List α) (a : α) : Prop := ∀ b, Reaches next a b → ¬ Precedes next b b

section Preorder

variable [DecidableEq α] {next : α → List α}

theorem reaches_of_mem_preorder {unvisited pending : List α} {b : α}
    (h : b ∈ preorder next unvisited pending) : ∃ a ∈ pending, Reaches next a b := by
  fun_induction preorder next unvisited pending with
  | case1 => cases h
  | case2 unvisited n rest _ ih =>
    rcases List.mem_cons.1 h with rfl | h
    · exact ⟨b, List.mem_cons_self, .refl⟩
    · obtain ⟨a, ha, hab⟩ := ih h
      rcases List.mem_append.1 ha with ha | ha
      · exact ⟨n, List.mem_cons_self, .head ha hab⟩
      · exact ⟨a, List.mem_cons_of_mem _ ha, hab⟩
  | case3 unvisited n rest _ ih =>
    obtain ⟨a, ha, hab⟩ := ih h
    exact ⟨a, List.mem_cons_of_mem _ ha, hab⟩

theorem mem_preorder_of_mem {unvisited pending : List α} {a : α} (ha : a ∈ pending)
    (hu : a ∈ unvisited) : a ∈ preorder next unvisited pending := by
  fun_induction preorder next unvisited pending with
  | case1 => cases ha
  | case2 unvisited n rest _ ih =>
    by_cases han : a = n
    · rw [han]
      exact List.mem_cons_self
    · have hrest : a ∈ rest := (List.mem_cons.1 ha).resolve_left han
      exact List.mem_cons_of_mem n
        (ih (List.mem_append_right _ hrest) ((List.mem_erase_of_ne han).2 hu))
  | case3 unvisited n rest hn ih =>
    refine ih ((List.mem_cons.1 ha).resolve_left ?_) hu
    rintro rfl
    exact hn hu

/-- A preorder is closed under unvisited successors. -/
theorem mem_preorder_of_mem_next {unvisited pending : List α} {a b : α}
    (ha : a ∈ preorder next unvisited pending) (hb : b ∈ next a) (hu : b ∈ unvisited) :
    b ∈ preorder next unvisited pending := by
  fun_induction preorder next unvisited pending with
  | case1 => cases ha
  | case2 unvisited n rest _ ih =>
    by_cases hbn : b = n
    · rw [hbn]
      exact List.mem_cons_self
    · have hleft : b ∈ unvisited.erase n := (List.mem_erase_of_ne hbn).2 hu
      refine List.mem_cons_of_mem n ?_
      rcases List.mem_cons.1 ha with rfl | ha
      · exact mem_preorder_of_mem (List.mem_append_left _ hb) hleft
      · exact ih ha hleft
  | case3 unvisited n rest _ ih => exact ih ha hu

theorem mem_preorder_of_reaches {unvisited pending : List α} {a b : α} (ha : a ∈ pending)
    (hab : Reaches next a b) (hu : ∀ c, Reaches next a c → c ∈ unvisited) :
    b ∈ preorder next unvisited pending := by
  induction hab with
  | refl => exact mem_preorder_of_mem ha (hu a .refl)
  | tail hac hcb ih => exact mem_preorder_of_mem_next ih hcb (hu _ (hac.tail hcb))

theorem preorder_nil (unvisited : List α) : preorder next unvisited [] = [] := by
  rw [preorder]

theorem preorder_cons_of_mem {unvisited rest : List α} {n : α} (h : n ∈ unvisited) :
    preorder next unvisited (n :: rest) =
      n :: preorder next (unvisited.erase n) (next n ++ rest) := by
  rw [preorder, if_pos h]

theorem preorder_cons_of_notMem {unvisited rest : List α} {n : α} (h : n ∉ unvisited) :
    preorder next unvisited (n :: rest) = preorder next unvisited rest := by
  rw [preorder, if_neg h]

theorem preorder_append (unvisited xs ys : List α) :
    preorder next unvisited (xs ++ ys) =
      preorder next unvisited xs ++
        preorder next (unvisited.diff (preorder next unvisited xs)) ys := by
  fun_induction preorder next unvisited xs with
  | case1 unvisited => rfl
  | case2 unvisited n rest hmem ih =>
    rw [List.cons_append, preorder_cons_of_mem hmem, List.diff_cons, List.cons_append, ← ih,
      List.append_assoc]
  | case3 unvisited n rest hmem ih =>
    rw [List.cons_append, preorder_cons_of_notMem hmem, ih]

/-- The preorder node by node: the first pending node that is still unvisited comes next.  `steps`
bounds the number of nodes, so the recursion is structural and closed terms evaluate. -/
def preorderWithin (next : α → List α) : Nat → List α → List α → List α
  | 0, _, _ => []
  | steps + 1, unvisited, pending =>
    match pending.dropWhile (· ∉ unvisited) with
    | [] => []
    | n :: rest => n :: preorderWithin next steps (unvisited.erase n) (next n ++ rest)

/-- Each step leaves one node less unvisited, so as many steps as there are nodes are enough. -/
theorem preorder_eq_within {steps : Nat} {unvisited : List α} (h : unvisited.length ≤ steps)
    (pending : List α) :
    preorder next unvisited pending = preorderWithin next steps unvisited pending := by
  fun_induction preorder next unvisited pending generalizing steps with
  | case1 unvisited => cases steps <;> rfl
  | case2 unvisited n rest hmem ih =>
    have hlength := List.length_erase_of_mem hmem
    have hpos := List.length_pos_of_mem hmem
    cases steps with
    | zero => omega
    | succ steps =>
      have hleft : (unvisited.erase n).length ≤ steps := by omega
      rw [preorderWithin, List.dropWhile_cons_of_neg (by simpa using hmem), ih hleft]
  | case3 unvisited n rest hmem ih =>
    rw [ih h]
    cases steps with
    | zero => rfl
    | succ steps =>
      rw [preorderWithin, preorderWithin, List.dropWhile_cons_of_pos (by simpa using hmem)]

end Preorder

/-! ## Graphs without cycles -/

/-- Successors are accessible from a node if only nodes of a list are reachable and none of them
lies on a cycle. -/
theorem acc_of_acyclicFrom {next : α → List α} {a : α} (h : AcyclicFrom next a) {nodes : List α}
    (hnodes : ∀ b, Reaches next a b → b ∈ nodes) : Acc (fun c b => c ∈ next b) a := by
  let below : {b // Reaches next a b} → {b // Reaches next a b} → Prop :=
    fun c b => Precedes next b.1 c.1
  have : Finite {b // Reaches next a b} := (List.finite_toSet nodes).subset hnodes
  have : IsTrans _ below := ⟨fun _ _ _ hcb hba => hba.trans hcb⟩
  have : Std.Irrefl below := ⟨fun b => h b.1 b.2⟩
  have hwf : WellFounded below := Finite.wellFounded_of_trans_of_irrefl below
  suffices ∀ b : {b // Reaches next a b}, Acc (fun c b => c ∈ next b) b.1 from this ⟨a, .refl⟩
  intro b
  induction b using hwf.induction with
  | _ b ih => exact ⟨_, fun c hc => ih ⟨c, b.2.tail hc⟩ (.single hc)⟩

/-- A graph has no cycles if a rank goes down along its edges. -/
theorem acyclicFrom_of_rank {next : α → List α} (rank : α → Nat)
    (h : ∀ a, ∀ b ∈ next a, rank b < rank a) (a : α) : AcyclicFrom next a := by
  have hdown : ∀ {b c}, Precedes next b c → rank c < rank b := by
    intro b c hbc
    induction hbc with
    | single hc => exact h _ _ hc
    | tail _ hc ih => exact (h _ _ hc).trans ih
  intro b _ hb
  exact Nat.lt_irrefl _ (hdown hb)

end LateBinding
