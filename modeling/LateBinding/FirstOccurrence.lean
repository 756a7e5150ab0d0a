/-!
# First occurrences in a list

`firstIndices` sends every element to the position of the first element equal to it, and
`newcomers` tells which elements have no equal one before them.  The newcomers are the keys that a
table takes up when it is filled with the elements one after another
(`OrderedMap.keys_foldl_alter`).
-/

namespace LateBinding

/-- For every element the position of the first element equal to it. -/
def firstIndices [BEq α] (xs : List α) : List Nat := xs.map xs.idxOf

/-- For every element whether no equal element stands before it. -/
def newcomers [BEq α] (xs : List α) : List Bool :=
  (firstIndices xs).zipIdx.map fun (first, i) => first == i

variable [BEq α]

theorem length_newcomers (xs : List α) : (newcomers xs).length = xs.length := by
  simp [newcomers, firstIndices]

/-- An element that is there already keeps its first position when the list grows. -/
theorem idxOf_concat_of_any {xs : List α} {a : α} (h : xs.any (· == a)) (x : α) :
    (xs ++ [x]).idxOf a = xs.idxOf a := by
  have hlt : xs.findIdx (· == a) < xs.length := List.findIdx_lt_length.2 (List.any_eq_true.1 h)
  rw [List.idxOf, List.findIdx_append]
  exact if_pos hlt

theorem idxOf_concat_self [EquivBEq α] (xs : List α) (x : α) :
    ((xs ++ [x]).idxOf x == xs.length) = !xs.any (· == x) := by
  by_cases h : xs.any (· == x)
  · have hlt : xs.findIdx (· == x) < xs.length := List.findIdx_lt_length.2 (List.any_eq_true.1 h)
    rw [idxOf_concat_of_any h, h]
    exact beq_false_of_ne (Nat.ne_of_lt hlt)
  · have hlen : ¬ xs.findIdx (· == x) < xs.length :=
      fun hlt => h (List.any_eq_true.2 (List.findIdx_lt_length.1 hlt))
    rw [List.idxOf, List.findIdx_append]
    simp [hlen, h]

theorem newcomers_concat [EquivBEq α] (xs : List α) (x : α) :
    newcomers (xs ++ [x]) = newcomers xs ++ [!xs.any (· == x)] := by
  have hold : xs.map (xs ++ [x]).idxOf = firstIndices xs :=
    List.map_congr_left fun a ha =>
      idxOf_concat_of_any (List.any_eq_true.2 ⟨a, ha, BEq.rfl⟩) x
  have hfirst : firstIndices (xs ++ [x]) = firstIndices xs ++ [(xs ++ [x]).idxOf x] := by
    rw [← hold, firstIndices, List.map_append, List.map_singleton]
  have hlen : (firstIndices xs).length = xs.length := List.length_map _
  rw [newcomers, hfirst, List.zipIdx_append, List.map_append, ← newcomers, ← idxOf_concat_self]
  simp [hlen]

end LateBinding
