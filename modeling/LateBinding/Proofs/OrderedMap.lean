import Mathlib.Data.List.Basic
import Mathlib.Data.List.Induction
import LateBinding.FirstOccurrence
import LateBinding.OrderedMap

/-!
# Maps with distinct keys

The operations of an `OrderedMap` keep its keys pairwise different (`OrderedMap.Distinct`), and a
map that is filled key by key takes up each of them when it first comes
(`OrderedMap.keys_foldl_alter`).  A map with distinct keys is determined by `find?` up to the order
and the spelling of its keys: an entry can be erased for good, entries can be filtered one by one,
and two maps that bind the same keys have equally many entries
(`OrderedMap.size_eq_of_isSome_find?`).
-/

namespace LateBinding

/-- A list of pairwise different elements is no longer than a list that has an equal element for
each of them. -/
theorem length_le_of_pairwise_not_beq [BEq α] [EquivBEq α] {xs ys : List α}
    (hxs : xs.Pairwise fun a b => ¬ (a == b)) (h : ∀ x ∈ xs, ∃ y ∈ ys, y == x) :
    xs.length ≤ ys.length := by
  induction xs generalizing ys with
  | nil => exact Nat.zero_le _
  | cons x xs ih =>
    obtain ⟨hx, hxs⟩ := List.pairwise_cons.1 hxs
    obtain ⟨y, hy, hyx⟩ := h x (by simp)
    have hrest : ∀ x' ∈ xs, ∃ y' ∈ ys.eraseP (· == x), y' == x' := by
      intro x' hx'
      obtain ⟨y', hy', hyx'⟩ := h x' (by simp [hx'])
      have hne : ¬ (y' == x) := fun he => hx x' hx' (BEq.trans (BEq.symm he) hyx')
      exact ⟨y', (List.mem_eraseP_of_neg (by simpa using hne)).2 hy', hyx'⟩
    have hlen := ih hxs hrest
    have herase : (ys.eraseP (· == x)).length = ys.length - 1 :=
      List.length_eraseP_of_mem hy hyx
    have hpos : 0 < ys.length := List.length_pos_of_mem hy
    rw [List.length_cons]
    omega

namespace OrderedMap

variable {κ : Type u} {ν : Type v}

/-- The number of entries. -/
def size (m : OrderedMap κ ν) : Nat := m.entries.length

/-- The entries whose value passes a test. -/
def filterValues (m : OrderedMap κ ν) (p : ν → Bool) : OrderedMap κ ν :=
  ⟨m.entries.filter fun e => p e.2⟩

variable [BEq κ]

/-- No two entries have the same key. -/
def Distinct (m : OrderedMap κ ν) : Prop := m.entries.Pairwise fun a b => ¬ (a.1 == b.1)

theorem distinct_empty : (empty : OrderedMap κ ν).Distinct := List.Pairwise.nil

/-! ## Distinct keys are kept -/

theorem mem_keys_alterEntries {key : κ} {f : Option ν → ν} {es : List (κ × ν)} {e : κ × ν}
    (he : e ∈ alterEntries key f es) : e.1 = key ∨ ∃ e' ∈ es, e'.1 = e.1 := by
  induction es with
  | nil =>
    rw [alterEntries, List.mem_singleton] at he
    exact Or.inl (congrArg Prod.fst he)
  | cons a es ih =>
    rw [alterEntries] at he
    split at he
    · rcases List.mem_cons.1 he with rfl | he
      · exact Or.inr ⟨a, by simp, rfl⟩
      · exact Or.inr ⟨e, by simp [he], rfl⟩
    · rcases List.mem_cons.1 he with rfl | he
      · exact Or.inr ⟨_, by simp, rfl⟩
      · rcases ih he with h | ⟨e', he', h⟩
        · exact Or.inl h
        · exact Or.inr ⟨e', by simp [he'], h⟩

theorem Distinct.alter {m : OrderedMap κ ν} (hm : m.Distinct) (key : κ) (f : Option ν → ν) :
    (m.alter key f).Distinct := by
  obtain ⟨es⟩ := m
  unfold Distinct OrderedMap.alter at *
  induction es with
  | nil => exact List.pairwise_singleton _ _
  | cons a es ih =>
    obtain ⟨ha, hes⟩ := List.pairwise_cons.1 hm
    simp only [alterEntries]
    split
    · exact List.pairwise_cons.2 ⟨fun b hb => ha b hb, hes⟩
    · rename_i hne
      refine List.pairwise_cons.2 ⟨fun b hb => ?_, ih hes⟩
      rcases mem_keys_alterEntries hb with h | ⟨e', he', h⟩
      · rwa [h]
      · rw [← h]
        exact ha e' he'

theorem Distinct.insert {m : OrderedMap κ ν} (hm : m.Distinct) (key : κ) (value : ν) :
    (m.insert key value).Distinct := hm.alter key _

theorem Distinct.erase {m : OrderedMap κ ν} (hm : m.Distinct) (key : κ) :
    (m.erase key).Distinct := List.Pairwise.sublist List.eraseP_sublist hm

theorem Distinct.filterValues {m : OrderedMap κ ν} (hm : m.Distinct) (p : ν → Bool) :
    (m.filterValues p).Distinct := List.Pairwise.filter _ hm

/-! ## Where entries stand -/

/-- An altered entry stays in its place, and a new one goes last. -/
theorem entries_alter (m : OrderedMap κ ν) (key : κ) (f : Option ν → ν) :
    (m.find? key = none ∧ (m.alter key f).entries = m.entries ++ [(key, f none)]) ∨
      ∃ before k v after, k == key ∧ m.find? key = some v ∧
        m.entries = before ++ (k, v) :: after ∧
        (m.alter key f).entries = before ++ (k, f (some v)) :: after := by
  obtain ⟨es⟩ := m
  simp only [find?, alter]
  induction es with
  | nil => exact .inl ⟨rfl, rfl⟩
  | cons e es ih =>
    obtain ⟨k, v⟩ := e
    by_cases hk : k == key
    · exact .inr ⟨[], k, v, es, hk, by simp [hk], rfl, by simp [alterEntries, hk]⟩
    · simp only [alterEntries, hk, List.find?_cons]
      rcases ih with ⟨hnone, hes⟩ | ⟨before, k', v', after, hk', hfind, hes, halter⟩
      · exact .inl ⟨hnone, by simp [hes]⟩
      · exact .inr ⟨(k, v) :: before, k', v', after, hk', hfind, by simp [hes], by simp [halter]⟩

theorem keys_alter (m : OrderedMap κ ν) (key : κ) (f : Option ν → ν) :
    (m.alter key f).keys = if m.contains key then m.keys else m.keys ++ [key] := by
  unfold contains keys
  rcases entries_alter m key f with ⟨hnone, hes⟩ | ⟨before, k, v, after, -, hfind, hes, halter⟩
  · simp [hnone, hes]
  · simp [hfind, hes, halter]

theorem mem_keys_alter [LawfulBEq κ] (m : OrderedMap κ ν) (key k : κ) (f : Option ν → ν) :
    k ∈ (m.alter key f).keys ↔ k ∈ m.keys ∨ k = key := by
  rw [keys_alter]
  split
  · rename_i hcontains
    obtain ⟨v, hfind⟩ := Option.isSome_iff_exists.1 hcontains
    obtain ⟨e, he, -⟩ := Option.map_eq_some_iff.1 hfind
    have hkey : e.1 = key := by simpa using List.find?_some he
    refine (or_iff_left_of_imp ?_).symm
    rintro rfl
    exact List.mem_map.2 ⟨e, List.mem_of_find?_eq_some he, hkey⟩
  · rw [List.mem_append, List.mem_singleton]

/-- What holds of all values and of the new one holds of all values afterwards. -/
theorem forall_mem_values_alter {m : OrderedMap κ ν} {P : ν → Prop} (hm : ∀ v ∈ m.values, P v)
    {key : κ} {f : Option ν → ν} (hnone : P (f none)) (hsome : ∀ v, P v → P (f (some v))) :
    ∀ v ∈ (m.alter key f).values, P v := by
  unfold values at hm ⊢
  rcases entries_alter m key f with ⟨-, hes⟩ | ⟨before, k, v, after, -, -, hes, halter⟩
  · rw [hes, List.map_append, List.forall_mem_append]
    exact ⟨hm, List.forall_mem_singleton.2 hnone⟩
  · rw [hes, List.map_append, List.map_cons, List.forall_mem_append, List.forall_mem_cons] at hm
    rw [halter, List.map_append, List.map_cons, List.forall_mem_append, List.forall_mem_cons]
    exact ⟨hm.1, hsome v hm.2.1, hm.2.2⟩

/-- Modifying replaces at most one value, in its place. -/
theorem values_modify (m : OrderedMap κ ν) (key : κ) (f : ν → ν) :
    (m.modify key f).values = m.values ∨
      ∃ before v after, m.values = before ++ v :: after ∧
        (m.modify key f).values = before ++ f v :: after := by
  unfold modify
  cases hfind : m.find? key with
  | none => exact .inl rfl
  | some v =>
    rcases entries_alter m key fun _ => f v with
      ⟨hnone, -⟩ | ⟨before, k, v', after, -, hfind', hes, halter⟩
    · rw [hfind] at hnone
      cases hnone
    · rw [hfind] at hfind'
      cases hfind'
      refine .inr ⟨before.map (·.2), v, after.map (·.2), ?_, ?_⟩
      · simp [values, hes]
      · simp [values, insert, halter]

/-! ## Looking up entries -/

theorem exists_mem_of_find? {m : OrderedMap κ ν} {key : κ} {v : ν} (h : m.find? key = some v) :
    ∃ e ∈ m.entries, e.1 == key ∧ e.2 = v := by
  obtain ⟨e, he, hv⟩ := Option.map_eq_some_iff.1 h
  have hkey : e.1 == key := by simpa using List.find?_some he
  exact ⟨e, List.mem_of_find?_eq_some he, hkey, hv⟩

section Laws

variable [EquivBEq κ]

theorem find?_of_mem {m : OrderedMap κ ν} (hm : m.Distinct) {e : κ × ν} (he : e ∈ m.entries)
    {key : κ} (hkey : e.1 == key) : m.find? key = some e.2 := by
  obtain ⟨es⟩ := m
  unfold Distinct at hm
  unfold find?
  induction es with
  | nil => cases he
  | cons a es ih =>
    obtain ⟨ha, hes⟩ := List.pairwise_cons.1 hm
    rcases List.mem_cons.1 he with rfl | he
    · simp [hkey]
    · have hne : ¬ (a.1 == key) := fun h => ha e he (BEq.trans h (BEq.symm hkey))
      simpa [hne] using ih hes he

theorem find?_insert (m : OrderedMap κ ν) (key k : κ) (value : ν) :
    (m.insert key value).find? k = if key == k then some value else m.find? k :=
  find?_alter m key k _

theorem find?_erase {m : OrderedMap κ ν} (hm : m.Distinct) (key k : κ) :
    (m.erase key).find? k = if key == k then none else m.find? k := by
  obtain ⟨es⟩ := m
  unfold Distinct at hm
  unfold erase find?
  induction es with
  | nil => simp
  | cons a es ih =>
    obtain ⟨ha, hes⟩ := List.pairwise_cons.1 hm
    by_cases hak : a.1 == key
    · by_cases hk : key == k
      · have hnone : es.find? (·.1 == k) = none := by
          rw [List.find?_eq_none]
          intro b hb hbk
          exact ha b hb (BEq.trans hak (BEq.trans hk (BEq.symm hbk)))
        simp [hak, hk, hnone]
      · have hne : ¬ (a.1 == k) := fun h => hk (BEq.trans (BEq.symm hak) h)
        simp [hak, hk, hne]
    · by_cases hk : a.1 == k
      · have hne : ¬ (key == k) := fun h => hak (BEq.trans hk (BEq.symm h))
        simp [hak, hk, hne]
      · simpa [hak, hk] using ih hes

/-- A new key can be erased again without a trace. -/
theorem erase_insert {m : OrderedMap κ ν} {key : κ} (h : m.find? key = none) (value : ν) :
    (m.insert key value).erase key = m := by
  rcases entries_alter m key fun _ => value with ⟨-, hes⟩ | ⟨_, _, _, _, -, hfind, -, -⟩
  · have hkeys : ∀ e ∈ m.entries, ¬ (e.1 == key) :=
      List.find?_eq_none.1 (Option.map_eq_none_iff.1 h)
    rw [erase, insert, hes, List.eraseP_append_right _ hkeys]
    simp
  · rw [h] at hfind
    cases hfind

theorem isSome_find?_filterValues {m : OrderedMap κ ν} (hm : m.Distinct) (p : ν → Bool) (k : κ) :
    ((m.filterValues p).find? k).isSome = (m.find? k).any p := by
  cases hf : (m.filterValues p).find? k with
  | some v =>
    obtain ⟨e, he, hek, rfl⟩ := exists_mem_of_find? hf
    obtain ⟨hmem, hp⟩ := List.mem_filter.1 he
    rw [find?_of_mem hm hmem hek]
    simpa using hp.symm
  | none =>
    cases hk : m.find? k with
    | none => rfl
    | some v =>
      obtain ⟨e, he, hek, rfl⟩ := exists_mem_of_find? hk
      have hp : ¬ p e.2 := by
        intro hp
        have hmem : e ∈ (m.filterValues p).entries := List.mem_filter.2 ⟨he, hp⟩
        rw [find?_of_mem (hm.filterValues p) hmem hek] at hf
        cases hf
      simpa using hp

/-! ## Filling a map -/

theorem contains_foldl_alter (f : κ → Option ν → ν) (xs : List κ) (k : κ) :
    (xs.foldl (fun m x => m.alter x (f x)) (empty : OrderedMap κ ν)).contains k =
      xs.any (· == k) := by
  induction xs using List.reverseRecOn with
  | nil => rfl
  | append_singleton xs x ih =>
    rw [List.foldl_append, List.any_append, ← ih]
    simp only [List.foldl_cons, List.foldl_nil, contains, find?_alter, List.any_cons, List.any_nil,
      Bool.or_false]
    cases x == k <;> simp

/-- Of keys that are bound one after another, the map takes up those without an equal one before. -/
theorem keys_foldl_alter (f : κ → Option ν → ν) (xs : List κ) :
    (xs.foldl (fun m x => m.alter x (f x)) (empty : OrderedMap κ ν)).keys =
      ((xs.zip (newcomers xs)).filter (·.2)).map (·.1) := by
  induction xs using List.reverseRecOn with
  | nil => rfl
  | append_singleton xs x ih =>
    rw [newcomers_concat, List.zip_append (length_newcomers xs).symm, List.filter_append,
      List.map_append, ← ih, List.foldl_append, List.foldl_cons, List.foldl_nil, keys_alter,
      contains_foldl_alter]
    cases xs.any (· == x) <;> simp

/-! ## Counting entries -/

omit [EquivBEq κ] in
theorem size_insert {m : OrderedMap κ ν} {key : κ} (h : m.find? key = none) (value : ν) :
    (m.insert key value).size = m.size + 1 := by
  rcases entries_alter m key fun _ => value with ⟨-, hes⟩ | ⟨_, _, _, _, -, hfind, -, -⟩
  · rw [size, insert, hes, List.length_append]
    rfl
  · rw [h] at hfind
    cases hfind

theorem size_le_of_isSome_find? {μ : Type w} {m : OrderedMap κ ν} {n : OrderedMap κ μ}
    (hm : m.Distinct) (h : ∀ k, (m.find? k).isSome → (n.find? k).isSome) : m.size ≤ n.size := by
  have hkeys : m.keys.length ≤ n.keys.length := by
    refine length_le_of_pairwise_not_beq (List.pairwise_map.2 hm) fun k hk => ?_
    obtain ⟨e, he, rfl⟩ := List.mem_map.1 hk
    have hsome := find?_of_mem hm he BEq.rfl
    obtain ⟨v, hv⟩ := Option.isSome_iff_exists.1 (h e.1 (by rw [hsome]; rfl))
    obtain ⟨e', he', hek, -⟩ := exists_mem_of_find? hv
    exact ⟨e'.1, List.mem_map_of_mem he', hek⟩
  simpa [keys, size] using hkeys

theorem size_eq_of_isSome_find? {μ : Type w} {m : OrderedMap κ ν} {n : OrderedMap κ μ}
    (hm : m.Distinct) (hn : n.Distinct) (h : ∀ k, (m.find? k).isSome = (n.find? k).isSome) :
    m.size = n.size :=
  Nat.le_antisymm (size_le_of_isSome_find? hm fun k hk => h k ▸ hk)
    (size_le_of_isSome_find? hn fun k hk => (h k).symm ▸ hk)

end Laws

end OrderedMap

end LateBinding
