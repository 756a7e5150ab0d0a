import Mathlib.Logic.Basic
import LateBinding.OnceMap.Basic
import LateBinding.Proofs.OrderedMap

/-!
# Slots and cells

In a well-formed `OnceMap` every slot refers to a cell of its own.  For such a map this file says
what making, filling and releasing a slot do to the values of all keys (`OnceMap.get?`) and to the
empty slots (`OnceMap.Pending`), and counts its values (`OnceMap.size_eq_of_get?`).
-/

namespace LateBinding

namespace OnceMap

variable {κ ν : Type} [BEq κ]

/-- The slots have distinct keys and refer to existing cells, no two of them to the same. -/
structure WellFormed (m : OnceMap κ ν) : Prop where
  distinct : m.slots.Distinct
  bounded : ∀ {k c}, m.slots.find? k = some c → c.index < m.cells.size
  apart : ∀ {k k' c}, m.slots.find? k = some c → m.slots.find? k' = some c → k == k'

/-- The slot of `key` refers to `cell`, which is empty. -/
structure Pending (m : OnceMap κ ν) (key : κ) (cell : CellId) : Prop where
  find : m.slots.find? key = some cell
  value : m.value? cell = none

/-- The number of keys whose value passes a test. -/
def countValues (m : OnceMap κ ν) (p : ν → Bool) : Nat :=
  m.slots.values.countP fun c => (m.value? c).any p

/-- Some slot of `key` is empty. -/
def HasEmptySlot (m : OnceMap κ ν) (key : κ) : Prop := ∃ cell, m.Pending key cell

theorem wellFormed_empty : (empty : OnceMap κ ν).WellFormed where
  distinct := OrderedMap.distinct_empty
  bounded h := by cases h
  apart h := by cases h

theorem get?_empty (key : κ) : (empty : OnceMap κ ν).get? key = none := rfl

theorem not_hasEmptySlot_empty (key : κ) : ¬ (empty : OnceMap κ ν).HasEmptySlot key := by
  rintro ⟨cell, h, -⟩
  cases h

theorem Pending.get? {m : OnceMap κ ν} {key : κ} {cell : CellId} (h : m.Pending key cell) :
    m.get? key = none := by
  unfold OnceMap.get?
  rw [h.find]
  exact h.value

section Laws

variable [EquivBEq κ] {m : OnceMap κ ν} {key : κ} {cell : CellId}

theorem get?_congr (m : OnceMap κ ν) {k : κ} (h : key == k) : m.get? key = m.get? k := by
  unfold get?
  rw [OrderedMap.find?_congr m.slots h]

theorem Pending.congr (h : m.Pending key cell) {k : κ} (hk : key == k) : m.Pending k cell :=
  ⟨by rw [← OrderedMap.find?_congr m.slots hk, h.find], h.value⟩

/-! ## Making a slot -/

theorem find?_slot (m : OnceMap κ ν) (key k : κ) :
    (m.slot key).2.slots.find? k = if key == k then some (m.slot key).1 else m.slots.find? k := by
  unfold slot
  cases hf : m.slots.find? key with
  | some c =>
    by_cases hk : key == k
    · simp [hk, ← OrderedMap.find?_congr m.slots hk, hf]
    · simp [hk]
  | none => exact OrderedMap.find?_insert m.slots key k _

omit [EquivBEq κ] in
theorem value?_slot (m : OnceMap κ ν) (key : κ) (c : CellId) :
    (m.slot key).2.value? c = m.value? c := by
  unfold slot
  cases m.slots.find? key with
  | some _ => rfl
  | none =>
    unfold value?
    by_cases hc : c.index = m.cells.size
    · simp [hc]
    · simp [Array.getElem?_push, hc]

omit [EquivBEq κ] in
/-- A new slot is empty, an old one has the value of its key. -/
theorem value?_slot_fst (m : OnceMap κ ν) (key : κ) :
    (m.slot key).2.value? (m.slot key).1 = m.get? key := by
  rw [value?_slot]
  unfold slot get?
  cases m.slots.find? key with
  | some _ => rfl
  | none => simp [value?]

omit [EquivBEq κ] in
theorem slot_eq_self (h : (m.get? key).isSome) : (m.slot key).2 = m := by
  unfold slot
  cases hf : m.slots.find? key with
  | some _ => rfl
  | none => simp [get?, hf] at h

theorem get?_slot (m : OnceMap κ ν) (key k : κ) : (m.slot key).2.get? k = m.get? k := by
  by_cases hk : key == k
  · have hvalue := value?_slot_fst m key
    have hfind := find?_slot m key k
    rw [if_pos hk] at hfind
    rw [← get?_congr m hk, ← hvalue]
    unfold get?
    rw [hfind]
    rfl
  · have hfind := find?_slot m key k
    rw [if_neg hk] at hfind
    unfold get?
    rw [hfind]
    cases m.slots.find? k with
    | none => rfl
    | some c => exact value?_slot m key c

theorem WellFormed.slot (hm : m.WellFormed) (key : κ) : (m.slot key).2.WellFormed := by
  unfold OnceMap.slot
  cases hf : m.slots.find? key with
  | some _ => exact hm
  | none =>
    -- The new cell lies past the end of all old ones, so no old slot refers to it.
    have hold : ∀ {k c}, m.slots.find? k = some c → c ≠ ⟨m.cells.size⟩ := by
      rintro k c hk rfl
      exact absurd (hm.bounded hk) (Nat.lt_irrefl _)
    refine ⟨hm.distinct.insert _ _, fun {k c} h => ?_, fun {k k' c} h h' => ?_⟩
    · rw [OrderedMap.find?_insert] at h
      rw [Array.size_push]
      split at h
      · cases h
        exact Nat.lt_succ_self _
      · exact Nat.lt_succ_of_lt (hm.bounded h)
    · rw [OrderedMap.find?_insert] at h h'
      split at h <;> split at h'
      · rename_i hk hk'
        exact BEq.trans (BEq.symm hk) hk'
      · cases h
        exact absurd rfl (hold h')
      · cases h'
        exact absurd rfl (hold h)
      · exact hm.apart h h'

theorem pending_slot (h : m.get? key = none) : (m.slot key).2.Pending key (m.slot key).1 :=
  ⟨by rw [find?_slot, if_pos BEq.rfl], by rw [value?_slot_fst, h]⟩

/-- Making a slot adds at most an empty slot for its own key. -/
theorem pending_slot_of_not_beq {k : κ} (hk : ¬ (key == k)) {c : CellId} :
    (m.slot key).2.Pending k c ↔ m.Pending k c := by
  have hfind := find?_slot m key k
  rw [if_neg hk] at hfind
  constructor
  · rintro ⟨h, hv⟩
    exact ⟨hfind ▸ h, value?_slot m key c ▸ hv⟩
  · rintro ⟨h, hv⟩
    exact ⟨hfind ▸ h, (value?_slot m key c).symm ▸ hv⟩

/-! ## Filling a cell -/

omit [BEq κ] [EquivBEq κ] in
theorem value?_fill (h : cell.index < m.cells.size) (value : ν) (c : CellId) :
    (m.fill cell value).value? c = if cell = c then some value else m.value? c := by
  unfold fill value?
  by_cases hc : cell = c
  · subst hc
    simp [h]
  · have hne : cell.index ≠ c.index := fun e => hc (by cases cell; cases c; simp_all)
    simp [hc, Array.getElem?_setIfInBounds_ne hne]

omit [EquivBEq κ] in
theorem WellFormed.fill (hm : m.WellFormed) (cell : CellId) (value : ν) :
    (m.fill cell value).WellFormed where
  distinct := hm.distinct
  bounded h := by
    rw [OnceMap.fill, Array.size_setIfInBounds]
    exact hm.bounded h
  apart h h' := hm.apart h h'

theorem get?_fill (hm : m.WellFormed) (hp : m.Pending key cell) (value : ν) (k : κ) :
    (m.fill cell value).get? k = if key == k then some value else m.get? k := by
  have hbound := hm.bounded hp.find
  have hvalue := value?_fill hbound value
  unfold get?
  rw [show (m.fill cell value).slots = m.slots from rfl]
  cases hf : m.slots.find? k with
  | none =>
    have hk : ¬ (key == k) := by
      intro hk
      rw [← OrderedMap.find?_congr m.slots hk, hp.find] at hf
      cases hf
    simp [hk]
  | some c =>
    by_cases hk : key == k
    · rw [← OrderedMap.find?_congr m.slots hk, hp.find] at hf
      cases hf
      simp [hvalue, hk]
    · have hc : cell ≠ c := by
        rintro rfl
        exact hk (hm.apart hp.find hf)
      simp [hvalue, hk, hc]

theorem pending_fill_iff (hm : m.WellFormed) (hp : m.Pending key cell) (value : ν) {k : κ}
    {c : CellId} : (m.fill cell value).Pending k c ↔ ¬ (key == k) ∧ m.Pending k c := by
  have hvalue := value?_fill (hm.bounded hp.find) value c
  constructor
  · rintro ⟨hf, hv⟩
    rw [hvalue] at hv
    split at hv
    · cases hv
    · rename_i hc
      refine ⟨fun hk => hc ?_, hf, hv⟩
      exact Option.some.inj ((hp.congr hk).find.symm.trans hf)
  · rintro ⟨hk, hf, hv⟩
    refine ⟨hf, ?_⟩
    rw [hvalue, if_neg, hv]
    rintro rfl
    exact hk (hm.apart hp.find hf)

omit [EquivBEq κ] in
/-- A key that still has its slot needs no new one. -/
theorem restore_eq_self (h : m.slots.find? key = some cell) (c : CellId) :
    m.restore key c = m := by
  unfold restore OrderedMap.contains
  rw [h]
  rfl

/-! ## Releasing a slot -/

omit [EquivBEq κ] in
theorem release_eq_erase (hp : m.Pending key cell) :
    m.release key cell = { m with slots := m.slots.erase key } := by
  unfold release
  rw [if_pos ⟨hp.find, by rw [hp.value]; rfl⟩]

theorem find?_release (hm : m.WellFormed) (hp : m.Pending key cell) (k : κ) :
    (m.release key cell).slots.find? k = if key == k then none else m.slots.find? k := by
  rw [release_eq_erase hp]
  exact OrderedMap.find?_erase hm.distinct key k

omit [EquivBEq κ] in
theorem value?_release (hp : m.Pending key cell) (c : CellId) :
    (m.release key cell).value? c = m.value? c := by
  rw [release_eq_erase hp]
  rfl

theorem WellFormed.release (hm : m.WellFormed) (hp : m.Pending key cell) :
    (m.release key cell).WellFormed := by
  have hfind := find?_release hm hp
  rw [release_eq_erase hp] at hfind ⊢
  refine ⟨hm.distinct.erase key, fun {k c} h => ?_, fun {k k' c} h h' => ?_⟩
  · rw [hfind] at h
    split at h
    · cases h
    · exact hm.bounded h
  · rw [hfind] at h h'
    split at h <;> split at h'
    · cases h
    · cases h
    · cases h'
    · exact hm.apart h h'

theorem get?_release (hm : m.WellFormed) (hp : m.Pending key cell) (k : κ) :
    (m.release key cell).get? k = m.get? k := by
  unfold get?
  rw [find?_release hm hp]
  split
  · rename_i hk
    exact ((hp.congr hk).get?).symm
  · cases m.slots.find? k with
    | none => rfl
    | some c => exact value?_release hp c

theorem pending_release_iff (hm : m.WellFormed) (hp : m.Pending key cell) {k : κ} {c : CellId} :
    (m.release key cell).Pending k c ↔ ¬ (key == k) ∧ m.Pending k c := by
  constructor
  · rintro ⟨hf, hv⟩
    rw [find?_release hm hp] at hf
    split at hf
    · cases hf
    · rename_i hk
      exact ⟨hk, hf, by rw [← value?_release hp, hv]⟩
  · rintro ⟨hk, hf, hv⟩
    exact ⟨by rw [find?_release hm hp, if_neg hk, hf], by rw [value?_release hp, hv]⟩

/-! ## Counting values -/

omit [BEq κ] [EquivBEq κ] in
theorem countValues_eq_size_filterValues (m : OnceMap κ ν) (p : ν → Bool) :
    m.countValues p = (m.slots.filterValues fun c => (m.value? c).any p).size := by
  unfold countValues OrderedMap.size OrderedMap.filterValues OrderedMap.values
  rw [List.countP_map, List.countP_eq_length_filter]
  rfl

omit [BEq κ] [EquivBEq κ] in
theorem size_eq_countValues (m : OnceMap κ ν) : m.size = m.countValues fun _ => true := by
  unfold size countValues
  congr 1

theorem isSome_find?_filterValues_slots (hm : m.WellFormed) (p : ν → Bool) (k : κ) :
    ((m.slots.filterValues fun c => (m.value? c).any p).find? k).isSome = (m.get? k).any p := by
  rw [OrderedMap.isSome_find?_filterValues hm.distinct]
  unfold get?
  cases m.slots.find? k <;> rfl

/-- The values that pass a test are as many as the entries of any plain map with the keys of these
values. -/
theorem countValues_eq_size {μ : Type} (hm : m.WellFormed) {p : ν → Bool} {n : OrderedMap κ μ}
    (hn : n.Distinct) (h : ∀ k, (m.get? k).any p = (n.find? k).isSome) :
    m.countValues p = n.size := by
  rw [countValues_eq_size_filterValues]
  refine OrderedMap.size_eq_of_isSome_find? (hm.distinct.filterValues _) hn fun k => ?_
  rw [isSome_find?_filterValues_slots hm, h]

/-- A new value counts as one if it passes the test. -/
theorem countValues_of_get?_insert {m' : OnceMap κ ν} (hm : m.WellFormed) (hm' : m'.WellFormed)
    {value : ν} (hkey : m.get? key = none)
    (h : ∀ k, m'.get? k = if key == k then some value else m.get? k) (p : ν → Bool) :
    m'.countValues p = m.countValues p + if p value then 1 else 0 := by
  let passing := m.slots.filterValues fun c => (m.value? c).any p
  have hpassing : passing.Distinct := hm.distinct.filterValues _
  have hfind : ∀ k, (passing.find? k).isSome = (m.get? k).any p :=
    isSome_find?_filterValues_slots hm p
  rw [countValues_eq_size_filterValues m]
  by_cases hp : p value
  · have hnone : passing.find? key = none := by
      rw [← Option.isNone_iff_eq_none, ← Option.not_isSome, hfind, hkey]
      rfl
    rw [if_pos hp, ← OrderedMap.size_insert hnone default]
    refine countValues_eq_size hm' (hpassing.insert key default) fun k => ?_
    rw [h, OrderedMap.find?_insert]
    split
    · exact hp
    · exact (hfind k).symm
  · rw [if_neg hp, Nat.add_zero]
    refine countValues_eq_size hm' hpassing fun k => ?_
    rw [h, hfind]
    split
    · rename_i hk
      rw [← get?_congr m hk, hkey]
      exact Bool.eq_false_iff.2 hp
    · rfl

/-- Maps with the same values have the same count. -/
theorem countValues_congr {m' : OnceMap κ ν} (hm : m.WellFormed) (hm' : m'.WellFormed)
    (h : ∀ k, m'.get? k = m.get? k) (p : ν → Bool) : m'.countValues p = m.countValues p := by
  rw [countValues_eq_size_filterValues m]
  refine countValues_eq_size hm' (hm.distinct.filterValues _) fun k => ?_
  rw [h, isSome_find?_filterValues_slots hm]

/-- A map has as many values as any plain map in which the same keys have one. -/
theorem size_eq_of_isSome_get? {μ : Type} (hm : m.WellFormed) {n : OrderedMap κ μ}
    (hn : n.Distinct) (h : ∀ k, (m.get? k).isSome = (n.find? k).isSome) : m.size = n.size := by
  rw [size_eq_countValues]
  refine countValues_eq_size hm hn fun k => ?_
  rw [← h k]
  cases m.get? k <;> rfl

/-- The number of values of a map is the number of entries of any plain map with the same values. -/
theorem size_eq_of_get? (hm : m.WellFormed) {n : OrderedMap κ ν} (hn : n.Distinct)
    (h : ∀ k, m.get? k = n.find? k) : m.size = n.size :=
  size_eq_of_isSome_get? hm hn fun k => by rw [h k]

omit [EquivBEq κ] in
/-- The number of values of a map is the number of keys that have one. -/
theorem size_eq_length [LawfulBEq κ] (hm : m.WellFormed) {keys : List κ} (hkeys : keys.Nodup)
    (h : ∀ k, (m.get? k).isSome ↔ k ∈ keys) : m.size = keys.length := by
  let marked : OrderedMap κ Unit := ⟨keys.map (·, ())⟩
  have hmarked : marked.Distinct :=
    List.pairwise_map.2 (hkeys.imp fun hne heq => hne (eq_of_beq heq))
  have hsize : marked.size = keys.length := List.length_map _
  rw [← hsize]
  refine size_eq_of_isSome_get? hm hmarked fun k => ?_
  have hfind : (marked.find? k).isSome ↔ k ∈ keys := by
    simp [OrderedMap.find?, marked, List.find?_isSome]
  rw [Bool.eq_iff_iff, hfind, h k]

end Laws

end OnceMap

end LateBinding
