import LateBinding.Proofs.Action
import LateBinding.Proofs.OnceMap.Slots

/-!
# Demands

What `OnceMap.demand` answers and leaves behind: a bound key answers with its value, any other key
with its computation, and of the latter only the answer and the map matter
(`OnceMap.demand_congr`).  For a computation that leaves the map alone (`OnceMap.demandApart`) the
map afterwards is the old one with the answer at the key.
-/

namespace LateBinding

namespace OnceMap

variable {κ ν ε τ : Type} [BEq κ]

section Demand

variable {key : κ} {compute : EStateM ε (OnceMap κ ν × τ) ν} {m : OnceMap κ ν} {t : τ} {v : ν}
  {e : ε}

theorem demand_of_get? (h : m.get? key = some v) : demand key compute (m, t) = .ok v (m, t) := by
  have hself : (m.slot key).2 = m := slot_eq_self (by rw [h]; rfl)
  have hvalue := value?_slot_fst m key
  rw [hself, h] at hvalue
  unfold demand
  simp only [hself, hvalue]

theorem demand_of_get?_eq_none (h : m.get? key = none) :
    demand key compute (m, t) =
      match compute ((m.slot key).2, t) with
      | .ok v (m', t') => .ok v ((m'.fill (m.slot key).1 v).restore key (m.slot key).1, t')
      | .error e (m', t') => .error e (m'.release key (m.slot key).1, t') := by
  have hvalue : (m.slot key).2.value? (m.slot key).1 = none := (value?_slot_fst m key).trans h
  cases hc : compute ((m.slot key).2, t) with
  | ok v s => simp only [demand, hvalue, hc]
  | error e s => simp only [demand, hvalue, hc]

theorem answer_demand_of_get? (h : m.get? key = some v) :
    answer (demand key compute) (m, t) = .ok v := by
  rw [answer, demand_of_get? h]

theorem after_demand_of_get? (h : m.get? key = some v) :
    after (demand key compute) (m, t) = (m, t) := by
  rw [after, demand_of_get? h]

theorem answer_demand_of_get?_eq_none (h : m.get? key = none) :
    answer (demand key compute) (m, t) = answer compute ((m.slot key).2, t) := by
  simp only [answer, demand_of_get?_eq_none h]
  cases compute ((m.slot key).2, t) <;> rfl

theorem after_demand_of_ok (h : m.get? key = none)
    (hok : answer compute ((m.slot key).2, t) = .ok v) :
    after (demand key compute) (m, t) =
      let s := after compute ((m.slot key).2, t)
      ((s.1.fill (m.slot key).1 v).restore key (m.slot key).1, s.2) := by
  simp only [answer] at hok
  simp only [after, demand_of_get?_eq_none h]
  cases hc : compute ((m.slot key).2, t) with
  | ok v' s =>
    rw [hc] at hok
    cases hok
    rfl
  | error e s =>
    rw [hc] at hok
    cases hok

theorem after_demand_of_error (h : m.get? key = none)
    (herror : answer compute ((m.slot key).2, t) = .error e) :
    after (demand key compute) (m, t) =
      let s := after compute ((m.slot key).2, t)
      (s.1.release key (m.slot key).1, s.2) := by
  simp only [answer] at herror
  simp only [after, demand_of_get?_eq_none h]
  cases hc : compute ((m.slot key).2, t) with
  | ok v' s =>
    rw [hc] at herror
    cases herror
  | error e s => rfl

/-- A demand leaves in the rest of the state what its computation does there. -/
theorem after_demand_snd (key : κ) (compute : EStateM ε (OnceMap κ ν × τ) ν) (m : OnceMap κ ν)
    (t : τ) :
    (after (demand key compute) (m, t)).2 =
      match m.get? key with
      | some _ => t
      | none => (after compute ((m.slot key).2, t)).2 := by
  cases h : m.get? key with
  | some v => rw [after_demand_of_get? h]
  | none =>
    cases hc : answer compute ((m.slot key).2, t) with
    | ok v => rw [after_demand_of_ok h hc]
    | error e => rw [after_demand_of_error h hc]

/-- What a demand answers and makes of the map depends on its computation only through the answer and
the map that this ends with. -/
theorem demand_congr {τ' : Type} {compute' : EStateM ε (OnceMap κ ν × τ') ν} {t' : τ'}
    (hanswer : answer compute ((m.slot key).2, t) = answer compute' ((m.slot key).2, t'))
    (hmap : (after compute ((m.slot key).2, t)).1 = (after compute' ((m.slot key).2, t')).1) :
    answer (demand key compute) (m, t) = answer (demand key compute') (m, t') ∧
      (after (demand key compute) (m, t)).1 = (after (demand key compute') (m, t')).1 := by
  cases h : m.get? key with
  | some v =>
    rw [answer_demand_of_get? h, answer_demand_of_get? h, after_demand_of_get? h,
      after_demand_of_get? h]
    exact ⟨rfl, rfl⟩
  | none =>
    rw [answer_demand_of_get?_eq_none h, answer_demand_of_get?_eq_none h]
    refine ⟨hanswer, ?_⟩
    cases hc : answer compute ((m.slot key).2, t) with
    | ok v =>
      rw [after_demand_of_ok h hc, after_demand_of_ok h (hanswer ▸ hc)]
      simp only [hmap]
    | error e =>
      rw [after_demand_of_error h hc, after_demand_of_error h (hanswer ▸ hc)]
      simp only [hmap]

end Demand

/-! ## Computations that leave the map alone -/

section DemandApart

variable {key : κ} {compute : EStateM ε τ ν} {m : OnceMap κ ν} {t : τ} {v : ν}

theorem answer_demandApart (m : OnceMap κ ν) (t : τ) :
    answer (demandApart key compute) (m, t) =
      match m.get? key with
      | some v => .ok v
      | none => answer compute t := by
  unfold demandApart
  cases h : m.get? key with
  | some v => exact answer_demand_of_get? h
  | none =>
    rw [answer_demand_of_get?_eq_none h, answer_run]
    rfl

theorem after_demandApart_snd (m : OnceMap κ ν) (t : τ) :
    (after (demandApart key compute) (m, t)).2 =
      match m.get? key with
      | some _ => t
      | none => after compute t := by
  unfold demandApart
  rw [after_demand_snd, after_run]
  rfl

/-- What the computation keeps of its own state, the demand keeps. -/
theorem keeps_demandApart {ω : Type} {view : τ → ω} (h : Keeps view compute) :
    Keeps (fun s => view s.2) (demandApart key compute) := by
  rintro ⟨m, t⟩
  show view (after (demandApart key compute) (m, t)).2 = view t
  rw [after_demandApart_snd]
  cases m.get? key with
  | some v => rfl
  | none => exact h t

variable [EquivBEq κ]

theorem after_demandApart_fst_of_ok (h : m.get? key = none) (hok : answer compute t = .ok v) :
    (after (demandApart key compute) (m, t)).1 = (m.slot key).2.fill (m.slot key).1 v := by
  have hc : answer (Part.second.run compute) ((m.slot key).2, t) = .ok v := by
    rw [answer_run, ← hok]
    rfl
  unfold demandApart
  rw [after_demand_of_ok h hc, after_run]
  exact restore_eq_self (m := (m.slot key).2.fill (m.slot key).1 v) (pending_slot h).find _

omit [EquivBEq κ] in
theorem after_demandApart_fst_of_error {e : ε} (h : m.get? key = none)
    (herror : answer compute t = .error e) :
    (after (demandApart key compute) (m, t)).1 = (m.slot key).2.release key (m.slot key).1 := by
  have hc : answer (Part.second.run compute) ((m.slot key).2, t) = .error e := by
    rw [answer_run, ← herror]
    rfl
  unfold demandApart
  rw [after_demand_of_error h hc, after_run]
  rfl

theorem WellFormed.after_demandApart (hm : m.WellFormed) (key : κ) (compute : EStateM ε τ ν)
    (t : τ) : (after (demandApart key compute) (m, t)).1.WellFormed := by
  cases h : m.get? key with
  | some v =>
    unfold demandApart
    rwa [after_demand_of_get? h]
  | none =>
    cases hc : answer compute t with
    | ok v =>
      rw [after_demandApart_fst_of_ok h hc]
      exact (hm.slot key).fill _ _
    | error e =>
      rw [after_demandApart_fst_of_error h hc]
      exact (hm.slot key).release (pending_slot h)

/-- The map afterwards is the old one with the answer, if it is a value, at the key. -/
theorem get?_after_demandApart (hm : m.WellFormed) (key : κ) (compute : EStateM ε τ ν) (t : τ)
    (k : κ) :
    (after (demandApart key compute) (m, t)).1.get? k =
      if key == k then (answer (demandApart key compute) (m, t)).toOption else m.get? k := by
  rw [answer_demandApart]
  cases h : m.get? key with
  | some v =>
    unfold demandApart
    rw [after_demand_of_get? h]
    split
    · rename_i hk
      rw [← get?_congr m hk, h]
      rfl
    · rfl
  | none =>
    cases hc : answer compute t with
    | ok v =>
      rw [after_demandApart_fst_of_ok h hc, get?_fill (hm.slot key) (pending_slot h), get?_slot]
      rfl
    | error e =>
      rw [after_demandApart_fst_of_error h hc, get?_release (hm.slot key) (pending_slot h),
        get?_slot]
      split
      · rename_i hk
        rw [← get?_congr m hk, h]
        rfl
      · rfl

/-- A bound key keeps its value. -/
theorem get?_after_demandApart_of_get? (hm : m.WellFormed) {k : κ} (h : m.get? k = some v)
    (key : κ) (compute : EStateM ε τ ν) (t : τ) :
    (after (demandApart key compute) (m, t)).1.get? k = some v := by
  rw [get?_after_demandApart hm]
  split
  · rename_i hk
    rw [answer_demandApart, get?_congr m hk, h]
    rfl
  · exact h

/-- What is answered is held from then on. -/
theorem get?_after_demandApart_of_answer (hm : m.WellFormed) {key : κ} {compute : EStateM ε τ ν}
    {t : τ} (h : answer (demandApart key compute) (m, t) = .ok v) :
    (after (demandApart key compute) (m, t)).1.get? key = some v := by
  rw [get?_after_demandApart hm, if_pos BEq.rfl, h]
  rfl

/-- A failure leaves all values alone. -/
theorem get?_after_demandApart_of_error (hm : m.WellFormed) {key : κ} {compute : EStateM ε τ ν}
    {t : τ} {e : ε} (h : answer (demandApart key compute) (m, t) = .error e) (k : κ) :
    (after (demandApart key compute) (m, t)).1.get? k = m.get? k := by
  rw [get?_after_demandApart hm]
  split
  · rename_i hk
    rw [answer_demandApart] at h
    cases hkey : m.get? key with
    | some v =>
      rw [hkey] at h
      cases h
    | none =>
      rw [hkey] at h
      rw [answer_demandApart, hkey, ← get?_congr m hk, hkey]
      exact congrArg Except.toOption h
  · rfl

/-- Where a computation pays for what it answers, the count and the number of paid values that the
map holds grow together. -/
theorem balance_demandApart {count : τ → Nat} {p : ν → Bool} {compute : EStateM ε τ ν}
    (hcompute : Pays count p compute) (hm : m.WellFormed) (key : κ) (t : τ) :
    count (after (demandApart key compute) (m, t)).2 + m.countValues p =
      count t + (after (demandApart key compute) (m, t)).1.countValues p := by
  have hwellFormed := hm.after_demandApart key compute t
  rw [after_demandApart_snd]
  cases hkey : m.get? key with
  | some v =>
    unfold demandApart
    rw [after_demand_of_get? hkey]
  | none =>
    show count (after compute t) + _ = _
    rw [hcompute t]
    have hanswer : answer (demandApart key compute) (m, t) = answer compute t := by
      rw [answer_demandApart, hkey]
    cases hc : answer compute t with
    | ok v =>
      have hget := get?_after_demandApart hm key compute t
      rw [hanswer, hc] at hget
      rw [countValues_of_get?_insert hm hwellFormed hkey hget, price]
      omega
    | error e =>
      rw [hc] at hanswer
      rw [countValues_congr hm hwellFormed (get?_after_demandApart_of_error hm hanswer), price,
        Nat.add_zero]

/-- No empty slot is left behind. -/
theorem hasEmptySlot_of_after_demandApart (hm : m.WellFormed) {compute : EStateM ε τ ν} {k : κ}
    (hk : (after (demandApart key compute) (m, t)).1.HasEmptySlot k) : m.HasEmptySlot k := by
  obtain ⟨cell, hcell⟩ := hk
  cases h : m.get? key with
  | some v =>
    unfold demandApart at hcell
    rw [after_demand_of_get? h] at hcell
    exact ⟨cell, hcell⟩
  | none =>
    cases hc : answer compute t with
    | ok v =>
      rw [after_demandApart_fst_of_ok h hc,
        pending_fill_iff (hm.slot key) (pending_slot h)] at hcell
      exact ⟨cell, (pending_slot_of_not_beq hcell.1).1 hcell.2⟩
    | error e =>
      rw [after_demandApart_fst_of_error h hc,
        pending_release_iff (hm.slot key) (pending_slot h)] at hcell
      exact ⟨cell, (pending_slot_of_not_beq hcell.1).1 hcell.2⟩

/-- A failure gives back the slot that was made for it. -/
theorem slots_after_demandApart_of_error (hkey : ¬ m.HasEmptySlot key)
    {compute : EStateM ε τ ν} {e : ε}
    (herror : answer (demandApart key compute) (m, t) = .error e) :
    (after (demandApart key compute) (m, t)).1.slots = m.slots := by
  rw [answer_demandApart] at herror
  cases h : m.get? key with
  | some v =>
    rw [h] at herror
    cases herror
  | none =>
    rw [h] at herror
    have hfind : m.slots.find? key = none := by
      cases hfind : m.slots.find? key with
      | none => rfl
      | some cell =>
        rw [get?, hfind] at h
        exact absurd ⟨cell, hfind, h⟩ hkey
    rw [after_demandApart_fst_of_error h herror, release_eq_erase (pending_slot h), slot, hfind]
    exact OrderedMap.erase_insert hfind _

end DemandApart

/-! ## What a map holds -/

/-- Every value that the map holds has the property `P` with its key. -/
structure Holds (P : κ → ν → Prop) (m : OnceMap κ ν) : Prop where
  wellFormed : m.WellFormed
  holds : ∀ k v, m.get? k = some v → P k v

theorem holds_empty (P : κ → ν → Prop) : Holds P (empty : OnceMap κ ν) where
  wellFormed := wellFormed_empty
  holds k v h := by
    rw [get?_empty] at h
    cases h

section Holds

variable {P Q : κ → ν → Prop} {m : OnceMap κ ν}

theorem Holds.mono (h : Holds P m) (hPQ : ∀ k v, P k v → Q k v) : Holds Q m :=
  ⟨h.wellFormed, fun k v hv => hPQ k v (h.holds k v hv)⟩

/-- A demand keeps a property of the values, if equal keys have it alike and the computation gives
its key a value with it. -/
theorem Holds.after_demandApart [EquivBEq κ] (h : Holds P m)
    (hcongr : ∀ k k' v, k == k' → P k v → P k' v) (key : κ) (compute : EStateM ε τ ν) (t : τ)
    (hcompute : ∀ v, answer compute t = .ok v → P key v) :
    Holds P (after (demandApart key compute) (m, t)).1 where
  wellFormed := h.wellFormed.after_demandApart key compute t
  holds k v hv := by
    rw [get?_after_demandApart h.wellFormed] at hv
    split at hv
    · rename_i hk
      refine hcongr key k v hk ?_
      rw [OnceMap.answer_demandApart] at hv
      cases hkey : m.get? key with
      | some w =>
        rw [hkey] at hv
        cases hv
        exact h.holds key v hkey
      | none =>
        rw [hkey] at hv
        cases hc : answer compute t with
        | ok w =>
          rw [hc] at hv
          cases hv
          exact hcompute v hc
        | error e =>
          rw [hc] at hv
          cases hv
    · exact h.holds k v hv

/-- A map that holds results of a function answers with the function. -/
theorem Holds.answer_demandApart {f : κ → Except ε ν} (h : Holds (fun k v => f k = .ok v) m)
    {key : κ} {compute : EStateM ε τ ν} {t : τ} (hcompute : answer compute t = f key) :
    answer (demandApart key compute) (m, t) = f key := by
  rw [OnceMap.answer_demandApart, hcompute]
  cases hkey : m.get? key with
  | none => rfl
  | some v => exact (h.holds key v hkey).symm

end Holds

end OnceMap

end LateBinding
