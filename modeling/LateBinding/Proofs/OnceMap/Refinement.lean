import Mathlib.Data.List.Forall2
import LateBinding.Proofs.OnceMap.Procedure

/-!
# Once-maps refine plain maps

A procedure that never demands a key under computation cannot tell a `OnceMap` from a plain map on
which a demand is a look-up, a computation and an insertion (`OrderedMap.demand`).  The invariant of
the simulation (`OnceMap.Simulates`) speaks about the middle of a computation: every key under
computation has kept the slot that its demand began with, empty, and no other slot is empty.
-/

namespace LateBinding

variable {κ ν ε : Type} [BEq κ]

/-- A demand is for a key that is not under computation. -/
def Moment.disciplined {μ : Type} (x : Moment κ ν ε μ) : Bool :=
  match x.event with
  | .asked key => x.running.all fun r => !(r == key)
  | _ => true

/-- The event of a moment agrees with the map of the moment. -/
def Moment.Truthful (x : Moment κ ν ε (OnceMap κ ν)) : Prop :=
  match x.event with
  | .read query reply => reply = x.map.reply query
  | .asked _ => True
  | .started key => x.map.get? key = none
  | .answered key result => x.map.get? key = result.toOption

namespace OnceMap

/-- Every value of `m` is still there in `m'`. -/
def Extends (m m' : OnceMap κ ν) : Prop := ∀ k v, m.get? k = some v → m'.get? k = some v

/-- All that can be read from `m` is as in the plain map `p`, and the keys with an empty slot are
those under computation. -/
structure Represents (running : List κ) (m : OnceMap κ ν) (p : OrderedMap κ ν) : Prop where
  get? : ∀ k, m.get? k = p.find? k
  size : m.size = p.size
  isEmpty : m.isEmpty = p.isEmpty
  empty_slots : ∀ k, m.HasEmptySlot k ↔ ∃ r ∈ running, r == k

/-- The same event at the same place, in maps that represent each other. -/
structure Agrees (x : Moment κ ν ε (OnceMap κ ν)) (y : Moment κ ν ε (OrderedMap κ ν)) :
    Prop where
  running : x.running = y.running
  event : x.event = y.event
  map : Represents x.running x.map y.map

theorem Represents.reply {running : List κ} {m : OnceMap κ ν} {p : OrderedMap κ ν}
    (h : Represents running m p) (query : Query κ) :
    m.reply query = p.reply query := by
  cases query with
  | get key => exact h.get? key
  | size => exact h.size
  | isEmpty => exact h.isEmpty

/-! ## The invariant -/

/-- `m` represents `p` in the middle of the computations for the keys of `frames`, each with the
cell of its slot. -/
structure Simulates (frames : List (κ × CellId)) (m : OnceMap κ ν) (p : OrderedMap κ ν) :
    Prop where
  wellFormed : m.WellFormed
  distinct : p.Distinct
  agree : ∀ k, m.get? k = p.find? k
  apart : frames.Pairwise fun a b => ¬ (a.1 == b.1)
  pending : ∀ f ∈ frames, m.Pending f.1 f.2
  only : ∀ k, m.HasEmptySlot k → ∃ f ∈ frames, f.1 == k

/-- What the log of a run that has reached `m` says: it agrees with the log of the plain run, it is
truthful, and no value in it has changed since. -/
structure Chronicle (m : OnceMap κ ν) (log : Log κ ν ε (OnceMap κ ν))
    (log' : Log κ ν ε (OrderedMap κ ν)) : Prop where
  agree : List.Forall₂ Agrees log log'
  truthful : ∀ x ∈ log, x.Truthful
  steady : log.Pairwise fun x y => x.map.Extends y.map
  kept : ∀ x ∈ log, x.map.Extends m

section Laws

variable [EquivBEq κ] {frames : List (κ × CellId)} {m : OnceMap κ ν} {p : OrderedMap κ ν}

omit [EquivBEq κ] in
theorem simulates_empty : Simulates [] (empty : OnceMap κ ν) .empty where
  wellFormed := wellFormed_empty
  distinct := OrderedMap.distinct_empty
  agree _ := rfl
  apart := List.Pairwise.nil
  pending f hf := by cases hf
  only k hk := absurd hk (not_hasEmptySlot_empty k)

theorem Simulates.represents (h : Simulates frames m p) : Represents (frames.map (·.1)) m p where
  get? := h.agree
  size := size_eq_of_get? h.wellFormed h.distinct h.agree
  isEmpty := by
    unfold isEmpty OrderedMap.isEmpty
    rw [size_eq_of_get? h.wellFormed h.distinct h.agree, OrderedMap.size]
    cases p.entries <;> rfl
  empty_slots k := by
    constructor
    · intro hk
      obtain ⟨f, hf, hfk⟩ := h.only k hk
      exact ⟨f.1, List.mem_map_of_mem hf, hfk⟩
    · rintro ⟨r, hr, hrk⟩
      obtain ⟨f, hf, rfl⟩ := List.mem_map.1 hr
      exact ⟨f.2, (h.pending f hf).congr hrk⟩

/-- A demand for an unbound key begins: its slot is a new frame. -/
theorem Simulates.push (h : Simulates frames m p) {key : κ} (hkey : m.get? key = none)
    (hnew : ∀ f ∈ frames, ¬ (f.1 == key)) :
    Simulates ((key, (m.slot key).1) :: frames) (m.slot key).2 p where
  wellFormed := h.wellFormed.slot key
  distinct := h.distinct
  agree k := by rw [get?_slot, h.agree]
  apart := List.pairwise_cons.2 ⟨fun f hf he => hnew f hf (BEq.symm he), h.apart⟩
  pending f hf := by
    rcases List.mem_cons.1 hf with rfl | hf
    · exact pending_slot hkey
    · have hne : ¬ (key == f.1) := fun he => hnew f hf (BEq.symm he)
      exact (pending_slot_of_not_beq hne).2 (h.pending f hf)
  only k hk := by
    obtain ⟨c, hc⟩ := hk
    by_cases he : key == k
    · exact ⟨_, List.mem_cons_self, he⟩
    · obtain ⟨f, hf, hfk⟩ := h.only k ⟨c, (pending_slot_of_not_beq he).1 hc⟩
      exact ⟨f, List.mem_cons_of_mem _ hf, hfk⟩

omit [EquivBEq κ] in
/-- What is left when the innermost key loses its empty slot in one way or another. -/
theorem Simulates.pop {key : κ} {cell : CellId} (h : Simulates ((key, cell) :: frames) m p)
    {m' : OnceMap κ ν} {p' : OrderedMap κ ν} (hm' : m'.WellFormed) (hp' : p'.Distinct)
    (hagree : ∀ k, m'.get? k = p'.find? k)
    (hpending : ∀ {k c}, m'.Pending k c ↔ ¬ (key == k) ∧ m.Pending k c) :
    Simulates frames m' p' where
  wellFormed := hm'
  distinct := hp'
  agree := hagree
  apart := (List.pairwise_cons.1 h.apart).2
  pending f hf := by
    have hne := (List.pairwise_cons.1 h.apart).1 f hf
    exact hpending.2 ⟨hne, h.pending f (List.mem_cons_of_mem _ hf)⟩
  only k hk := by
    obtain ⟨c, hc⟩ := hk
    obtain ⟨hne, hc⟩ := hpending.1 hc
    obtain ⟨f, hf, hfk⟩ := h.only k ⟨c, hc⟩
    rcases List.mem_cons.1 hf with rfl | hf
    · exact absurd hfk hne
    · exact ⟨f, hf, hfk⟩

/-- The innermost computation succeeds. -/
theorem Simulates.succeed {key : κ} {cell : CellId} (h : Simulates ((key, cell) :: frames) m p)
    (value : ν) :
    Simulates frames ((m.fill cell value).restore key cell) (p.insert key value) := by
  have hp := h.pending _ List.mem_cons_self
  -- The slot is still in place, so putting it back changes nothing.
  have hrestore : (m.fill cell value).restore key cell = m.fill cell value :=
    restore_eq_self (m := m.fill cell value) hp.find cell
  rw [hrestore]
  refine h.pop (h.wellFormed.fill cell value) (h.distinct.insert key value) (fun k => ?_)
    (pending_fill_iff h.wellFormed hp value)
  rw [get?_fill h.wellFormed hp, OrderedMap.find?_insert, h.agree]

/-- The innermost computation fails. -/
theorem Simulates.fail {key : κ} {cell : CellId} (h : Simulates ((key, cell) :: frames) m p) :
    Simulates frames (m.release key cell) p := by
  have hp := h.pending _ List.mem_cons_self
  refine h.pop (h.wellFormed.release hp) h.distinct (fun k => ?_)
    (pending_release_iff h.wellFormed hp)
  rw [get?_release h.wellFormed hp, h.agree]

/-! ## The log -/

omit [EquivBEq κ] in
theorem Chronicle.extend {m' : OnceMap κ ν} {log : Log κ ν ε (OnceMap κ ν)}
    {log' : Log κ ν ε (OrderedMap κ ν)} (h : Chronicle m log log') (hm : m.Extends m') :
    Chronicle m' log log' :=
  ⟨h.agree, h.truthful, h.steady, fun x hx k v hv => hm k v (h.kept x hx k v hv)⟩

/-- The map and the log of a run, beside those of the plain run. -/
structure Follows (frames : List (κ × CellId)) (s : OnceMap κ ν × Log κ ν ε (OnceMap κ ν))
    (s' : OrderedMap κ ν × Log κ ν ε (OrderedMap κ ν)) : Prop where
  map : Simulates frames s.1 s'.1
  log : Chronicle s.1 s.2 s'.2

variable {s : OnceMap κ ν × Log κ ν ε (OnceMap κ ν)}
  {s' : OrderedMap κ ν × Log κ ν ε (OrderedMap κ ν)}

theorem Follows.note (h : Follows frames s s') (event : Event κ ν ε)
    (htrue : Moment.Truthful ⟨frames.map (·.1), event, s.1⟩) :
    Follows frames (note (frames.map (·.1)) event s) (note (frames.map (·.1)) event s') where
  map := h.map
  log := by
    have hself : s.1.Extends s.1 := fun _ _ hv => hv
    refine ⟨?_, ?_, ?_, ?_⟩
    · exact List.rel_append h.log.agree (.cons ⟨rfl, rfl, h.map.represents⟩ .nil)
    · intro x hx
      rcases List.mem_append.1 hx with hx | hx
      · exact h.log.truthful x hx
      · rwa [List.mem_singleton.1 hx]
    · refine List.pairwise_append.2 ⟨h.log.steady, List.pairwise_singleton _ _, ?_⟩
      intro x hx y hy
      rw [List.mem_singleton.1 hy]
      exact h.log.kept x hx
    · intro x hx
      rcases List.mem_append.1 hx with hx | hx
      · exact h.log.kept x hx
      · rw [List.mem_singleton.1 hx]
        exact hself

theorem Follows.push (h : Follows frames s s') {key : κ} (hkey : s.1.get? key = none)
    (hnew : ∀ f ∈ frames, ¬ (f.1 == key)) :
    Follows ((key, (s.1.slot key).1) :: frames) ((s.1.slot key).2, s.2) s' where
  map := h.map.push hkey hnew
  log := h.log.extend fun k v hv => by rwa [get?_slot]

/-- A demand follows the plain demand if its computation follows the plain one with the key as a
new frame. -/
theorem Follows.demand (h : Follows frames s s') (key : κ)
    (compute : EStateM ε (OnceMap κ ν × Log κ ν ε (OnceMap κ ν)) ν)
    (compute' : EStateM ε (OrderedMap κ ν × Log κ ν ε (OrderedMap κ ν)) ν)
    (hcompute : s.1.get? key = none →
      answer compute ((s.1.slot key).2, s.2) = answer compute' s' ∧
        Follows ((key, (s.1.slot key).1) :: frames) (after compute ((s.1.slot key).2, s.2))
          (after compute' s')) :
    answer (OnceMap.demand key compute) s = answer (OrderedMap.demand key compute') s' ∧
      Follows frames (after (OnceMap.demand key compute) s)
        (after (OrderedMap.demand key compute') s') ∧
      (after (OnceMap.demand key compute) s).1.get? key =
        (answer (OnceMap.demand key compute) s).toOption := by
  obtain ⟨m, log⟩ := s
  obtain ⟨p, log'⟩ := s'
  have hagree : m.get? key = p.find? key := h.map.agree key
  cases hkey : m.get? key with
  | some v =>
    rw [hkey] at hagree
    have hplain : OrderedMap.demand key compute' (p, log') = .ok v (p, log') :=
      OrderedMap.demand_of_find? hagree.symm
    rw [answer_demand_of_get? hkey, after_demand_of_get? hkey]
    refine ⟨?_, ?_, hkey⟩
    · rw [answer, hplain]
    · rw [after, hplain]
      exact h
  | none =>
    rw [hkey] at hagree
    obtain ⟨hanswer, hafter⟩ := hcompute hkey
    rw [answer_demand_of_get?_eq_none hkey,
      OrderedMap.answer_demand_of_find?_eq_none hagree.symm]
    refine ⟨hanswer, ?_⟩
    cases hc : answer compute ((m.slot key).2, log) with
    | ok v =>
      have hc' : answer compute' (p, log') = .ok v := by rw [← hanswer, ← hc]
      rw [after_demand_of_ok hkey hc, OrderedMap.after_demand_of_ok hagree.symm hc']
      have hsucceed := hafter.map.succeed v
      have hget := hsucceed.agree
      refine ⟨⟨hsucceed, hafter.log.extend fun k w hw => ?_⟩, ?_⟩
      · -- A key with a value is not the one that was under computation.
        have hne : ¬ (key == k) := by
          intro he
          have hnone := ((hafter.map.pending _ List.mem_cons_self).congr he).get?
          rw [hw] at hnone
          cases hnone
        rw [hget, OrderedMap.find?_insert, if_neg hne, ← hafter.map.agree, hw]
      · rw [hget, OrderedMap.find?_insert, if_pos BEq.rfl]
        rfl
    | error e =>
      have hc' : answer compute' (p, log') = .error e := by rw [← hanswer, ← hc]
      rw [after_demand_of_error hkey hc, OrderedMap.after_demand_of_error hagree.symm hc']
      have hfail := hafter.map.fail
      have hget := hfail.agree
      refine ⟨⟨hfail, hafter.log.extend fun k w hw => ?_⟩, ?_⟩
      · rw [hget, ← hafter.map.agree, hw]
      · rw [hget, ← hafter.map.agree]
        exact (hafter.map.pending _ List.mem_cons_self).get?

/-! ## Whole procedures -/

omit [EquivBEq κ] in
/-- The log of a demand is that of its computation, if it runs. -/
theorem log_demanded (compute : Procedure κ ν ε) (running : List κ) (key : κ)
    (s : OnceMap κ ν × Log κ ν ε (OnceMap κ ν)) :
    (compute.demanded ops running key s).2 =
      match s.1.get? key with
      | some _ => (note running (.asked key) s).2
      | none => (after (compute.computing ops running key)
          ((s.1.slot key).2, (note running (.asked key) s).2)).2 :=
  after_demand_snd key (compute.computing ops running key) s.1 _

omit [EquivBEq κ] in
/-- A run keeps the log it starts with. -/
theorem subset_log_run (procedure : Procedure κ ν ε) (running : List κ)
    (s : OnceMap κ ν × Log κ ν ε (OnceMap κ ν)) :
    s.2 ⊆ (after (procedure.run ops running) s).2 := by
  induction procedure generalizing running s with
  | finish outcome =>
    rw [Procedure.run, after_liftExcept]
    exact List.Subset.refl _
  | read query next ih =>
    rw [after_congr (Procedure.run_read ops running s query next)]
    exact List.Subset.trans (subset_log_note _ _ s) (ih _ running _)
  | demand key compute next ihc ih =>
    have hdemanded : s.2 ⊆ (compute.demanded ops running key s).2 := by
      rw [log_demanded]
      cases s.1.get? key with
      | some v => exact subset_log_note _ _ s
      | none =>
        refine List.Subset.trans (subset_log_note running (.asked key) s) ?_
        exact List.Subset.trans (subset_log_note _ _ ((s.1.slot key).2, _)) (ihc (key :: running) _)
    rw [after_congr (Procedure.run_demand ops running s key compute next)]
    refine List.Subset.trans (List.Subset.trans hdemanded ?_) (ih _ running _)
    exact subset_log_note _ _ _

/-- The run of a procedure, from the middle of the computations for `frames`. -/
theorem run_follows (procedure : Procedure κ ν ε) (h : Follows frames s s')
    (hlog : ∀ x ∈ (after (procedure.run ops (frames.map (·.1))) s).2, x.disciplined) :
    answer (procedure.run ops (frames.map (·.1))) s =
        answer (procedure.run OrderedMap.ops (frames.map (·.1))) s' ∧
      Follows frames (after (procedure.run ops (frames.map (·.1))) s)
        (after (procedure.run OrderedMap.ops (frames.map (·.1))) s') := by
  induction procedure generalizing frames s s' with
  | finish outcome =>
    simp only [Procedure.run, answer_liftExcept, after_liftExcept]
    exact ⟨trivial, h⟩
  | read query next ih =>
    have hreply : s.1.reply query = s'.1.reply query := h.map.represents.reply query
    have hnext := h.note (.read query (s.1.reply query)) rfl
    rw [after_congr (Procedure.run_read ..)] at hlog
    rw [answer_congr (Procedure.run_read ..), answer_congr (Procedure.run_read ..),
      after_congr (Procedure.run_read ..), after_congr (Procedure.run_read ..)]
    have hrest := ih _ hnext hlog
    simp only [ops, OrderedMap.ops, ← hreply] at hrest ⊢
    exact hrest
  | demand key compute next ihc ih =>
    rw [after_congr (Procedure.run_demand ..)] at hlog
    rw [answer_congr (Procedure.run_demand ..), answer_congr (Procedure.run_demand ..),
      after_congr (Procedure.run_demand ..), after_congr (Procedure.run_demand ..)]
    have hasked := h.note (.asked key) trivial
    have hdemanded : ∀ x ∈ (compute.demanded ops (frames.map (·.1)) key s).2, x.disciplined :=
      fun x hx => hlog x (subset_log_run _ _ _ (subset_log_note _ _ _ hx))
    rw [log_demanded] at hdemanded
    -- The demand is noted with the keys under computation, and its key is none of them.
    have hnew : ∀ f ∈ frames, ¬ (f.1 == key) := by
      have hmem := mem_log_note (frames.map (·.1)) (.asked key) s
      have hdisciplined :
          (⟨frames.map (·.1), .asked key, s.1⟩ : Moment κ ν ε (OnceMap κ ν)).disciplined := by
        refine hdemanded _ ?_
        cases s.1.get? key with
        | some v => exact hmem
        | none => exact subset_log_run compute _ _ (subset_log_note _ _ ((s.1.slot key).2, _) hmem)
      intro f hf
      have hne := List.all_eq_true.1 hdisciplined f.1 (List.mem_map_of_mem hf)
      simpa using hne
    obtain ⟨hanswer, hafter, htrue⟩ := hasked.demand key
      (compute.computing ops (frames.map (·.1)) key)
      (compute.computing OrderedMap.ops (frames.map (·.1)) key) (by
        intro hkey
        change s.1.get? key = none at hkey
        rw [hkey] at hdemanded
        have hstarted := (hasked.push hkey hnew).note (.started key)
          ((get?_slot s.1 key key).trans hkey)
        exact ihc hstarted hdemanded)
    change compute.result ops (frames.map (·.1)) key s =
      compute.result OrderedMap.ops (frames.map (·.1)) key s' at hanswer
    rw [← hanswer]
    exact ih _ (hafter.note (.answered key _) htrue) hlog

/-- Whatever a procedure does on a new once-map, it could do on a plain map.  If it never demands a
key under computation, both maps give it the same outcome by way of the same events, and at every
moment, inside computations too, the once-map has the values, the size and the emptiness of the
plain map and an empty slot for exactly the keys under computation.  Every event is true of the map
of its moment, a value seen once stays, and the end leaves no empty slot behind. -/
theorem run_refines_plain (procedure : Procedure κ ν ε)
    (hlog : ∀ x ∈ (after (procedure.run ops []) (.empty, [])).2, x.disciplined) :
    let once := after (procedure.run ops []) (.empty, [])
    let plain := after (procedure.run OrderedMap.ops []) (.empty, [])
    answer (procedure.run ops []) (.empty, []) =
        answer (procedure.run OrderedMap.ops []) (.empty, []) ∧
      List.Forall₂ Agrees once.2 plain.2 ∧
      (∀ x ∈ once.2, x.Truthful) ∧
      once.2.Pairwise (fun x y => x.map.Extends y.map) ∧
      (∀ x ∈ once.2, x.map.Extends once.1) ∧
      Represents [] once.1 plain.1 ∧
      ∀ k, ¬ once.1.HasEmptySlot k := by
  have hstart : Follows [] ((.empty, []) : OnceMap κ ν × Log κ ν ε (OnceMap κ ν))
      ((.empty, []) : OrderedMap κ ν × Log κ ν ε (OrderedMap κ ν)) :=
    ⟨simulates_empty, ⟨.nil, by simp, List.Pairwise.nil, by simp⟩⟩
  obtain ⟨hanswer, hmap, hagree, htruthful, hsteady, hkept⟩ := run_follows procedure hstart hlog
  refine ⟨hanswer, hagree, htruthful, hsteady, hkept, hmap.represents, fun k hk => ?_⟩
  obtain ⟨f, hf, -⟩ := hmap.only k hk
  cases hf

end Laws

/-- A demand for key 1 fails although the demand for key 3 inside it succeeds; the second demand for
key 1 computes again, with the demand for key 2 that had failed before. -/
def failThenRetry : Procedure Nat Nat String :=
  .demand 1 (.demand 2 (.finish (.error "two")) fun _ =>
    .demand 3 (.finish (.ok 30)) fun _ => .finish (.error "one")) fun _ =>
  .read .size fun n =>
  .demand 1 (.demand 2 (.finish (.ok 20)) fun _ => .demand 3 (.finish (.error "three")) fun
    | .ok v => .finish (.ok (v + n))
    | .error e => .finish (.error e)) fun r =>
  .finish r

theorem run_refines_plain_failThenRetry :
    let once := after (failThenRetry.run ops []) (.empty, [])
    let plain := after (failThenRetry.run OrderedMap.ops []) (.empty, [])
    (∀ x ∈ once.2, x.disciplined) ∧ answer (failThenRetry.run ops []) (.empty, []) = .ok 31 ∧
      plain.1.entries = [(3, 30), (2, 20), (1, 31)] ∧ List.Forall₂ Agrees once.2 plain.2 ∧
      Represents [] once.1 plain.1 ∧ ∀ k, ¬ once.1.HasEmptySlot k := by
  have hlog : ∀ x ∈ (after (failThenRetry.run ops []) (.empty, [])).2, x.disciplined := by decide
  have h := run_refines_plain failThenRetry hlog
  exact ⟨hlog, by rfl, by rfl, h.2.1, h.2.2.2.2.2.1, h.2.2.2.2.2.2⟩

end OnceMap

end LateBinding
