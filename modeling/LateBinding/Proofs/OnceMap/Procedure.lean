import LateBinding.Proofs.OnceMap.Demand

/-!
# Procedures on a map

A `Procedure` is a finite tree of reads and demands on a map; what a demand computes is a procedure
on the same map, and what comes next may depend on every answer.  `Procedure.run` performs it on any
map with the right operations (`MapOps`) and keeps a `Log` with one `Moment` for every event, the
events inside computations included.  A moment holds the whole map as it is then and the keys whose
computations are under way.
-/

namespace LateBinding

/-- What can be read from a map. -/
inductive Query (κ : Type) where
  | get (key : κ)
  | size
  | isEmpty

/-- What a query is answered with. -/
abbrev Query.Reply (ν : Type) {κ : Type} : Query κ → Type
  | get _ => Option ν
  | size => Nat
  | isEmpty => Bool

/-- Reads and demands in sequence, ending in an outcome. -/
inductive Procedure (κ ν ε : Type) where
  | finish (outcome : Except ε ν)
  | read (query : Query κ) (next : query.Reply ν → Procedure κ ν ε)
  | demand (key : κ) (compute : Procedure κ ν ε) (next : Except ε ν → Procedure κ ν ε)

/-- What happens while a procedure runs.  A demand shows when it begins, when its computation
begins, if it does, and when it is answered. -/
inductive Event (κ ν ε : Type) where
  | read (query : Query κ) (reply : query.Reply ν)
  | asked (key : κ)
  | started (key : κ)
  | answered (key : κ) (result : Except ε ν)

/-- An event with the keys under computation, innermost first, and the map right after it. -/
structure Moment (κ ν ε μ : Type) where
  running : List κ
  event : Event κ ν ε
  map : μ

/-- Moments, oldest first. -/
abbrev Log (κ ν ε μ : Type) := List (Moment κ ν ε μ)

/-- The operations of a map that procedures use. -/
structure MapOps (κ ν ε μ : Type) where
  reply : μ → (query : Query κ) → query.Reply ν
  demand : κ → EStateM ε (μ × Log κ ν ε μ) ν → EStateM ε (μ × Log κ ν ε μ) ν

variable {κ ν ε μ τ : Type}

/-- Adds an event to the log. -/
def note (running : List κ) (event : Event κ ν ε) (s : μ × Log κ ν ε μ) : μ × Log κ ν ε μ :=
  (s.1, s.2 ++ [⟨running, event, s.1⟩])

theorem subset_log_note (running : List κ) (event : Event κ ν ε) (s : μ × Log κ ν ε μ) :
    s.2 ⊆ (note running event s).2 := List.subset_append_left _ _

theorem mem_log_note (running : List κ) (event : Event κ ν ε) (s : μ × Log κ ν ε μ) :
    ⟨running, event, s.1⟩ ∈ (note running event s).2 :=
  List.mem_append_right _ (List.mem_singleton_self _)

namespace Procedure

/-- Performs a procedure while the keys `running` are under computation. -/
def run (ops : MapOps κ ν ε μ) (running : List κ) :
    Procedure κ ν ε → EStateM ε (μ × Log κ ν ε μ) ν
  | finish outcome => liftExcept outcome
  | read query next => fun s =>
    let reply := ops.reply s.1 query
    (next reply).run ops running (note running (.read query reply) s)
  | demand key compute next => fun s =>
    let demanded := ops.demand key fun s =>
      compute.run ops (key :: running) (note (key :: running) (.started key) s)
    let asked := note running (.asked key) s
    let result := answer demanded asked
    (next result).run ops running (note running (.answered key result) (after demanded asked))

/-- The computation of a demand, noted when it begins. -/
def computing (ops : MapOps κ ν ε μ) (running : List κ) (key : κ) (compute : Procedure κ ν ε) :
    EStateM ε (μ × Log κ ν ε μ) ν :=
  fun s => compute.run ops (key :: running) (note (key :: running) (.started key) s)

/-- The result of a demand. -/
def result (ops : MapOps κ ν ε μ) (running : List κ) (key : κ) (compute : Procedure κ ν ε)
    (s : μ × Log κ ν ε μ) : Except ε ν :=
  answer (ops.demand key (compute.computing ops running key)) (note running (.asked key) s)

/-- What a demand leaves behind. -/
def demanded (ops : MapOps κ ν ε μ) (running : List κ) (key : κ) (compute : Procedure κ ν ε)
    (s : μ × Log κ ν ε μ) : μ × Log κ ν ε μ :=
  after (ops.demand key (compute.computing ops running key)) (note running (.asked key) s)

section Equations

variable (ops : MapOps κ ν ε μ) (running : List κ) (s : μ × Log κ ν ε μ)

theorem run_read (query : Query κ) (next : query.Reply ν → Procedure κ ν ε) :
    (read query next).run ops running s =
      (next (ops.reply s.1 query)).run ops running
        (note running (.read query (ops.reply s.1 query)) s) := rfl

theorem run_demand (key : κ) (compute : Procedure κ ν ε) (next : Except ε ν → Procedure κ ν ε) :
    (demand key compute next).run ops running s =
      (next (compute.result ops running key s)).run ops running
        (note running (.answered key (compute.result ops running key s))
          (compute.demanded ops running key s)) := rfl

end Equations

end Procedure

/-! ## The two maps -/

/-- The reply of a once-map to a query. -/
def OnceMap.reply [BEq κ] (m : OnceMap κ ν) : (query : Query κ) → query.Reply ν
  | .get key => m.get? key
  | .size => m.size
  | .isEmpty => m.isEmpty

/-- The operations of a once-map. -/
def OnceMap.ops [BEq κ] : MapOps κ ν ε (OnceMap κ ν) := ⟨OnceMap.reply, OnceMap.demand⟩

/-- The reply of a plain map to a query. -/
def OrderedMap.reply [BEq κ] (m : OrderedMap κ ν) : (query : Query κ) → query.Reply ν
  | .get key => m.find? key
  | .size => m.size
  | .isEmpty => m.isEmpty

/-- A demand on a plain map.  A bound key answers with its value.  Otherwise the computation runs;
what it does to the map is kept, and its success binds the key. -/
def OrderedMap.demand [BEq κ] (key : κ) (compute : EStateM ε (OrderedMap κ ν × τ) ν) :
    EStateM ε (OrderedMap κ ν × τ) ν := fun (m, t) =>
  match m.find? key with
  | some value => .ok value (m, t)
  | none =>
    match compute (m, t) with
    | .ok value (m, t) => .ok value (m.insert key value, t)
    | .error e (m, t) => .error e (m, t)

/-- The operations of a plain map. -/
def OrderedMap.ops [BEq κ] : MapOps κ ν ε (OrderedMap κ ν) := ⟨OrderedMap.reply, OrderedMap.demand⟩

namespace OrderedMap

variable [BEq κ] {key : κ} {compute : EStateM ε (OrderedMap κ ν × τ) ν} {m : OrderedMap κ ν}
  {t : τ} {v : ν} {e : ε}

theorem demand_of_find? (h : m.find? key = some v) : demand key compute (m, t) = .ok v (m, t) := by
  unfold demand
  simp only [h]

theorem answer_demand_of_find?_eq_none (h : m.find? key = none) :
    answer (demand key compute) (m, t) = answer compute (m, t) := by
  simp only [answer, demand, h]
  cases compute (m, t) <;> rfl

theorem after_demand_of_ok (h : m.find? key = none) (hok : answer compute (m, t) = .ok v) :
    after (demand key compute) (m, t) =
      let s := after compute (m, t)
      (s.1.insert key v, s.2) := by
  simp only [answer] at hok
  simp only [after, demand, h]
  cases hc : compute (m, t) with
  | ok v' s =>
    rw [hc] at hok
    cases hok
    rfl
  | error e s =>
    rw [hc] at hok
    cases hok

theorem after_demand_of_error (h : m.find? key = none)
    (herror : answer compute (m, t) = .error e) :
    after (demand key compute) (m, t) = after compute (m, t) := by
  simp only [answer] at herror
  simp only [after, demand, h]
  cases hc : compute (m, t) with
  | ok v s =>
    rw [hc] at herror
    cases herror
  | error e s => rfl

end OrderedMap

end LateBinding
