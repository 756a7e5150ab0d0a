import LateBinding.OnceMap.Script
import LateBinding.Proofs.OnceMap.Procedure

/-!
# Scripts as procedures

A script is a procedure whose course does not depend on what it reads (`OnceMap.Script.procedure`).
Performing the one or the other makes the same map, and the steps of the script show what the log of
the procedure holds (`OnceMap.Script.performs_procedure`).  What is known about procedures on a
once-map is so known about scripts.
-/

namespace LateBinding

variable {κ ν ε : Type} [BEq κ]

/-- A moment without its map, of which only the size after a read or an answer stays. -/
def Moment.shown (x : Moment κ ν ε (OnceMap κ ν)) : Event κ ν ε × Option Nat :=
  match x.event with
  | .read _ _ => (x.event, some x.map.size)
  | .asked _ => (x.event, none)
  | .started _ => (x.event, none)
  | .answered _ _ => (x.event, some x.map.size)

namespace OnceMap

namespace Script

/-- The procedure that performs a script and ends in an outcome. -/
def procedure : Script κ ν ε → Except ε ν → Procedure κ ν ε
  | done, outcome => .finish outcome
  | get key rest, outcome => .read (.get key) fun _ => rest.procedure outcome
  | demand key inner result rest, outcome =>
    .demand key (inner.procedure result) fun _ => rest.procedure outcome

/-- The events that the answers to a script tell of, with the size of the map where it is shown. -/
def events : Script κ ν ε → List (Answer ν ε) → List (Event κ ν ε × Option Nat)
  | done, _ => []
  | get key rest, .got value size :: answers =>
    (.read (.get key) value, some size) :: rest.events answers
  | demand key inner _ rest, .demanded result computed shown size :: answers =>
    let computation := if computed then (.started key, none) :: inner.events shown else []
    (.asked key, none) :: computation ++ (.answered key result, some size) :: rest.events answers
  | _, _ => []

omit [BEq κ] in
theorem answer_computation (steps : OnceMap κ ν → List (Answer ν ε) × OnceMap κ ν)
    (outcome : Except ε ν) (s : OnceMap κ ν × Option (List (Answer ν ε))) :
    answer (computation steps outcome) s = outcome := by
  cases outcome <;> rfl

omit [BEq κ] in
theorem after_computation (steps : OnceMap κ ν → List (Answer ν ε) × OnceMap κ ν)
    (outcome : Except ε ν) (s : OnceMap κ ν × Option (List (Answer ν ε))) :
    after (computation steps outcome) s = ((steps s.1).2, some (steps s.1).1) := by
  cases outcome <;> rfl

theorem run_demand (key : κ) (inner : Script κ ν ε) (outcome : Except ε ν) (rest : Script κ ν ε)
    (m : OnceMap κ ν) :
    (demand key inner outcome rest).run m =
      let demanded := OnceMap.demand key (computation inner.run outcome)
      let s := after demanded (m, none)
      (.demanded (answer demanded (m, none)) s.2.isSome (s.2.getD []) s.1.size ::
        (rest.run s.1).1, (rest.run s.1).2) := by
  simp only [run, answer, after]
  cases OnceMap.demand key (computation inner.run outcome) (m, none) <;> rfl

/-- The procedure ends in `outcome`, makes the same map as the script, and its log grows by what the
steps of the script show. -/
structure Performs (p : Procedure κ ν ε) (script : Script κ ν ε) (outcome : Except ε ν) :
    Prop where
  ends : ∀ running m log, answer (p.run OnceMap.ops running) (m, log) = outcome
  map : ∀ running m log, (after (p.run OnceMap.ops running) (m, log)).1 = (script.run m).2
  log : ∀ running m log, (after (p.run OnceMap.ops running) (m, log)).2.map Moment.shown =
    log.map Moment.shown ++ script.events (script.run m).1

section Steps

variable {key : κ} {p : Procedure κ ν ε} {next : Except ε ν → Procedure κ ν ε}
  {inner rest : Script κ ν ε} {result outcome : Except ε ν}

theorem performs_done : Performs (.finish outcome) (done : Script κ ν ε) outcome where
  ends running m log := answer_liftExcept _ _
  map running m log := by rw [Procedure.run, after_liftExcept, run]
  log running m log := by rw [Procedure.run, after_liftExcept, events, List.append_nil]

theorem Performs.get {next : Option ν → Procedure κ ν ε}
    (hrest : ∀ value, Performs (next value) rest outcome) :
    Performs (.read (.get key) next) (get key rest) outcome where
  ends running m log := (hrest _).ends running m _
  map running m log := (hrest _).map running m _
  log running m log := by
    have hlog := (hrest (m.get? key)).log running m
      (log ++ [⟨running, .read (.get key) (m.get? key), m⟩])
    rw [List.map_append, List.append_assoc] at hlog
    exact hlog

/-- A demand, by the computation of the script and by that of the procedure. -/
theorem Performs.demanded (hinner : Performs p inner result) (key : κ) (running : List κ)
    (m : OnceMap κ ν) (log : Log κ ν ε (OnceMap κ ν)) :
    let demanded := OnceMap.demand key (computation inner.run result)
    let demanded' := OnceMap.demand key (p.computing OnceMap.ops running key)
    let ran := (after demanded (m, none)).2
    answer demanded (m, none) = answer demanded' (m, log) ∧
      (after demanded (m, none)).1 = (after demanded' (m, log)).1 ∧
      (after demanded' (m, log)).2.map Moment.shown = log.map Moment.shown ++
        if ran.isSome then (.started key, none) :: inner.events (ran.getD []) else [] := by
  intro demanded demanded' ran
  have hsame : answer demanded (m, none) = answer demanded' (m, log) ∧
      (after demanded (m, none)).1 = (after demanded' (m, log)).1 := by
    refine demand_congr ?_ ?_
    · rw [answer_computation]
      exact (hinner.ends _ _ _).symm
    · rw [after_computation]
      exact (hinner.map _ _ _).symm
  refine ⟨hsame.1, hsame.2, ?_⟩
  simp only [ran, demanded, demanded', after_demand_snd, after_computation]
  cases m.get? key with
  | some v => exact (List.append_nil _).symm
  | none =>
    have hlog := hinner.log (key :: running) (m.slot key).2
      (log ++ [⟨key :: running, .started key, (m.slot key).2⟩])
    rw [List.map_append, List.append_assoc] at hlog
    exact hlog

theorem Performs.demand (hinner : Performs p inner result)
    (hrest : ∀ r, Performs (next r) rest outcome) :
    Performs (.demand key p next) (demand key inner result rest) outcome where
  ends running m log := (hrest _).ends running _ _
  map running m log := by
    obtain ⟨-, hmap, -⟩ := hinner.demanded key running m (log ++ [⟨running, .asked key, m⟩])
    rw [run_demand]
    simp only [hmap]
    exact (hrest _).map running _ _
  log running m log := by
    let asked : Log κ ν ε (OnceMap κ ν) := log ++ [⟨running, .asked key, m⟩]
    let demanded := OnceMap.demand key (p.computing OnceMap.ops running key)
    let s := after demanded (m, asked)
    let r := answer demanded (m, asked)
    obtain ⟨hanswer, hmap, hshown⟩ := hinner.demanded key running m asked
    have hlog := (hrest r).log running s.1 (s.2 ++ [⟨running, .answered key r, s.1⟩])
    rw [List.map_append, hshown, List.map_append] at hlog
    rw [run_demand, events]
    simp only [hmap, hanswer]
    refine hlog.trans ?_
    simp only [List.append_assoc, List.map_cons, List.map_nil, Moment.shown, List.cons_append,
      List.nil_append]
    rfl

end Steps

theorem performs_procedure (script : Script κ ν ε) (outcome : Except ε ν) :
    Performs (script.procedure outcome) script outcome := by
  induction script generalizing outcome with
  | done => exact performs_done
  | get key rest ih => exact .get fun _ => ih outcome
  | demand key inner result rest ihInner ihRest =>
    exact (ihInner result).demand fun _ => ihRest outcome

end Script

end OnceMap

end LateBinding
