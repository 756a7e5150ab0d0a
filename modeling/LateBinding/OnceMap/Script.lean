import LateBinding.OnceMap.Basic

/-!
# Scripts of demands on a once-map

A `Script` is a sequence of reads and demands, where the computation behind a demand is itself a
script followed by an outcome.  `Script.run` performs it on a map and answers every step with what
could be seen after it; the steps of a computation are answered inside the demand that ran it.
-/

namespace LateBinding

namespace OnceMap

/-- Reads and demands in sequence.  A demand for `key` first performs `inner`, then ends in
`outcome`; it should not contain a demand for a key whose computation is under way. -/
inductive Script (κ ν ε : Type) where
  | done
  | get (key : κ) (rest : Script κ ν ε)
  | demand (key : κ) (inner : Script κ ν ε) (outcome : Except ε ν) (rest : Script κ ν ε)

/-- What a step shows: its own answer and the size of the map after it.  A demand answers with the
result, whether the computation ran, and what its steps showed. -/
inductive Answer (ν ε : Type) where
  | got (value : Option ν) (size : Nat)
  | demanded (result : Except ε ν) (computed : Bool) (inner : List (Answer ν ε)) (size : Nat)

variable {κ ν ε : Type} [BEq κ]

/-- The computation that performs steps and then ends in an outcome.  What the steps show is kept
beside the map. -/
def Script.computation (steps : OnceMap κ ν → List (Answer ν ε) × OnceMap κ ν)
    (outcome : Except ε ν) : EStateM ε (OnceMap κ ν × Option (List (Answer ν ε))) ν :=
  fun (m, _) =>
    let (answers, m') := steps m
    match outcome with
    | .ok value => .ok value (m', some answers)
    | .error e => .error e (m', some answers)

/-- Performs a script and answers each of its steps. -/
def Script.run : Script κ ν ε → OnceMap κ ν → List (Answer ν ε) × OnceMap κ ν
  | done, m => ([], m)
  | get key rest, m =>
    let (answers, m') := rest.run m
    (.got (m.get? key) m.size :: answers, m')
  | demand key inner outcome rest, m =>
    let answer (result : Except ε ν) (ran : Option (List (Answer ν ε))) (m : OnceMap κ ν) :=
      Answer.demanded result ran.isSome (ran.getD []) m.size
    let (first, m') :=
      match OnceMap.demand key (computation inner.run outcome) (m, none) with
      | .ok value (m, ran) => (answer (.ok value) ran m, m)
      | .error e (m, ran) => (answer (.error e) ran m, m)
    let (answers, m'') := rest.run m'
    (first :: answers, m'')

end OnceMap

end LateBinding
