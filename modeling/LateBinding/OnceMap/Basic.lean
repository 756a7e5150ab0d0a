import LateBinding.OrderedMap
import LateBinding.Part

/-!
# Maps that compute a value once

A `OnceMap` binds keys to values that are computed on first demand.  Its table gives keys a slot, a
reference to a cell, and a cell is filled at most once.  While a value is being computed its key has
an empty slot, and the computation may use the map itself for other keys.  Success fills the cell,
and puts the slot back if the key has lost it; failure takes the slot away if it is still the one
that the demand began with, and empty, so that the next demand computes anew (`OnceMap.demand`).
-/

namespace LateBinding

/-- A reference to a cell. -/
structure CellId where
  index : Nat
deriving DecidableEq, Repr, Inhabited

/-- Slots by key, and the content of every cell made so far. -/
structure OnceMap (κ ν : Type) where
  slots : OrderedMap κ CellId := .empty
  cells : Array (Option ν) := #[]
deriving Repr

namespace OnceMap

variable {κ ν ε τ : Type}

/-- The map without slots. -/
def empty : OnceMap κ ν := {}

instance : Inhabited (OnceMap κ ν) := ⟨empty⟩

/-- The value in a cell, if it is filled. -/
def value? (m : OnceMap κ ν) (cell : CellId) : Option ν := m.cells[cell.index]?.join

/-- The number of keys that hold a value. -/
def size (m : OnceMap κ ν) : Nat := m.slots.values.countP fun cell => (m.value? cell).isSome

/-- Whether no key holds a value. -/
def isEmpty (m : OnceMap κ ν) : Bool := m.size == 0

variable [BEq κ]

/-- The value held by a key. -/
def get? (m : OnceMap κ ν) (key : κ) : Option ν := (m.slots.find? key).bind m.value?

/-- The slot of a key; a key without one gets a new and empty cell. -/
def slot (m : OnceMap κ ν) (key : κ) : CellId × OnceMap κ ν :=
  match m.slots.find? key with
  | some cell => (cell, m)
  | none =>
    let cell : CellId := ⟨m.cells.size⟩
    (cell, { slots := m.slots.insert key cell, cells := m.cells.push none })

/-- Puts a value into a cell. -/
def fill (m : OnceMap κ ν) (cell : CellId) (value : ν) : OnceMap κ ν :=
  { m with cells := m.cells.setIfInBounds cell.index (some value) }

/-- Gives a key a slot unless it has one. -/
def restore (m : OnceMap κ ν) (key : κ) (cell : CellId) : OnceMap κ ν :=
  if m.slots.contains key then m else { m with slots := m.slots.insert key cell }

/-- Takes the slot of a key away if it refers to `cell` and the cell is empty. -/
def release (m : OnceMap κ ν) (key : κ) (cell : CellId) : OnceMap κ ν :=
  if m.slots.find? key = some cell ∧ (m.value? cell).isNone then
    { m with slots := m.slots.erase key }
  else m

/-- The value of `key`, by `compute` if there is none yet.  Whatever `compute` does to the map and
to the rest of the state is kept, whether it succeeds or fails. -/
def demand (key : κ) (compute : EStateM ε (OnceMap κ ν × τ) ν) :
    EStateM ε (OnceMap κ ν × τ) ν := fun (m, t) =>
  let (cell, m) := m.slot key
  match m.value? cell with
  | some value => .ok value (m, t)
  | none =>
    match compute (m, t) with
    | .ok value (m, t) => .ok value ((m.fill cell value).restore key cell, t)
    | .error e (m, t) => .error e (m.release key cell, t)

/-- `demand` for a computation that leaves the map alone. -/
def demandApart (key : κ) (compute : EStateM ε τ ν) : EStateM ε (OnceMap κ ν × τ) ν :=
  demand key (Part.second.run compute)

end OnceMap

end LateBinding
