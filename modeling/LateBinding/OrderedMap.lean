/-!
# Maps in insertion order

An `OrderedMap` is an association list whose entries stay in the order of first insertion.  The
key equality may be coarser than equality of terms; `find?` is the view through which all other
operations are described.
-/

namespace LateBinding

/-- A map that remembers the order in which its keys first came. -/
structure OrderedMap (κ : Type u) (ν : Type v) where
  entries : List (κ × ν) := []
deriving Repr

namespace OrderedMap

variable {κ : Type u} {ν : Type v}

/-- The map without entries. -/
def empty : OrderedMap κ ν := ⟨[]⟩

instance : Inhabited (OrderedMap κ ν) := ⟨empty⟩

/-- The keys, oldest first. -/
def keys (m : OrderedMap κ ν) : List κ := m.entries.map (·.1)

/-- The values, in the order of their keys. -/
def values (m : OrderedMap κ ν) : List ν := m.entries.map (·.2)

/-- Whether the map has no entry at all. -/
def isEmpty (m : OrderedMap κ ν) : Bool := m.entries.isEmpty

variable [BEq κ]

/-- The value bound to a key. -/
def find? (m : OrderedMap κ ν) (key : κ) : Option ν :=
  (m.entries.find? (·.1 == key)).map (·.2)

/-- Whether a key is bound. -/
def contains (m : OrderedMap κ ν) (key : κ) : Bool := (m.find? key).isSome

/-- Entries with the value at `key` replaced by `f` of the old one; a new key goes last. -/
def alterEntries (key : κ) (f : Option ν → ν) : List (κ × ν) → List (κ × ν)
  | [] => [(key, f none)]
  | (k, v) :: rest => if k == key then (k, f (some v)) :: rest else (k, v) :: alterEntries key f rest

/-- Binds `key` to `f` of its old value.  A bound key keeps its place and its first spelling. -/
def alter (m : OrderedMap κ ν) (key : κ) (f : Option ν → ν) : OrderedMap κ ν :=
  ⟨alterEntries key f m.entries⟩

/-- Binds `key` to `value`. -/
def insert (m : OrderedMap κ ν) (key : κ) (value : ν) : OrderedMap κ ν :=
  m.alter key fun _ => value

/-- Applies `f` to the value bound to `key`, if there is one. -/
def modify (m : OrderedMap κ ν) (key : κ) (f : ν → ν) : OrderedMap κ ν :=
  match m.find? key with
  | some v => m.insert key (f v)
  | none => m

/-- The map without the entry of `key`. -/
def erase (m : OrderedMap κ ν) (key : κ) : OrderedMap κ ν :=
  ⟨m.entries.eraseP (·.1 == key)⟩

/-! ## The view through `find?` -/

@[simp] theorem find?_empty (key : κ) : (empty : OrderedMap κ ν).find? key = none := rfl

section Laws

variable [EquivBEq κ]

theorem find?_alter_of_beq (m : OrderedMap κ ν) {key k : κ} (f : Option ν → ν) (h : key == k) :
    (m.alter key f).find? k = some (f (m.find? key)) := by
  obtain ⟨es⟩ := m
  unfold alter find?
  induction es with
  | nil => simp [alterEntries, h]
  | cons e es ih =>
    obtain ⟨k', v⟩ := e
    by_cases hk : k' == key
    · have : k' == k := BEq.trans hk h
      simp [alterEntries, hk, this]
    · have : ¬ (k' == k) := fun hc => hk (BEq.trans hc (BEq.symm h))
      simpa [alterEntries, hk, this] using ih

theorem find?_alter_of_not_beq (m : OrderedMap κ ν) {key k : κ} (f : Option ν → ν)
    (h : ¬ (key == k)) : (m.alter key f).find? k = m.find? k := by
  obtain ⟨es⟩ := m
  unfold alter find?
  induction es with
  | nil => simp [alterEntries, h]
  | cons e es ih =>
    obtain ⟨k', v⟩ := e
    by_cases hk : k' == key
    · have : ¬ (k' == k) := fun hc => h (BEq.trans (BEq.symm hk) hc)
      simp [alterEntries, hk, this]
    · by_cases hk' : k' == k
      · simp [alterEntries, hk, hk']
      · simpa [alterEntries, hk, hk'] using ih

/-- After `alter`, a key equal to the altered one has the new value and every other key keeps
its old one. -/
theorem find?_alter (m : OrderedMap κ ν) (key k : κ) (f : Option ν → ν) :
    (m.alter key f).find? k = if key == k then some (f (m.find? key)) else m.find? k := by
  by_cases h : key == k
  · simp [h, find?_alter_of_beq]
  · simp [h, find?_alter_of_not_beq]

theorem find?_congr (m : OrderedMap κ ν) {key k : κ} (h : key == k) : m.find? key = m.find? k := by
  unfold find?
  have : (fun e : κ × ν => e.1 == key) = fun e => e.1 == k :=
    funext fun e => BEq.congr_right h
  rw [this]

theorem find?_modify (m : OrderedMap κ ν) (key k : κ) (f : ν → ν) :
    (m.modify key f).find? k = if key == k then (m.find? key).map f else m.find? k := by
  unfold modify
  cases hf : m.find? key with
  | some v => by_cases h : key == k <;> simp [insert, find?_alter, h]
  | none =>
    by_cases h : key == k
    · simp [h, ← find?_congr m h, hf]
    · simp [h]

end Laws

end OrderedMap

end LateBinding
