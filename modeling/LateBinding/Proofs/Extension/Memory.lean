import LateBinding.Extension.Lookup
import LateBinding.Proofs.Extension.Log
import LateBinding.Proofs.Extension.Recursion
import LateBinding.Proofs.TypeSystem.History

/-!
# Lookups while the tables change

A memory of lookups outlives the tables that its answers came from.  `Lookups` is such a memory with
the tables of the moment, and a run mixes lookups with changes of both.  The successful lookups of a
run decide what is remembered (`Lookups.Recalls`): the first success of a definition and a member is
final, and a lookup without one searches the tables as they are
(`Lookups.first_success_is_final`).
-/

namespace LateBinding

/-- A memory of lookups, and the tables that it is used with at the moment. -/
structure Lookups where
  types : TypeSystem
  index : ExtensionIndex
  memo : ExtensionMemo := .empty

namespace Lookups

/-- A lookup, or a change of one of the tables. -/
inductive Event where
  | resolve (ty : Ty) (member : String)
  | changeIndex (c : ExtensionIndex.Change)
  | changeTypes (c : TypeSystem.Change)

/-- What a lookup answers now. -/
def answer (s : Lookups) (ty : Ty) (member : String) : Except ResolutionError (List Method) :=
  LateBinding.answer (s.index.resolveOnce s.types ty member) s.memo

/-- The state after one more event. -/
def step (s : Lookups) : Event → Lookups
  | .resolve ty member =>
    { s with memo := after (s.index.resolveOnce s.types ty member) s.memo }
  | .changeIndex c => { s with index := s.index.apply c }
  | .changeTypes c => { s with types := s.types.apply c }

/-- The state after events, one after the other. -/
def run (s : Lookups) (events : List Event) : Lookups := events.foldl step s

/-- A definition and a member, with the methods that a lookup found for them. -/
abbrev Success := (TypeName × String) × List Method

/-- The success of an event, if it is a lookup that succeeds. -/
def success? (s : Lookups) : Event → Option Success
  | .resolve ty member =>
    ty.name?.bind fun n => (s.answer ty member).toOption.map ((n, member), ·)
  | .changeIndex _ | .changeTypes _ => none

/-- All successes of a run, oldest first. -/
def successes (s : Lookups) : List Event → List Success
  | [] => []
  | e :: es => (s.success? e).toList ++ (s.step e).successes es

/-- The methods of the first success of a definition and a member. -/
def first? (won : List Success) (key : TypeName × String) : Option (List Method) :=
  (won.find? (·.1 = key)).map (·.2)

/-- The methods of the first success of the definition of a type, if it has one, and a member. -/
def firstFor? (won : List Success) (ty : Ty) (member : String) : Option (List Method) :=
  ty.name?.bind fun n => first? won (n, member)

theorem first?_append (won more : List Success) (key : TypeName × String) :
    first? (won ++ more) key = (first? won key).or (first? more key) := by
  rw [first?, List.find?_append, Option.map_or]
  rfl

theorem isSome_first? (won : List Success) (key : TypeName × String) :
    (first? won key).isSome ↔ key ∈ won.map (·.1) := by
  simp [first?, List.find?_isSome]

variable {s : Lookups} {won : List Success} {ty : Ty} {member : String}

/-! ## What is remembered -/

/-- The memory holds the first success of every definition and member, and nothing else. -/
structure Recalls (won : List Success) (memo : ExtensionMemo) : Prop where
  wellFormed : memo.WellFormed
  settled : ∀ key, ¬ memo.HasEmptySlot key
  first : ∀ key, memo.get? key = first? won key

theorem recalls_empty : Recalls [] .empty where
  wellFormed := OnceMap.wellFormed_empty
  settled := OnceMap.not_hasEmptySlot_empty
  first _ := rfl

theorem Recalls.answer (h : Recalls won s.memo) (ty : Ty) (member : String) :
    s.answer ty member =
      match firstFor? won ty member with
      | some methods => .ok methods
      | none => s.index.resolve s.types ty member := by
  unfold firstFor?
  cases hn : ty.name? with
  | none => exact ExtensionIndex.answer_resolveOnce_of_none hn s.memo
  | some n =>
    have hanswer : s.answer ty member = _ := ExtensionIndex.answer_resolveOnce hn s.memo
    rw [h.first] at hanswer
    exact hanswer

theorem memo_step_resolve (s : Lookups) (ty : Ty) (member : String) :
    (s.step (.resolve ty member)).memo = after (s.index.resolveOnce s.types ty member) s.memo := rfl

theorem first?_success? {n : TypeName} (hn : ty.name? = some n) (s : Lookups)
    (key : TypeName × String) :
    first? (s.success? (.resolve ty member)).toList key =
      if (n, member) = key then (s.answer ty member).toOption else none := by
  rw [success?, hn, Option.bind_some, first?]
  cases s.answer ty member with
  | ok methods => by_cases hkey : (n, member) = key <;> simp [Except.toOption, hkey]
  | error e => simp [Except.toOption]

/-- A lookup brings at most its own success into memory, and only where there was none. -/
theorem Recalls.resolve (h : Recalls won s.memo) (ty : Ty) (member : String) :
    Recalls (won ++ (s.success? (.resolve ty member)).toList)
      (s.step (.resolve ty member)).memo := by
  rw [memo_step_resolve]
  cases hn : ty.name? with
  | none =>
    rw [ExtensionIndex.after_resolveOnce_of_none hn, success?, hn, Option.bind_none,
      Option.toList_none, List.append_nil]
    exact h
  | some n =>
    refine ⟨?_, fun key hkey => ?_, fun key => ?_⟩
    · rw [ExtensionIndex.after_resolveOnce_eq_demanded hn]
      exact h.wellFormed.after_demandApart _ _ _
    · rw [ExtensionIndex.after_resolveOnce_eq_demanded hn] at hkey
      exact h.settled key (OnceMap.hasEmptySlot_of_after_demandApart h.wellFormed hkey)
    · rw [ExtensionIndex.get?_after_resolveOnce hn h.wellFormed, h.first, first?_append,
        first?_success? hn, ← Lookups.answer]
      by_cases hkey : (n, member) = key
      · -- A success that is answered from memory repeats the first one, so it changes nothing.
        subst hkey
        have hanswer := h.answer ty member
        rw [firstFor?, hn, Option.bind_some] at hanswer
        rw [if_pos rfl, if_pos rfl]
        cases hwon : first? won (n, member) with
        | none => rfl
        | some methods =>
          rw [hwon] at hanswer
          rw [hanswer]
          rfl
      · rw [if_neg hkey, if_neg hkey, Option.or_none]

theorem Recalls.step (h : Recalls won s.memo) (e : Event) :
    Recalls (won ++ (s.success? e).toList) (s.step e).memo := by
  cases e with
  | resolve ty member => exact h.resolve ty member
  | changeIndex c =>
    rw [success?, Option.toList_none, List.append_nil]
    exact h
  | changeTypes c =>
    rw [success?, Option.toList_none, List.append_nil]
    exact h

theorem Recalls.run (h : Recalls won s.memo) (events : List Event) :
    Recalls (won ++ s.successes events) (s.run events).memo := by
  induction events generalizing s won with
  | nil =>
    rw [successes, List.append_nil]
    exact h
  | cons e es ih =>
    rw [successes, ← List.append_assoc]
    exact ih (h.step e)

/-- A failure leaves nothing behind. -/
theorem Recalls.memo_of_error (h : Recalls won s.memo) {e : ResolutionError}
    (herror : s.answer ty member = .error e) :
    (s.step (.resolve ty member)).memo.slots = s.memo.slots ∧
      ∀ key, (s.step (.resolve ty member)).memo.get? key = s.memo.get? key := by
  constructor
  · rw [memo_step_resolve]
    cases hn : ty.name? with
    | none => rw [ExtensionIndex.after_resolveOnce_of_none hn]
    | some n =>
      rw [Lookups.answer, ExtensionIndex.answer_resolveOnce_eq_demanded hn] at herror
      rw [ExtensionIndex.after_resolveOnce_eq_demanded hn]
      exact OnceMap.slots_after_demandApart_of_error (h.settled _) herror
  · intro key
    have hnone : s.success? (.resolve ty member) = none := by
      rw [success?, herror]
      cases ty.name? <;> rfl
    have hafter := (h.resolve ty member).first key
    rwa [hnone, Option.toList_none, List.append_nil, ← h.first] at hafter

/-- The memory counts the definitions and members with a success. -/
theorem Recalls.size (h : Recalls won s.memo) : s.memo.size = (won.map (·.1)).dedup.length := by
  refine OnceMap.size_eq_length h.wellFormed (List.nodup_dedup _) fun key => ?_
  rw [h.first, isSome_first?, List.mem_dedup]

/-! ## Runs -/

/-- From any tables, with lookups and changes in any order, a lookup without an earlier success of
its definition and member is answered from the tables of the moment, and one with an earlier success
by the first of them, whatever comes in between.  A failure leaves the memory as it is.  The memory
counts the different definitions and members that have had a success. -/
theorem first_success_is_final (types : TypeSystem) (index : ExtensionIndex)
    (events : List Event) :
    let start : Lookups := { types, index }
    let s := start.run events
    let won := start.successes events
    (∀ ty member, firstFor? won ty member = none →
        s.answer ty member = s.index.resolve s.types ty member) ∧
      (∀ more ty member methods, firstFor? won ty member = some methods →
        (s.run more).answer ty member = .ok methods) ∧
      (∀ ty member e, s.answer ty member = .error e →
        (s.step (.resolve ty member)).memo.slots = s.memo.slots ∧
          ∀ key, (s.step (.resolve ty member)).memo.get? key = s.memo.get? key) ∧
      s.memo.size = (won.map (·.1)).dedup.length := by
  intro start s won
  have hstart : Recalls [] start.memo := recalls_empty
  have hs : Recalls won s.memo := hstart.run events
  refine ⟨fun ty member hnone => ?_, fun more ty member methods hfirst => ?_,
    fun ty member e herror => hs.memo_of_error herror, hs.size⟩
  · rw [hs.answer, hnone]
  · -- The later successes of the run come behind the one that is first.
    have hlater := (hs.run more).answer ty member
    obtain ⟨n, hn, hkey⟩ := Option.bind_eq_some_iff.1 hfirst
    rw [firstFor?, hn, Option.bind_some, first?_append, hkey] at hlater
    exact hlater

/-- A lookup fails, then a candidate is registered and found, and another one comes too late, also
for a different instantiation. -/
theorem first_success_is_final_lateCandidate :
    let list : TypeName := ⟨"Demo", "List"⟩
    let number : Ty := .con ⟨"Demo", "Number"⟩
    let text : Ty := .con ⟨"Demo", "Text"⟩
    let early : Method := { name := "Each", handle := 1 }
    let late : Method := { name := "Each", handle := 2 }
    let start : Lookups := { types := {}, index := { object := .object } }
    let events : List Event := [
      .resolve (.app list [number]) "Each",
      .changeIndex (.register list "Each" early),
      .resolve (.app list [number]) "Each"]
    let s := start.run events
    let won := start.successes events
    firstFor? won (.app list [text]) "Each" = some [early] ∧
      (s.run [.changeIndex (.register list "Each" late)]).answer (.app list [text]) "Each" =
        .ok [early] ∧
      firstFor? won text "Each" = none ∧
      s.answer text "Each" = .error (.noExtension text "Each") ∧
      (s.step (.resolve text "Each")).memo.slots = s.memo.slots ∧
      s.memo.size = 1 := by
  intro list number text early late start events s won
  have hwon : won = [((list, "Each"), [early])] := by
    simp only [won, start, events, list, number, early, successes, success?, step, answer,
      ExtensionIndex.resolveOnce, ExtensionIndex.resolve, ExtensionIndex.find?,
      TypeSystem.lineage_eq_within]
    rfl
  have hsearch : s.index.resolve s.types text "Each" = .error (.noExtension text "Each") := by
    simp only [s, start, events, list, number, text, early, run, List.foldl_cons, List.foldl_nil,
      step, ExtensionIndex.resolveOnce, ExtensionIndex.resolve, ExtensionIndex.find?,
      TypeSystem.lineage_eq_within]
    rfl
  obtain ⟨hnow, hfinal, hfailure, hsize⟩ := first_success_is_final {} { object := .object } events
  have hfirst : firstFor? won (.app list [text]) "Each" = some [early] := by
    rw [hwon]
    rfl
  have hnone : firstFor? won text "Each" = none := by
    rw [hwon]
    rfl
  have herror : s.answer text "Each" = .error (.noExtension text "Each") :=
    (hnow text "Each" hnone).trans hsearch
  have hcount : (won.map (·.1)).dedup.length = 1 := by
    rw [hwon]
    rfl
  exact ⟨hfirst, hfinal [.changeIndex (.register list "Each" late)] _ _ _ hfirst, hnone, herror,
    (hfailure _ _ _ herror).1, hsize.trans hcount⟩

end Lookups

end LateBinding
