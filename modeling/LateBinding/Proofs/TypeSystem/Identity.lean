import LateBinding.Proofs.Hierarchy
import LateBinding.Proofs.Resolution.Keys
import LateBinding.Proofs.TypeSystem.History

/-!
# The identity of methods

Methods are compared by handle and type arguments alone.  A type system gives methods out in three
ways: it declares them, lists them and closes those that it gave out before.  Whatever is asked of
it and in which order, two methods that it has given out compare equal only if they are equal in all
they say (`TypeSystem.same_iff_eq`).  Every one of them stems from a declaration with a handle of
its own, and closing is a function of the declared method and the type arguments.
-/

namespace LateBinding

namespace TypeSystem

/-! ## What is given out -/

/-- A type system with the methods that it has given out so far, oldest first. -/
structure Transcript where
  types : TypeSystem := {}
  given : List Method := []

/-- One request to a type system.  A method to be closed is one that was given out before. -/
inductive Request where
  | define (d : Definition)
  | declare (owner : Ty) (s : Signature)
  | list (ty : Ty)
  | close (index : Nat) (typeArgs : List Ty)

/-- Whether a request declares a method. -/
def Request.isDeclare : Request → Bool
  | declare _ _ => true
  | define _ | list _ | close _ _ => false

namespace Transcript

/-- The transcript after one more request.  A method that cannot be closed is not given out. -/
def extend (t : Transcript) : Request → Transcript
  | .define d => { t with types := t.types.define d }
  | .declare owner s =>
    let (m, types) := t.types.declare owner s
    { types, given := t.given ++ [m] }
  | .list ty => { t with given := t.given ++ t.types.methods ty }
  | .close index typeArgs =>
    match t.given[index]? with
    | none => t
    | some m =>
      { types := after (TypeSystem.close m typeArgs) t.types
        given := t.given ++ (answer (TypeSystem.close m typeArgs) t.types).toOption.toList }

/-- The transcript of requests, one after the other. -/
def of (requests : List Request) : Transcript := requests.foldl extend {}

end Transcript

/-! ## Where methods stem from -/

/-- A method that is declared, or one that is declared and then closed. -/
inductive Stems (declared : List Method) : Method → Prop
  | declared {m : Method} (hm : m ∈ declared) : Stems declared m
  | closed {m : Method} {typeArgs : List Ty} (hm : m ∈ declared) (hne : typeArgs ≠ [])
    (hclosed : ∀ a ∈ typeArgs, a.hasPlaceholder = false) : Stems declared (m.close typeArgs)

/-- All methods that a type system holds or has given out stem from those that were declared, which
have their numbers as handles. -/
structure Traced (declared : List Method) (t : Transcript) : Prop where
  issued : t.types.issued.toNat = declared.length
  numbered : ∀ i m, declared[i]? = some m → m.handle.toNat = i + 1
  unclosed : ∀ m ∈ declared, m.typeArgs = []
  held : ∀ m ∈ t.types.held, m ∈ declared
  given : ∀ m ∈ t.given, Stems declared m

variable {declared : List Method} {t : Transcript} {m n : Method} {typeArgs : List Ty}

theorem traced_empty : Traced [] {} where
  issued := rfl
  numbered _ _ h := by cases h
  unclosed := List.forall_mem_nil _
  held := List.forall_mem_nil _
  given := List.forall_mem_nil _

theorem Stems.mono (h : Stems declared m) (more : List Method) : Stems (declared ++ more) m := by
  cases h with
  | declared hm => exact .declared (List.mem_append_left more hm)
  | closed hm hne hclosed => exact .closed (List.mem_append_left more hm) hne hclosed

/-! ### Identity -/

/-- A handle belongs to one declaration. -/
theorem Traced.eq_of_handle (h : Traced declared t) (hm : m ∈ declared) (hn : n ∈ declared)
    (hhandle : m.handle = n.handle) : m = n := by
  obtain ⟨i, hi⟩ := List.getElem?_of_mem hm
  obtain ⟨k, hk⟩ := List.getElem?_of_mem hn
  have him := h.numbered i m hi
  have hkn := h.numbered k n hk
  rw [hhandle] at him
  obtain rfl : i = k := by omega
  exact Option.some.inj (hi.symm.trans hk)

/-- Methods that stem from declarations are equal if handle and type arguments are.  The type
arguments of a declared method are empty, those of a closed one are not, and without placeholders
they are equal as keys only if they are equal. -/
theorem Traced.eq_of_beq (h : Traced declared t) (hm : Stems declared m) (hn : Stems declared n)
    (hmn : m == n) : m = n := by
  change (m.handle == n.handle && m.typeArgs == n.typeArgs) = true at hmn
  rw [Bool.and_eq_true, beq_iff_eq] at hmn
  obtain ⟨hhandle, hargs⟩ := hmn
  cases hm with
  | declared hm =>
    cases hn with
    | declared hn => exact h.eq_of_handle hm hn hhandle
    | closed hn hne hclosed =>
      rw [h.unclosed m hm] at hargs
      exact absurd (List.length_eq_of_beq hargs).symm (mt List.length_eq_zero_iff.1 hne)
  | closed hm hne hclosed =>
    cases hn with
    | declared hn =>
      rw [h.unclosed n hn] at hargs
      exact absurd (List.length_eq_of_beq hargs) (mt List.length_eq_zero_iff.1 hne)
    | closed hn hne' hclosed' =>
      have hsame : _ = _ := Ty.list_eq_of_beq hargs hclosed
      rw [h.eq_of_handle hm hn hhandle]
      exact congrArg _ hsame

/-! ### Requests -/

theorem Traced.define (h : Traced declared t) (d : Definition) :
    Traced declared (t.extend (.define d)) where
  issued := h.issued
  numbered := h.numbered
  unclosed := h.unclosed
  held m hm := h.held m (by rwa [← held_define t.types d])
  given := h.given

theorem Traced.declare (h : Traced declared t) (hcount : declared.length + 1 < UInt64.size)
    (owner : Ty) (s : Signature) :
    Traced (declared ++ [t.types.newMethod owner s]) (t.extend (.declare owner s)) where
  issued := by
    rw [List.length_append]
    exact toNat_issued_add_one h.issued hcount
  numbered i m hm := by
    rcases Nat.lt_or_ge i declared.length with hi | hi
    · rw [List.getElem?_append_left hi] at hm
      exact h.numbered i m hm
    · rw [List.getElem?_append_right hi, List.getElem?_singleton] at hm
      split at hm
      · rename_i hzero
        cases hm
        have hi : i = declared.length := by omega
        rw [hi]
        exact toNat_issued_add_one h.issued hcount
      · cases hm
  unclosed := List.forall_mem_append.2 ⟨h.unclosed, List.forall_mem_singleton.2 rfl⟩
  held m hm := by
    rw [List.mem_append, List.mem_singleton]
    exact (mem_held_declare hm).imp_left (h.held m)
  given := List.forall_mem_append.2 ⟨fun m hm => (h.given m hm).mono _,
    List.forall_mem_singleton.2 (.declared (List.mem_append_right _ List.mem_cons_self))⟩

theorem Traced.list (h : Traced declared t) (ty : Ty) : Traced declared (t.extend (.list ty)) where
  issued := h.issued
  numbered := h.numbered
  unclosed := h.unclosed
  held := h.held
  given := List.forall_mem_append.2 ⟨h.given,
    fun m hm => .declared (h.held m (mem_held_of_mem_methods hm))⟩

theorem keeps_issued_close (m : Method) (args : List Ty) : Keeps (·.issued) (close m args) := by
  intro ts
  rw [after_close]
  cases ts.violation? m args <;> rfl

theorem held_after_close (m : Method) (args : List Ty) (ts : TypeSystem) :
    (after (close m args) ts).held = ts.held := by
  have htypes : (after (close m args) ts).types = ts.types := keeps_close m args ts
  rw [held, methodLists, htypes]
  rfl

/-- What is closed is a declared method, and there are arguments, all without placeholders. -/
theorem Traced.stems_of_close (h : Traced declared t) (hm : m ∈ t.given)
    (hok : answer (TypeSystem.close m typeArgs) t.types = .ok n) : Stems declared n := by
  rw [TypeSystem.answer_close] at hok
  split at hok
  · cases hok
  · rename_i hviolation
    cases hok
    obtain ⟨hgeneric, hadmits⟩ := violation?_eq_none_iff.1 hviolation
    rw [Method.isGeneric, Bool.and_eq_true, Bool.not_eq_true', List.isEmpty_eq_false_iff,
      List.isEmpty_iff] at hgeneric
    obtain ⟨hgenerics, hopen⟩ := hgeneric
    cases h.given m hm with
    | declared hm =>
      refine .closed hm (fun hnil => hgenerics ?_) hadmits.closed
      have hlength := hadmits.length
      rw [hnil] at hlength
      exact List.length_eq_zero_iff.1 hlength.symm
    | closed hm hne hclosed => exact absurd hopen hne

theorem Traced.close (h : Traced declared t) (index : Nat) (typeArgs : List Ty) :
    Traced declared (t.extend (.close index typeArgs)) := by
  unfold Transcript.extend
  simp only
  split
  · exact h
  · rename_i m hm
    refine ⟨?_, h.numbered, h.unclosed, fun m' hm' => h.held m' ?_, ?_⟩
    · exact (congrArg UInt64.toNat (keeps_issued_close m typeArgs t.types)).trans h.issued
    · rwa [← held_after_close m typeArgs t.types]
    · refine List.forall_mem_append.2 ⟨h.given, fun n hn => ?_⟩
      cases hok : answer (TypeSystem.close m typeArgs) t.types with
      | error e =>
        rw [hok] at hn
        cases hn
      | ok c =>
        rw [hok] at hn
        cases List.mem_singleton.1 hn
        exact h.stems_of_close (List.mem_of_getElem? hm) hok

/-! ## Runs -/

theorem exists_traced (requests : List Request)
    (hcount : requests.countP Request.isDeclare < UInt64.size) :
    ∃ declared, declared.length = requests.countP Request.isDeclare ∧
      Traced declared (.of requests) := by
  induction requests using List.reverseRecOn with
  | nil => exact ⟨[], rfl, traced_empty⟩
  | append_singleton requests r ih =>
    rw [List.countP_append] at hcount ⊢
    rw [Transcript.of, List.foldl_append]
    obtain ⟨declared, hlength, htraced⟩ := ih (by omega)
    cases r with
    | define d => exact ⟨declared, hlength, htraced.define d⟩
    | declare owner s =>
      refine ⟨_, ?_, htraced.declare (by rw [hlength]; exact hcount) owner s⟩
      rw [List.length_append, hlength]
      rfl
    | list ty => exact ⟨declared, hlength, htraced.list ty⟩
    | close index typeArgs => exact ⟨declared, hlength, htraced.close index typeArgs⟩

/-- Whatever is defined, declared, listed and closed, in any order, two methods that a type system
has given out compare equal exactly if they are equal, in name, declaring type, formals, generic
parameters with their constraints, type arguments, return type and flags, as long as handles
last. -/
theorem same_iff_eq (requests : List Request)
    (hcount : requests.countP Request.isDeclare < UInt64.size) (m n : Method)
    (hm : m ∈ (Transcript.of requests).given) (hn : n ∈ (Transcript.of requests).given) :
    (m == n) = true ↔ m = n := by
  obtain ⟨declared, -, htraced⟩ := exists_traced requests hcount
  refine ⟨htraced.eq_of_beq (htraced.given m hm) (htraced.given n hn), fun heq => ?_⟩
  rw [heq]
  exact Bool.and_eq_true_iff.2 ⟨beq_self_eq_true n.handle, BEq.rfl⟩

/-- A generic method is closed as it was declared, and again, after a redefinition, as it is listed.
The two compare equal, while neither compares equal to the method that is still open. -/
theorem same_iff_eq_listedAgain :
    let t : Placeholder := ⟨"T", 0, .method⟩
    let sized : Ty := .con ⟨"Demo", "Sized"⟩
    let number : Ty := .con ⟨"Demo", "Number"⟩
    let ops : Ty := .con ⟨"Demo", "Ops"⟩
    let wrap : Signature := {
      name := "Wrap", generics := [⟨t, [sized]⟩], formals := [⟨"x", .param t [sized]⟩] }
    let requests : List Request := [
      .declare ops wrap, .define { name := ⟨"Demo", "Number"⟩, interfaces := [sized] },
      .close 0 [number], .define { name := ⟨"Demo", "Number"⟩, base := some sized },
      .list ops, .close 2 [number]]
    let given := (Transcript.of requests).given
    requests.countP Request.isDeclare < UInt64.size ∧
      ∃ opened first listed again, given = [opened, first, listed, again] ∧
        (first == again) = true ∧ first = again ∧
        (opened == again) = false ∧ opened ≠ again := by
  intro t sized number ops wrap requests given
  have hcount : requests.countP Request.isDeclare < UInt64.size := by decide
  let opened := (({} : TypeSystem).declare ops wrap).1
  have hgiven : given = [opened, opened.close [number], opened, opened.close [number]] := by
    simp only [given, opened, requests, wrap, ops, number, sized, t, Transcript.of,
      List.foldl_cons, List.foldl_nil, Transcript.extend, close, violation?, argumentViolation?,
      satisfies, implements_eq_within]
    rfl
  have hopened : opened ∈ given := by simp [hgiven]
  have hclosed : opened.close [number] ∈ given := by simp [hgiven]
  have hbeq : (opened.close [number] == opened.close [number]) = true := by decide
  have hne : (opened == opened.close [number]) = false := by decide
  have heq := (same_iff_eq requests hcount _ _ hclosed hclosed).1 hbeq
  have hsame := same_iff_eq requests hcount _ _ hopened hclosed
  exact ⟨hcount, _, _, _, _, hgiven, hbeq, heq, hne,
    fun h => Bool.false_ne_true (hne.symm.trans (hsame.2 h))⟩

end TypeSystem

end LateBinding
