import LateBinding.Proofs.Resolution.Representable

/-!
# Signatures of closed methods

What substitution makes of a type is told path by path: the placeholders of a method that have an
argument give way to it, and everything else stays (`Ty.Replaced`).  For a declared method the
placeholders with an argument are its generic parameters, numbered through all clauses of its
signature, so that a closed method mentions none of them any more
(`TypeSystem.close_declared`).
-/

namespace LateBinding

namespace Ty

variable {args : List Ty} {t s u : Ty} {path : List ℕ}

/-- A placeholder without an argument among `args`: it belongs to a type, or there are not enough
arguments. -/
def Unbound (args : List Ty) (id : Placeholder) : Prop :=
  id.owner = .type ∨ args.length ≤ id.position

/-- What comes in place of a type, looked at from the outside, when arguments are put in. -/
inductive Stands (args : List Ty) : Ty → Ty → Prop
  | con (n : TypeName) : Stands args (.con n) (.con n)
  | host (n : String) : Stands args (.host n) (.host n)
  | app (n : TypeName) {as bs : List Ty} (h : as.length = bs.length) :
    Stands args (.app n as) (.app n bs)
  | bound {id : Placeholder} {s : Ty} (cs : List Ty) (howner : id.owner = .method)
    (hs : args[id.position]? = some s) : Stands args (.param id cs) s
  | unbound {id : Placeholder} (cs : List Ty) (h : Unbound args id) :
    Stands args (.param id cs) (.param id cs)

/-- The type `u` has at every path of `t` what comes in place of the part of `t` there. -/
def Replaced (args : List Ty) (t u : Ty) : Prop :=
  ∀ path s, t.at? path = some s → ∃ s', u.at? path = some s' ∧ Stands args s s'

/-! ## Substitution by paths -/

theorem subst_of_unbound {id : Placeholder} (h : Unbound args id) (cs : List Ty) :
    (param id cs).subst args = param id cs := by
  rw [subst]
  cases howner : id.owner with
  | type => rfl
  | method =>
    have hlength : args.length ≤ id.position := h.resolve_left (by simp [howner])
    simp only [List.getElem?_eq_none hlength, Option.getD_none]

theorem stands_subst (t : Ty) : Stands args t (t.subst args) := by
  cases t with
  | con n => exact .con n
  | host n => exact .host n
  | app n as =>
    rw [subst, substAll_eq_map]
    exact .app n (List.length_map _).symm
  | param id cs =>
    by_cases h : Unbound args id
    · rw [subst_of_unbound h]
      exact .unbound cs h
    · have howner : id.owner = .method := by
        cases howner : id.owner with
        | type => exact absurd (.inl howner) h
        | method => rfl
      have hlength : id.position < args.length := not_le.1 fun hle => h (.inr hle)
      have hs : args[id.position]? = some args[id.position] := List.getElem?_eq_getElem hlength
      rw [subst_param howner hs]
      exact .bound cs howner hs

theorem args_subst {a : Ty} {i : ℕ} (ha : t.args[i]? = some a) :
    (t.subst args).args[i]? = some (a.subst args) := by
  cases t with
  | app n as =>
    change as[i]? = some a at ha
    show (substAll args as)[i]? = _
    rw [substAll_eq_map, List.getElem?_map, ha]
    rfl
  | _ => cases ha

/-- A path of a type stays a path, and leads to the part with the arguments put in. -/
theorem at?_subst (h : t.at? path = some s) : (t.subst args).at? path = some (s.subst args) := by
  induction path generalizing t with
  | nil =>
    cases h
    rfl
  | cons i path ih =>
    obtain ⟨a, ha, hs⟩ := Option.bind_eq_some_iff.1 h
    rw [at?_cons (args_subst ha)]
    exact ih hs

theorem replaced_subst (t : Ty) : Replaced args t (t.subst args) :=
  fun _ s h => ⟨s.subst args, at?_subst h, stands_subst s⟩

theorem Replaced.arg {n : TypeName} {as bs : List Ty} (h : Replaced args (.app n as) (.app n bs))
    {i : ℕ} {a b : Ty} (ha : as[i]? = some a) (hb : bs[i]? = some b) : Replaced args a b := by
  intro path s hs
  obtain ⟨s', hs', hstands⟩ := h (i :: path) s ((at?_cons (t := .app n as) ha).trans hs)
  rw [at?_cons (t := .app n bs) hb] at hs'
  exact ⟨s', hs', hstands⟩

/-- Paths leave no choice. -/
theorem Replaced.eq_subst (h : Replaced args t u) : u = t.subst args := by
  obtain ⟨s', hs', hstands⟩ := h [] t rfl
  obtain rfl := Option.some.inj hs'
  induction t generalizing u with
  | con n =>
    cases hstands
    rfl
  | host n =>
    cases hstands
    rfl
  | param id cs =>
    cases hstands with
    | bound _ howner hs => rw [subst_param howner hs]
    | unbound _ hunbound => rw [subst_of_unbound hunbound]
  | app n as ih =>
    cases hstands with
    | app _ hlength =>
      rename_i bs
      rw [subst, substAll_eq_map]
      congr 1
      refine List.ext_getElem (hlength.symm.trans (List.length_map _).symm) fun i hi hi' => ?_
      rw [List.length_map] at hi'
      rw [List.getElem_map]
      have harg := h.arg (List.getElem?_eq_getElem hi') (List.getElem?_eq_getElem hi)
      obtain ⟨b, hb, hbstands⟩ := harg [] as[i] rfl
      obtain rfl := Option.some.inj hb
      exact ih as[i] (List.getElem_mem hi') harg rfl hbstands

theorem replaced_iff : Replaced args t u ↔ t.subst args = u := by
  constructor
  · exact fun h => h.eq_subst.symm
  · rintro rfl
    exact replaced_subst t

/-! ## What is left of the placeholders -/

/-- The placeholders left are the unbound ones, unless the arguments bring some of their own. -/
theorem hasPart_param_subst_iff (hargs : ∀ a ∈ args, a.hasPlaceholder = false) {id : Placeholder}
    {cs : List Ty} :
    (t.subst args).HasPart (.param id cs) ↔ t.HasPart (.param id cs) ∧ Unbound args id := by
  induction t with
  | con n =>
    have hnot : ¬ (con n).HasPart (.param id cs) := by
      rw [hasPart_iff_of_args_eq_nil rfl]
      rintro ⟨⟩
    exact ⟨fun h => absurd h hnot, fun h => absurd h.1 hnot⟩
  | host n =>
    have hnot : ¬ (host n).HasPart (.param id cs) := by
      rw [hasPart_iff_of_args_eq_nil rfl]
      rintro ⟨⟩
    exact ⟨fun h => absurd h hnot, fun h => absurd h.1 hnot⟩
  | param q ds =>
    rw [hasPart_iff_of_args_eq_nil (t := .param q ds) rfl]
    have hstands : Stands args (.param q ds) _ := stands_subst (.param q ds)
    generalize (param q ds).subst args = u at hstands ⊢
    cases hstands with
    | bound _ howner hs =>
      have hplain := hasPlaceholder_eq_false_iff_part.1 (hargs u (List.mem_of_getElem? hs))
      refine ⟨fun h => absurd (hplain _ h) Bool.noConfusion, ?_⟩
      rintro ⟨⟨⟩, htype | hlength⟩
      · rw [howner] at htype
        cases htype
      · rw [List.getElem?_eq_none hlength] at hs
        cases hs
    | unbound _ h =>
      rw [hasPart_iff_of_args_eq_nil rfl]
      refine ⟨?_, And.left⟩
      rintro ⟨⟩
      exact ⟨rfl, h⟩
  | app n as ih =>
    have hroot : ∀ bs, param id cs ≠ app n bs := by
      rintro bs ⟨⟩
    have hsubst : ((app n as).subst args).HasPart (.param id cs) ↔
        ∃ a ∈ as, (a.subst args).HasPart (.param id cs) := by
      rw [subst, substAll_eq_map, hasPart_iff, or_iff_right (hroot _)]
      show (∃ a ∈ as.map (subst args), a.HasPart _) ↔ _
      simp only [List.mem_map, exists_exists_and_eq_and]
    rw [hsubst, hasPart_iff, or_iff_right (hroot _)]
    constructor
    · rintro ⟨a, ha, hs⟩
      obtain ⟨hs, hunbound⟩ := (ih a ha).1 hs
      exact ⟨⟨a, ha, hs⟩, hunbound⟩
    · rintro ⟨⟨a, ha, hs⟩, hunbound⟩
      exact ⟨a, ha, (ih a ha).2 ⟨hs, hunbound⟩⟩

/-- Where no placeholder has an argument, substitution changes nothing. -/
theorem subst_eq_self (h : ∀ id cs, t.HasPart (.param id cs) → Unbound args id) :
    t.subst args = t := by
  induction t with
  | con n => rfl
  | host n => rfl
  | param id cs => exact subst_of_unbound (h id cs (.refl _)) cs
  | app n as ih =>
    rw [subst, substAll_eq_map]
    congr 1
    refine (List.map_congr_left fun a ha => ?_).trans (List.map_id as)
    exact ih a ha fun id cs hs => h id cs (.of_arg ha hs)

end Ty

/-! ## Closed methods -/

namespace Method

variable {m : Method} {args : List Ty}

/-- The types in a signature: those of the formals and then the return type. -/
def signatureTypes (m : Method) : List Ty := m.formalTypes ++ [m.returns]

theorem signatureTypes_close (m : Method) (args : List Ty) :
    (m.close args).signatureTypes = m.signatureTypes.map (Ty.subst args) := by
  rw [signatureTypes, formalTypes_close, signatureTypes, List.map_append]
  rfl

/-- The signature of a closed method has the types that paths ask for, and no others. -/
theorem forall₂_replaced_iff {types : List Ty} :
    List.Forall₂ (Ty.Replaced args) m.signatureTypes types ↔
      types = (m.close args).signatureTypes := by
  have hrel : Ty.Replaced args = fun t u => t.subst args = u := by
    funext t u
    exact propext Ty.replaced_iff
  rw [hrel, signatureTypes_close, ← List.forall₂_map_left_iff (f := Ty.subst args),
    List.forall₂_eq_eq_eq]
  exact eq_comm

end Method

namespace TypeSystem

/-- Closing a method that was declared with any clauses.  Its generic parameters are the names that
the clauses declare, each a placeholder of the method whose position is its index.  In formals and
return type every placeholder of a method whose position is below their number gives way to the type
argument of that position, at every depth and all at once, and everything else is kept.  The closed
method mentions none of the generic parameters.  The placeholders left are those of the declared
method that belong to a type or have a position beyond, so that the same substitution changes
nothing a second time.  Apart from formals, return type and type arguments it is the declared method,
and the formals have their names. -/
theorem close_declared (ts ts' : TypeSystem) (owner : Ty) (name : String)
    (clauses : List Signature.Clause) (typeArgs : List Ty) (c : Method) :
    let m := (ts.declare owner (.ofClauses name clauses)).1
    answer (close m typeArgs) ts' = .ok c →
      (m.generics.map (·.id) = Signature.placeholders (Signature.genericNames clauses) ∧
        typeArgs.length = m.generics.length) ∧
      (∀ types, List.Forall₂ (Ty.Replaced typeArgs) m.signatureTypes types ↔
        types = c.signatureTypes) ∧
      (∀ p ∈ m.generics, ∀ t ∈ c.signatureTypes, t.mentions p.id = false) ∧
      (∀ id cs, (∃ t ∈ c.signatureTypes, t.HasPart (.param id cs)) ↔
        (∃ t ∈ m.signatureTypes, t.HasPart (.param id cs)) ∧
          (id.owner = .type ∨ m.generics.length ≤ id.position)) ∧
      c.signatureTypes.map (Ty.subst typeArgs) = c.signatureTypes ∧
      c = { m with formals := c.formals, returns := c.returns, typeArgs } ∧
      c.formals.map (·.name) = m.formals.map (·.name) := by
  intro m hok
  obtain ⟨⟨-, hadmits⟩, rfl⟩ := answer_close_eq_ok_iff.1 hok
  have hlength : typeArgs.length = m.generics.length := hadmits.length
  have hnumbered : Numbered m.generics := Signature.numbered_ofClauses name clauses
  have hleft : ∀ (t : Ty) id cs, (t.subst typeArgs).HasPart (.param id cs) ↔
      t.HasPart (.param id cs) ∧ Ty.Unbound typeArgs id :=
    fun t id cs => Ty.hasPart_param_subst_iff hadmits.closed
  refine ⟨⟨Signature.ids_ofClauses name clauses, hlength⟩, fun types => Method.forall₂_replaced_iff,
    fun p hp t ht => ?_, fun id cs => ?_, ?_, rfl, ?_⟩
  · rw [Method.signatureTypes_close] at ht
    obtain ⟨t, -, rfl⟩ := List.mem_map.1 ht
    rw [← Bool.not_eq_true, Ty.mentions_iff_part]
    rintro ⟨s, hs, hp'⟩
    obtain ⟨cs, rfl⟩ := Ty.isParam_iff.1 hp'
    obtain ⟨i, hi⟩ := List.getElem?_of_mem hp
    obtain ⟨hposition, howner⟩ := hnumbered i p hi
    have hbound : i < m.generics.length := (List.getElem?_eq_some_iff.1 hi).1
    rcases ((hleft t p.id cs).1 hs).2 with htype | hbeyond
    · rw [howner] at htype
      cases htype
    · omega
  · rw [Method.signatureTypes_close, ← hlength]
    simp only [List.mem_map, exists_exists_and_eq_and, hleft]
    constructor
    · rintro ⟨t, ht, hs, hunbound⟩
      exact ⟨⟨t, ht, hs⟩, hunbound⟩
    · rintro ⟨⟨t, ht, hs⟩, hunbound⟩
      exact ⟨t, ht, hs, hunbound⟩
  · rw [Method.signatureTypes_close, List.map_map]
    refine List.map_congr_left fun t _ => ?_
    exact Ty.subst_eq_self fun id cs hs => ((hleft t id cs).1 hs).2
  · rw [Method.close, List.map_map]
    rfl

/-- Two clauses declare generic parameters, both called `T`, and the arguments come the other way
round.  A placeholder of the declaring type stays, and so does one for which there is no third
argument. -/
theorem close_declared_sameName :
    let t (i : ℕ) : Ty := .param ⟨"T", i, .method⟩ []
    let element : Ty := .param ⟨"E", 0, .type⟩ []
    let pair (a b : Ty) : Ty := .app ⟨"Demo", "Pair"⟩ [a, b]
    let number : Ty := .con ⟨"Demo", "Number"⟩
    let text : Ty := .con ⟨"Demo", "Text"⟩
    let clauses : List Signature.Clause := [
      .generic ["T"], .formal "x" (pair (t 1) (pair (t 0) element)), .generic ["T"],
      .returns (pair (t 2) (t 0))]
    let m := (({} : TypeSystem).declare (.con ⟨"Demo", "Ops"⟩) (.ofClauses "Swap" clauses)).1
    ∃ c, answer (close m [number, text]) {} = .ok c ∧
      c.signatureTypes = [pair text (pair number element), pair (t 2) number] ∧
      m.generics.map (·.id) = [⟨"T", 0, .method⟩, ⟨"T", 1, .method⟩] ∧
      (∃ u ∈ c.signatureTypes, u.HasPart (t 2)) ∧
      c.signatureTypes.map (Ty.subst [number, text]) = c.signatureTypes := by
  intro t element pair number text clauses m
  have hok : answer (close m [number, text]) {} = .ok (m.close [number, text]) := rfl
  obtain ⟨⟨hids, -⟩, -, -, hleft, hagain, -, -⟩ :=
    close_declared {} {} (.con ⟨"Demo", "Ops"⟩) "Swap" clauses [number, text] _ hok
  refine ⟨m.close [number, text], hok, rfl, hids, ?_, hagain⟩
  have hreturns : pair (t 2) (t 0) ∈ m.signatureTypes :=
    List.mem_append_right _ List.mem_cons_self
  exact (hleft ⟨"T", 2, .method⟩ []).2 ⟨⟨_, hreturns, [0], rfl⟩, .inr (Nat.le_refl 2)⟩

end TypeSystem

end LateBinding
