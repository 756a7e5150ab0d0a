import LateBinding.Proofs.Hierarchy
import LateBinding.Proofs.Resolution.Closing
import LateBinding.Proofs.Resolution.Occurrence

/-!
# Representable types

A part of a type is what stands at one of its paths (`Ty.HasPart`).  A type is representable on the
foreign side if no placeholder and no host type is a part of it (`Ty.Representable`).  The arguments
that a method is closed over need not be: they are searched for placeholders at every depth, but for
host types only at the root (`TypeSystem.representable_close_iff`).
-/

namespace LateBinding

namespace Ty

/-! ## Parts -/

/-- The type `s` is `t` or stands inside `t`, at any depth. -/
def HasPart (t s : Ty) : Prop := ∃ path, t.at? path = some s

variable {t s a : Ty}

theorem HasPart.refl (t : Ty) : t.HasPart t := ⟨[], rfl⟩

theorem hasPart_iff : t.HasPart s ↔ s = t ∨ ∃ a ∈ t.args, a.HasPart s := by
  constructor
  · rintro ⟨path, h⟩
    cases path with
    | nil => exact .inl (Option.some.inj h).symm
    | cons i path =>
      obtain ⟨a, ha, hs⟩ := Option.bind_eq_some_iff.1 h
      exact .inr ⟨a, List.mem_of_getElem? ha, path, hs⟩
  · rintro (rfl | ⟨a, ha, path, hs⟩)
    · exact .refl s
    · obtain ⟨i, hi⟩ := List.getElem?_of_mem ha
      exact ⟨i :: path, (at?_cons hi).trans hs⟩

/-- A type without arguments has no other part. -/
theorem hasPart_iff_of_args_eq_nil (h : t.args = []) : t.HasPart s ↔ s = t := by
  rw [hasPart_iff, h]
  simp only [List.not_mem_nil, false_and, exists_false, or_false]

/-- A part of an argument is a part of the application. -/
theorem HasPart.of_arg (ha : a ∈ t.args) (hs : a.HasPart s) : t.HasPart s :=
  hasPart_iff.2 (.inr ⟨a, ha, hs⟩)

/-- Induction over types from the arguments upwards. -/
theorem args_ind {motive : Ty → Prop} (h : ∀ t, (∀ a ∈ t.args, motive a) → motive t) (t : Ty) :
    motive t := by
  induction t with
  | app n as ih => exact h _ ih
  | con n => exact h _ nofun
  | param id cs => exact h _ nofun
  | host n => exact h _ nofun

/-- A test that is passed by a type itself or else by one of its arguments is a test for a part. -/
theorem passes_iff_part {test here : Ty → Bool}
    (h : ∀ t, test t = true ↔ here t = true ∨ ∃ a ∈ t.args, test a = true) (t : Ty) :
    test t = true ↔ ∃ s, t.HasPart s ∧ here s = true := by
  induction t using args_ind with
  | h t ih =>
    rw [h]
    constructor
    · rintro (ht | ⟨a, ha, hpass⟩)
      · exact ⟨t, .refl t, ht⟩
      · obtain ⟨s, hs, hhere⟩ := (ih a ha).1 hpass
        exact ⟨s, .of_arg ha hs, hhere⟩
    · rintro ⟨s, hs, hhere⟩
      rcases hasPart_iff.1 hs with rfl | ⟨a, ha, hs⟩
      · exact .inl hhere
      · exact .inr ⟨a, ha, (ih a ha).2 ⟨s, hs, hhere⟩⟩

theorem hasPlaceholder_iff_part : t.hasPlaceholder = true ↔
    ∃ s, t.HasPart s ∧ s.isPlaceholder = true := by
  refine passes_iff_part (fun t => ?_) t
  cases t <;> simp [hasPlaceholder, isPlaceholder, args]

theorem hasPlaceholder_eq_false_iff_part : t.hasPlaceholder = false ↔
    ∀ s, t.HasPart s → s.isPlaceholder = false := by
  rw [← Bool.not_eq_true, hasPlaceholder_iff_part]
  simp only [not_exists, not_and, Bool.not_eq_true]

theorem mentions_iff_part {p : Placeholder} : t.mentions p = true ↔
    ∃ s, t.HasPart s ∧ s.isParam p = true := by
  refine passes_iff_part (fun t => ?_) t
  cases t <;> simp [mentions, isParam, args]

/-! ## Representable types -/

/-- A type that the foreign side can represent. -/
def Representable (t : Ty) : Prop :=
  ∀ s, t.HasPart s → s.isPlaceholder = false ∧ s.isHost = false

theorem representable_iff : t.Representable ↔
    (t.isPlaceholder = false ∧ t.isHost = false) ∧ ∀ a ∈ t.args, a.Representable := by
  constructor
  · intro h
    exact ⟨h t (.refl t), fun a ha s hs => h s (.of_arg ha hs)⟩
  · rintro ⟨hroot, hargs⟩ s hs
    rcases hasPart_iff.1 hs with rfl | ⟨a, ha, hs⟩
    · exact hroot
    · exact hargs a ha s hs

theorem representable_con (n : TypeName) : (con n).Representable :=
  representable_iff.2 ⟨⟨rfl, rfl⟩, nofun⟩

theorem representable_app_iff {n : TypeName} {as : List Ty} :
    (app n as).Representable ↔ ∀ a ∈ as, a.Representable := by
  rw [representable_iff]
  exact and_iff_right ⟨rfl, rfl⟩

theorem Representable.part (h : t.Representable) (hs : t.HasPart s) : s.Representable := by
  obtain ⟨path, hs⟩ := hs
  induction path generalizing t with
  | nil =>
    cases hs
    exact h
  | cons i path ih =>
    obtain ⟨a, ha, hs⟩ := Option.bind_eq_some_iff.1 hs
    exact ih ((representable_iff.1 h).2 a (List.mem_of_getElem? ha)) hs

theorem args_eq_nil_of_isHost (h : t.isHost = true) : t.args = [] := by
  cases t with
  | host n => rfl
  | _ => cases h

end Ty

/-! ## What closing lets through -/

namespace TypeSystem

variable {ts : TypeSystem} {m c : Method} {args : List Ty}

theorem answer_close_eq_ok_iff : answer (close m args) ts = .ok c ↔
    (m.isGeneric = true ∧ ts.Admits m args) ∧ m.close args = c := by
  rw [answer_close, ← violation?_eq_none_iff]
  cases ts.violation? m args with
  | none => simp
  | some e => simp

/-- A constraint looks at the definition of an argument, not at what that is applied to. -/
theorem satisfies_congr {a b : Ty} (h : a.name? = b.name?) (constraint : Ty) :
    ts.satisfies a constraint = ts.satisfies b constraint := by
  have himplements : ts.implements a = ts.implements b := by
    funext target
    rw [implements, h, implements]
  rw [satisfies, himplements, satisfies]

/-- Admitted arguments may be exchanged for others of the same definitions that have no
placeholders. -/
theorem Admits.of_names {args' : List Ty} (h : ts.Admits m args)
    (hnames : args'.map Ty.name? = args.map Ty.name?)
    (hclosed : ∀ b ∈ args', b.hasPlaceholder = false) : ts.Admits m args' where
  length := by
    rw [← h.length, ← List.length_map Ty.name?, hnames, List.length_map]
  foreign b hb := by
    have hmem : b.name? ∈ args.map Ty.name? := hnames ▸ List.mem_map_of_mem hb
    obtain ⟨a, ha, hname⟩ := List.mem_map.1 hmem
    have hforeign := h.foreign a ha
    have hplain := h.closed a ha
    cases b with
    | host n =>
      cases a with
      | host k => cases hforeign
      | param id cs => cases hplain
      | con k => cases hname
      | app k as => cases hname
    | _ => rfl
  closed := hclosed
  satisfied := by
    rintro ⟨p, b⟩ hpb constraint hconstraint
    have hmem : (p, b.name?) ∈ m.generics.zip (args.map Ty.name?) := by
      rw [← hnames, List.zip_map_right]
      exact List.mem_map_of_mem (f := Prod.map id Ty.name?) hpb
    rw [List.zip_map_right] at hmem
    obtain ⟨⟨q, a⟩, hqa, heq⟩ := List.mem_map.1 hmem
    obtain ⟨rfl, hname⟩ := Prod.mk.inj heq
    rw [satisfies_congr hname.symm]
    exact h.satisfied (q, a) hqa constraint hconstraint

/-- What a method is closed over has no placeholder at any depth and is no host type itself.  That
makes it representable exactly if no application among the arguments has a host type inside.  Such
host types are let through: wherever a method is closed over some arguments, it is closed over all
others of the same definitions, too, as long as they have no placeholders. -/
theorem representable_close_iff (ts : TypeSystem) (m c : Method) (args : List Ty)
    (hok : answer (close m args) ts = .ok c) :
    c.typeArgs = args ∧
      (∀ a ∈ c.typeArgs, ∀ s, a.HasPart s → s.isPlaceholder = false) ∧
      (∀ a ∈ c.typeArgs, a.isHost = false) ∧
      ((∀ a ∈ c.typeArgs, a.Representable) ↔
        ∀ a ∈ args, ∀ inner ∈ a.args, ∀ s, inner.HasPart s → s.isHost = false) ∧
      ∀ args', args'.map Ty.name? = args.map Ty.name? →
        (∀ b ∈ args', b.hasPlaceholder = false) →
        answer (close m args') ts = .ok (m.close args') := by
  obtain ⟨⟨hgeneric, hadmits⟩, rfl⟩ := answer_close_eq_ok_iff.1 hok
  have hplain : ∀ a ∈ args, ∀ s, a.HasPart s → s.isPlaceholder = false := fun a ha =>
    Ty.hasPlaceholder_eq_false_iff_part.1 (hadmits.closed a ha)
  refine ⟨rfl, hplain, hadmits.foreign, ⟨fun h a ha inner hinner s hs => ?_, fun h a ha s hs => ?_⟩,
    fun args' hnames hclosed => ?_⟩
  · exact (h a ha s (.of_arg hinner hs)).2
  · refine ⟨hplain a ha s hs, ?_⟩
    rcases Ty.hasPart_iff.1 hs with rfl | ⟨inner, hinner, hs⟩
    · exact hadmits.foreign s ha
    · exact h a ha inner hinner s hs
  · exact answer_close_eq_ok_iff.2 ⟨⟨hgeneric, hadmits.of_names hnames hclosed⟩, rfl⟩

/-- A method with a constraint is closed over boxes: over a box of numbers, which is representable,
and so over a box with a host type inside. -/
theorem representable_close_iff_box :
    let number : Ty := .con ⟨"Demo", "Number"⟩
    let sized : Ty := .con ⟨"Demo", "Sized"⟩
    let box (ty : Ty) : Ty := .app ⟨"Demo", "Box"⟩ [ty]
    let ts : TypeSystem := ({} : TypeSystem).define { name := ⟨"Demo", "Box"⟩, interfaces := [sized] }
    let wrap : Method := { name := "Wrap", generics := [⟨⟨"T", 0, .method⟩, [sized]⟩] }
    answer (close wrap [box number]) ts = .ok (wrap.close [box number]) ∧
      (box number).Representable ∧
      answer (close wrap [box (.host "bool")]) ts = .ok (wrap.close [box (.host "bool")]) := by
  intro number sized box ts wrap
  have hsized : ts.satisfies (box number) sized = true := by
    simp only [ts, box, sized, number, satisfies, implements_eq_within]
    rfl
  have hadmits : ts.Admits wrap [box number] := {
    length := rfl
    foreign := by decide
    closed := by decide
    satisfied := by
      intro pa hpa c hc
      cases List.mem_singleton.1 hpa
      cases List.mem_singleton.1 hc
      exact hsized }
  have hok : answer (close wrap [box number]) ts = .ok (wrap.close [box number]) :=
    answer_close_eq_ok_iff.2 ⟨⟨rfl, hadmits⟩, rfl⟩
  have hinner : ∀ a ∈ [box number], ∀ inner ∈ a.args, ∀ s, inner.HasPart s → s.isHost = false := by
    intro a ha inner hinner s hs
    cases List.mem_singleton.1 ha
    cases List.mem_singleton.1 hinner
    obtain rfl := (Ty.hasPart_iff_of_args_eq_nil rfl).1 hs
    rfl
  obtain ⟨-, -, -, hrepresentable, hothers⟩ := representable_close_iff ts wrap _ _ hok
  exact ⟨hok, hrepresentable.2 hinner _ List.mem_cons_self,
    hothers [box (.host "bool")] rfl (by decide)⟩

/-- A host type inside a box passes for a representable argument. -/
theorem not_representable_close_nested :
    let listed : Ty := .list (.host "bool")
    let identity : Method := { name := "Identity", generics := [⟨⟨"T", 0, .method⟩, []⟩] }
    ∃ c, answer (close identity [listed]) {} = .ok c ∧
      listed ∈ c.typeArgs ∧ listed.HasPart (.host "bool") ∧ ¬ ∀ a ∈ c.typeArgs, a.Representable := by
  intro listed identity
  have hpart : listed.HasPart (.host "bool") := ⟨[0], rfl⟩
  refine ⟨identity.close [listed], rfl, List.mem_cons_self, hpart, fun h => ?_⟩
  exact Bool.false_ne_true (h listed List.mem_cons_self _ hpart).2.symm

end TypeSystem

end LateBinding
