import LateBinding.TypeSystem.Hierarchy
import LateBinding.Proofs.OrderedMap
import LateBinding.Proofs.Preorder

/-!
# Parents by type and by name

The parents of a type are its interfaces and then its base type; the hierarchy of definitions knows
them by name.  Whatever is reachable from a definition is among the names that the lineage searches,
so that the lineage lists exactly what is reachable (`TypeSystem.mem_lineage_iff`).
-/

namespace LateBinding

theorem Ty.name?_congr {t u : Ty} (h : t == u) : t.name? = u.name? := by
  change same t u = true at h
  cases t <;> cases u <;> simp_all [same, name?]

namespace TypeSystem

variable {ts : TypeSystem}

/-- The direct parents of a type: its interfaces in order, then its base type. -/
def parents (ts : TypeSystem) (ty : Ty) : List Ty := ts.interfaces ty ++ (ts.base? ty).toList

theorem filterMap_parents {ty : Ty} {n : TypeName} (h : ty.name? = some n) :
    (ts.parents ty).filterMap Ty.name? = ts.parentNames n := by
  have hentry : ts.entry? ty = ts.types.find? n := by
    unfold entry?
    rw [h]
    rfl
  rw [parents, interfaces, base?, parentNames, hentry]
  cases ts.types.find? n <;> rfl

theorem mem_parentNames_iff {ty : Ty} {n c : TypeName} (hn : ty.name? = some n) :
    c ∈ ts.parentNames n ↔ ∃ t ∈ ts.parents ty, t.name? = some c := by
  rw [← filterMap_parents hn, List.mem_filterMap]

/-- What holds of every entry and the names of its parents holds along the hierarchy. -/
theorem forall_mem_parentNames {P : TypeName → TypeName → Prop}
    (h : ∀ e ∈ ts.types.entries, ∀ b ∈ e.2.definition.parents.filterMap Ty.name?, P e.1 b)
    (a : TypeName) : ∀ b ∈ ts.parentNames a, P a b := by
  intro b hb
  unfold parentNames at hb
  cases hfind : ts.types.find? a with
  | none =>
    rw [hfind] at hb
    cases hb
  | some e =>
    rw [hfind] at hb
    obtain ⟨⟨k, _⟩, hk, hka, rfl⟩ := OrderedMap.exists_mem_of_find? hfind
    obtain rfl := eq_of_beq hka
    exact h _ hk b hb

theorem mem_namesFrom_self (ts : TypeSystem) (n : TypeName) : n ∈ ts.namesFrom n :=
  List.mem_eraseDups.2 List.mem_cons_self

theorem mem_namesFrom_of_mem_parentNames {a b : TypeName} (n : TypeName)
    (h : b ∈ ts.parentNames a) : b ∈ ts.namesFrom n := by
  refine forall_mem_parentNames (P := fun _ b => b ∈ ts.namesFrom n) (fun e he b hb => ?_) a b h
  refine List.mem_eraseDups.2 (List.mem_cons_of_mem n (List.mem_flatMap.2 ⟨e, he, ?_⟩))
  exact List.mem_cons_of_mem e.1 hb

theorem mem_namesFrom_of_reaches {n b : TypeName} (h : Reaches ts.parentNames n b) :
    b ∈ ts.namesFrom n := by
  rcases Relation.ReflTransGen.cases_tail h with rfl | ⟨a, -, hab⟩
  · exact mem_namesFrom_self ts _
  · exact mem_namesFrom_of_mem_parentNames n hab

theorem mem_lineage_iff {n k : TypeName} : k ∈ ts.lineage n ↔ Reaches ts.parentNames n k := by
  constructor
  · intro h
    obtain ⟨a, ha, hak⟩ := reaches_of_mem_preorder h
    obtain rfl := List.mem_singleton.1 ha
    exact hak
  · intro h
    exact mem_preorder_of_reaches (List.mem_singleton_self n) h fun _ => mem_namesFrom_of_reaches

theorem implements_iff_mem_lineage {ty : Ty} {n k : TypeName} (hn : ty.name? = some n) :
    ts.implements ty k ↔ k ∈ ts.lineage n := by
  rw [implements, hn, Option.any_some, List.contains_iff_mem]

theorem acc_parentNames {n : TypeName} (h : AcyclicFrom ts.parentNames n) :
    Acc (fun c b => c ∈ ts.parentNames b) n :=
  acc_of_acyclicFrom h fun _ => mem_namesFrom_of_reaches

/-! ## Evaluation

On closed terms the orders are evaluated node by node. -/

theorem lineage_eq_within (ts : TypeSystem) (n : TypeName) :
    ts.lineage n = preorderWithin ts.parentNames (ts.namesFrom n).length (ts.namesFrom n) [n] :=
  preorder_eq_within (Nat.le_refl _) [n]

theorem baseChain_eq_within (ts : TypeSystem) (n : TypeName) :
    ts.baseChain n = preorderWithin ts.baseName (ts.namesFrom n).length (ts.namesFrom n) [n] :=
  preorder_eq_within (Nat.le_refl _) [n]

theorem implements_eq_within (ts : TypeSystem) (ty : Ty) :
    ts.implements ty = fun target => ty.name?.any fun n =>
      (preorderWithin ts.parentNames (ts.namesFrom n).length (ts.namesFrom n) [n]).contains
        target := by
  funext target
  simp only [implements, lineage_eq_within]

end TypeSystem

end LateBinding
