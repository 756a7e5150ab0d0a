import LateBinding.Proofs.Preorder

/-!
# Traversals that remember where they have been

A `Traversal` goes through a row of nodes depth first and keeps the keys that it has entered.  What
it does at a key, it decides from these (`Verdict`).  It ends in at most one way
(`Traversal.unique`).  Over finitely many keys it ends, cycles or not, and its result is the first
one along the preorder (`traversal_iff`).
-/

namespace LateBinding

variable {α : Type u} {β : Type v} {τ : Type w}

/-- What a traversal does at a key: stop with a result, pass by, or enter what is behind the key. -/
inductive Verdict (β : Type v) where
  | stop (result : β)
  | pass
  | enter

/-- A depth-first traversal of a row of nodes: the keys entered before, the nodes, the result and
the keys entered in the end.  Nodes without a key are passed by. -/
inductive Traversal (key? : τ → Option α) (behind : τ → List τ) (visit : List α → α → Verdict β) :
    List α → List τ → Option β → List α → Prop
  | done (seen : List α) : Traversal key? behind visit seen [] none seen
  | keyless {seen seen' : List α} {t : τ} {ts : List τ} {r : Option β} (hkey : key? t = none)
      (hrest : Traversal key? behind visit seen ts r seen') :
      Traversal key? behind visit seen (t :: ts) r seen'
  | stop {seen : List α} {t : τ} {ts : List τ} {a : α} {b : β} (hkey : key? t = some a)
      (hvisit : visit seen a = .stop b) :
      Traversal key? behind visit seen (t :: ts) (some b) seen
  | pass {seen seen' : List α} {t : τ} {ts : List τ} {a : α} {r : Option β}
      (hkey : key? t = some a) (hvisit : visit seen a = .pass)
      (hrest : Traversal key? behind visit seen ts r seen') :
      Traversal key? behind visit seen (t :: ts) r seen'
  | found {seen seen' : List α} {t : τ} {ts : List τ} {a : α} {b : β} (hkey : key? t = some a)
      (hvisit : visit seen a = .enter)
      (hbehind : Traversal key? behind visit (a :: seen) (behind t) (some b) seen') :
      Traversal key? behind visit seen (t :: ts) (some b) seen'
  | past {seen seen' seen'' : List α} {t : τ} {ts : List τ} {a : α} {r : Option β}
      (hkey : key? t = some a) (hvisit : visit seen a = .enter)
      (hbehind : Traversal key? behind visit (a :: seen) (behind t) none seen')
      (hrest : Traversal key? behind visit seen' ts r seen'') :
      Traversal key? behind visit seen (t :: ts) r seen''

variable {key? : τ → Option α} {behind : τ → List τ} {visit : List α → α → Verdict β}

theorem Traversal.unique {seen seen₁ seen₂ : List α} {ts : List τ} {r₁ r₂ : Option β}
    (h₁ : Traversal key? behind visit seen ts r₁ seen₁)
    (h₂ : Traversal key? behind visit seen ts r₂ seen₂) : r₁ = r₂ ∧ seen₁ = seen₂ := by
  induction h₁ generalizing r₂ seen₂ with
  | done seen =>
    cases h₂
    exact ⟨rfl, rfl⟩
  | keyless hkey _ ih =>
    cases h₂ with
    | keyless _ hrest => exact ih hrest
    | _ => simp_all
  | stop hkey hvisit =>
    cases h₂ <;> simp_all
  | pass hkey hvisit _ ih =>
    cases h₂ with
    | pass _ _ hrest => exact ih hrest
    | _ => simp_all
  | found hkey hvisit _ ih =>
    cases h₂ with
    | found hkey' hvisit' hbehind =>
      obtain rfl := Option.some.inj (hkey.symm.trans hkey')
      exact ih hbehind
    | past hkey' hvisit' hbehind _ =>
      obtain rfl := Option.some.inj (hkey.symm.trans hkey')
      cases (ih hbehind).1
    | _ => simp_all
  | past hkey hvisit _ _ ihbehind ihrest =>
    cases h₂ with
    | found hkey' hvisit' hbehind =>
      obtain rfl := Option.some.inj (hkey.symm.trans hkey')
      cases (ihbehind hbehind).1
    | past hkey' hvisit' hbehind hrest =>
      obtain rfl := Option.some.inj (hkey.symm.trans hkey')
      obtain rfl := (ihbehind hbehind).2
      exact ihrest hrest
    | _ => simp_all

/-- A traversal that enters a key goes on after what is behind the key, unless it stops there. -/
theorem Traversal.enter {seen seen₁ : List α} {t : τ} {ts : List τ} {a : α} {r r' : Option β}
    {P : List α → Prop} (hkey : key? t = some a) (hvisit : visit seen a = .enter)
    (hbehind : Traversal key? behind visit (a :: seen) (behind t) r seen₁)
    (hrest : r = none →
      ∃ seen₂, Traversal key? behind visit seen₁ ts r' seen₂ ∧ (r' = none → P seen₂)) :
    ∃ seen₂, Traversal key? behind visit seen (t :: ts) (r.or r') seen₂ ∧
      (r.or r' = none → P seen₂) := by
  cases r with
  | some b => exact ⟨seen₁, .found hkey hvisit hbehind, nofun⟩
  | none =>
    obtain ⟨seen₂, hts, hP⟩ := hrest rfl
    exact ⟨seen₂, .past hkey hvisit hbehind hts, hP⟩

/-! ## The traversal along the preorder -/

/-- At a new key `visit` stops exactly if `f` has a result for it, and it passes by a key that was
entered without one. -/
structure Judges (visit : List α → α → Verdict β) (f : α → Option β) : Prop where
  stop : ∀ {seen a b}, a ∉ seen → f a = some b → visit seen a = .stop b
  enter : ∀ {seen a}, a ∉ seen → f a = none → visit seen a = .enter
  pass : ∀ {seen a}, a ∈ seen → f a = none → visit seen a = .pass

/-- The keys entered are those that are not unvisited any more, and `f` has no result for them. -/
structure Tracks (f : α → Option β) (keys unvisited seen : List α) : Prop where
  nodup : unvisited.Nodup
  mem_iff : ∀ a ∈ keys, a ∈ unvisited ↔ a ∉ seen
  nothing : ∀ a ∈ seen, f a = none

variable [DecidableEq α] {f : α → Option β} {keys unvisited seen : List α}

theorem Tracks.enter (h : Tracks f keys unvisited seen) {a : α} (ha : f a = none) :
    Tracks f keys (unvisited.erase a) (a :: seen) where
  nodup := h.nodup.erase a
  mem_iff b hb := by rw [h.nodup.mem_erase_iff, h.mem_iff b hb, List.mem_cons, not_or]
  nothing := List.forall_mem_cons.2 ⟨ha, h.nothing⟩

theorem length_diff_lt_of_mem {a : α} (ha : a ∈ unvisited) (as : List α) :
    ((unvisited.erase a).diff as).length < unvisited.length := by
  have herase := List.length_erase_of_mem ha
  have hpos := List.length_pos_of_mem ha
  have hdiff := ((unvisited.erase a).diff_sublist as).length_le
  omega

variable {next : α → List α}

/-- The search goes on where the traversal does: on nodes whose keys are known, it comes to the
first result along the preorder, and without one it has entered what the preorder lists. -/
theorem exists_traversal (hjudges : Judges visit f)
    (hnext : ∀ t a, key? t = some a → (behind t).filterMap key? = next a)
    (hkeys : ∀ a, ∀ b ∈ next a, b ∈ keys) (ts : List τ)
    (hts : ∀ a ∈ ts.filterMap key?, a ∈ keys) (htracks : Tracks f keys unvisited seen) :
    let order := preorder next unvisited (ts.filterMap key?)
    ∃ seen', Traversal key? behind visit seen ts (order.findSome? f) seen' ∧
      (order.findSome? f = none → Tracks f keys (unvisited.diff order) seen') := by
  induction hcount : unvisited.length using Nat.strong_induction_on
    generalizing unvisited seen ts with
  | _ count ih =>
    subst hcount
    induction ts generalizing seen with
    | nil =>
      rw [List.filterMap_nil, preorder_nil]
      exact ⟨seen, .done seen, fun _ => htracks⟩
    | cons t ts ihts =>
      cases hkey : key? t with
      | none =>
        rw [List.filterMap_cons_none hkey] at hts ⊢
        obtain ⟨seen', htrav, hafter⟩ := ihts hts htracks
        exact ⟨seen', .keyless hkey htrav, hafter⟩
      | some a =>
        rw [List.filterMap_cons_some hkey] at hts ⊢
        obtain ⟨ha, hts⟩ := List.forall_mem_cons.1 hts
        by_cases hmem : a ∈ unvisited
        · have hnew : a ∉ seen := (htracks.mem_iff a ha).1 hmem
          rw [preorder_cons_of_mem hmem, preorder_append]
          dsimp only
          rw [List.findSome?_cons]
          cases hfa : f a with
          | some b => exact ⟨seen, .stop hkey (hjudges.stop hnew hfa), fun h => by cases h⟩
          | none =>
            have henter := hjudges.enter hnew hfa
            have hshorter := List.length_erase_of_mem hmem
            have hpos := List.length_pos_of_mem hmem
            obtain ⟨seen₁, hbehind, hafter₁⟩ := ih _ (by omega) (behind t)
              (by rw [hnext t a hkey]; exact hkeys a) (htracks.enter hfa) rfl
            rw [hnext t a hkey] at hbehind hafter₁
            dsimp only
            rw [List.findSome?_append, List.diff_cons, List.diff_append]
            exact Traversal.enter hkey henter hbehind fun hr =>
              ih _ (length_diff_lt_of_mem hmem _) ts hts (hafter₁ hr) rfl
        · have hold : a ∈ seen := not_not.1 fun hnew => hmem ((htracks.mem_iff a ha).2 hnew)
          rw [preorder_cons_of_notMem hmem]
          obtain ⟨seen', htrav, hafter⟩ := ihts hts htracks
          exact ⟨seen', .pass hkey (hjudges.pass hold (htracks.nothing a hold)) htrav, hafter⟩

/-- A traversal that has not been anywhere before ends, and in one way. -/
theorem traversal_iff (hjudges : Judges visit f)
    (hnext : ∀ t a, key? t = some a → (behind t).filterMap key? = next a)
    (hkeys : ∀ a, ∀ b ∈ next a, b ∈ keys) (hnodup : keys.Nodup) (ts : List τ)
    (hts : ∀ a ∈ ts.filterMap key?, a ∈ keys) (r : Option β) :
    (∃ seen, Traversal key? behind visit [] ts r seen) ↔
      r = (preorder next keys (ts.filterMap key?)).findSome? f := by
  have htracks : Tracks f keys keys [] :=
    ⟨hnodup, fun a ha => iff_of_true ha List.not_mem_nil, fun a ha => absurd ha List.not_mem_nil⟩
  obtain ⟨seen, htrav, -⟩ := exists_traversal hjudges hnext hkeys ts hts htracks
  constructor
  · rintro ⟨seen', h⟩
    exact (h.unique htrav).1
  · rintro rfl
    exact ⟨seen, htrav⟩

end LateBinding
