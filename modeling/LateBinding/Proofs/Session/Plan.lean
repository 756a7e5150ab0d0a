import LateBinding.Proofs.Session.GenericExtension

/-!
# Settings and strategies of a plan

A `SessionPlan` is made clause by clause.  The session that is built from it has the settings of the
last settings clause, but the first strategy clause settles which default strategies it has
(`SessionPlan.strategies_build`).  So its strategies follow its settings exactly if these two agree
about extensions (`SessionPlan.strategies_follow_settings_iff`).
-/

namespace LateBinding

theorem Strategy.length_defaults (settings : Settings) :
    (defaults settings).length = if settings.extensionsEnabled then 2 else 1 := by
  unfold defaults
  split <;> rfl

/-- All that the default strategies depend on is whether extensions are enabled. -/
theorem Strategy.defaults_eq_iff {settings settings' : Settings} :
    defaults settings = defaults settings' ↔
      settings.extensionsEnabled = settings'.extensionsEnabled := by
  constructor
  · intro h
    have hlength := congrArg List.length h
    rw [length_defaults, length_defaults] at hlength
    generalize settings.extensionsEnabled = enabled at hlength ⊢
    generalize settings'.extensionsEnabled = enabled' at hlength ⊢
    cases enabled <;> cases enabled' <;> first | rfl | cases hlength
  · intro h
    rw [defaults, defaults, h]

namespace SessionPlan

/-- One clause of a plan. -/
inductive Clause where
  | settings (s : Settings)
  | strategy (s : Strategy)

/-- The strategy that a clause appends. -/
def Clause.strategy? : Clause → Option Strategy
  | settings _ => none
  | strategy s => some s

/-- A plan with one more clause. -/
def extend (p : SessionPlan) : Clause → SessionPlan
  | .settings s => p.withSettings s
  | .strategy s => p.withStrategy s

/-- The plan that is made of clauses, one after the other. -/
def ofClauses (clauses : List Clause) : SessionPlan := clauses.foldl extend {}

/-! ## What the clauses say -/

/-- The settings after all clauses. -/
def lastSettings (current : Settings) : List Clause → Settings
  | [] => current
  | .settings s :: rest => lastSettings s rest
  | .strategy _ :: rest => lastSettings current rest

/-- The settings at the first strategy clause, or after all clauses if no clause is about a
strategy. -/
def settledSettings (current : Settings) : List Clause → Settings
  | [] => current
  | .settings s :: rest => settledSettings s rest
  | .strategy _ :: _ => current

/-- The strategies that the clauses append, in order. -/
def appended (clauses : List Clause) : List Strategy := clauses.filterMap Clause.strategy?

theorem settings_foldl (p : SessionPlan) (clauses : List Clause) :
    (clauses.foldl extend p).settings = lastSettings p.settings clauses := by
  induction clauses generalizing p with
  | nil => rfl
  | cons c cs ih =>
    rw [List.foldl_cons, ih]
    cases c with
    | settings s => rfl
    | strategy s => rfl

/-- Once there is a list of strategies, it only grows. -/
theorem strategies_foldl_of_some {p : SessionPlan} {before : List Strategy}
    (hp : p.strategies = some before) (clauses : List Clause) :
    (clauses.foldl extend p).strategies = some (before ++ appended clauses) := by
  induction clauses generalizing p before with
  | nil => rw [List.foldl_nil, hp, appended, List.filterMap_nil, List.append_nil]
  | cons c cs ih =>
    rw [List.foldl_cons]
    cases c with
    | settings s => exact ih hp
    | strategy s =>
      have hextend : (p.extend (.strategy s)).strategies = some (before ++ [s]) := by
        rw [extend, withStrategy, hp]
        rfl
      rw [ih hextend, List.append_assoc]
      rfl

/-- Without a list so far, the first strategy clause makes one of the default strategies. -/
theorem strategies_foldl_of_none {p : SessionPlan} (hp : p.strategies = none)
    (clauses : List Clause) :
    (clauses.foldl extend p).strategies.getD
        (Strategy.defaults (clauses.foldl extend p).settings) =
      Strategy.defaults (settledSettings p.settings clauses) ++ appended clauses := by
  induction clauses generalizing p with
  | nil =>
    rw [List.foldl_nil, hp]
    exact (List.append_nil _).symm
  | cons c cs ih =>
    rw [List.foldl_cons]
    cases c with
    | settings s => exact ih hp
    | strategy s =>
      -- From here on there is a list, and later settings leave it as it is.
      have hextend : (p.extend (.strategy s)).strategies =
          some (Strategy.defaults p.settings ++ [s]) := by
        rw [extend, withStrategy, hp]
        rfl
      rw [strategies_foldl_of_some hextend, Option.getD_some, List.append_assoc]
      rfl

/-! ## The built session -/

theorem settings_build (p : SessionPlan) (ts : TypeSystem) :
    (p.build ts).catalog.settings = p.settings := by
  obtain ⟨index, hindex⟩ := Session.exists_build_loadAll p.settings ts []
  exact congrArg (·.catalog.settings) hindex

theorem strategies_build (clauses : List Clause) (ts : TypeSystem) :
    ((ofClauses clauses).build ts).strategies =
      Strategy.defaults (settledSettings {} clauses) ++ appended clauses :=
  strategies_foldl_of_none rfl clauses

/-- Settings and strategies of a session, for any clauses in any order.  The settings are the last
ones.  The strategies are the default ones for the settings at the first strategy clause, then the
appended ones in order.  They are the default ones for the session's own settings, then the appended
ones, exactly if these settings and those at the first strategy clause agree about extensions. -/
theorem strategies_follow_settings_iff (clauses : List Clause) (ts : TypeSystem) :
    let session := (ofClauses clauses).build ts
    session.catalog.settings = lastSettings {} clauses ∧
      session.strategies =
        Strategy.defaults (settledSettings {} clauses) ++ appended clauses ∧
      (session.strategies = Strategy.defaults session.catalog.settings ++ appended clauses ↔
        (settledSettings {} clauses).extensionsEnabled =
          session.catalog.settings.extensionsEnabled) := by
  intro session
  have hsettings : session.catalog.settings = lastSettings {} clauses :=
    (settings_build _ ts).trans (settings_foldl {} clauses)
  have hstrategies : session.strategies = _ := strategies_build clauses ts
  refine ⟨hsettings, hstrategies, ?_⟩
  rw [hstrategies, List.append_left_inj, Strategy.defaults_eq_iff]

/-- A strategy that is appended before extensions are disabled leaves the session with the extension
strategy. -/
theorem strategies_not_follow_settings :
    let fixed := Strategy.forMember "fixed" "Answer" (.ok { name := "Answer", methods := [] })
    let clauses := [.strategy fixed, .settings { extensionsEnabled := false }]
    let session := (ofClauses clauses).build {}
    session.catalog.settings.extensionsEnabled = false ∧
      session.strategies.map (·.name) = ["declared", "extension", "fixed"] ∧
      session.strategies ≠ Strategy.defaults session.catalog.settings ++ appended clauses := by
  intro fixed clauses session
  refine ⟨rfl, rfl, fun h => ?_⟩
  have hlength : 3 = 2 := congrArg List.length h
  cases hlength

end SessionPlan

end LateBinding
