import MtShards.Models.Context.Routing

/-!
# The database router

`tenants.routers.TenantDatabaseRouter`: which alias a query of a model is sent to.
Two refusals guard the answer. `_guard_public` looks at the schema of the connection
the query would reach, the strict guard at whether any alias is bound.
`app_in_list` belongs to django-tenants and is a parameter of the settings.
-/

namespace MtShards.Context

/-- An entry of the application registry. -/
structure AppConfig where
  name : String
  label : String
  /-- The dotted path of the configuration class. -/
  classPath : String
  deriving DecidableEq, Repr

/-- What the router reads of `model._meta`. -/
structure Model where
  appLabel : String
  objectName : String
  /-- `model_name`, the lower-cased object name. -/
  modelName : String
  deriving DecidableEq, Repr

/-- `model._meta.label`. -/
def Model.label (m : Model) : String := m.appLabel ++ "." ++ m.objectName

/-- `model._meta.label_lower`. -/
def Model.labelLower (m : Model) : String := m.appLabel ++ "." ++ m.modelName

/-- `settings.PUBLIC_MODEL_GUARD`. -/
inductive GuardMode
  | raise
  | warn
  | off
  deriving DecidableEq, Repr

/-- The settings the router reads, and the application registry. -/
structure RouterSettings where
  sharedApps : List String
  tenantApps : List String
  /-- `TenantSyncRouter.app_in_list`. -/
  appInList : String → List String → Bool
  appConfigs : List AppConfig
  /-- `TENANT_STRICT_ROUTE_APPS`. -/
  strictRouteApps : List String
  publicModelGuard : GuardMode
  publicModelAllowlist : List String

/-- What the router raises. -/
inductive RouterError
  | improperlyConfigured (entry : String)
  | publicSchemaModelDenied (model : Model) (target : Alias)
  | noRoutingContext (model : Model)
  deriving DecidableEq, Repr

/-- The text of the exception. -/
def RouterError.message : RouterError → String
  | .improperlyConfigured entry =>
    "TENANT_STRICT_ROUTE_APPS entry '" ++ entry ++ "' names no installed app. Match it " ++
      "by INSTALLED_APPS name, AppConfig label, or dotted AppConfig class path."
  | .publicSchemaModelDenied m a =>
    m.label ++ ": tenant-model query on the PUBLIC schema (alias '" ++ a ++ "'). " ++
      "Its table is either absent there or deliberately EMPTY, so the query cannot " ++
      "return a meaningful answer. If this model legitimately holds rows in public " ++
      "(the operator's identity and what its save path touches), add '" ++ m.labelLower ++
      "' to settings_multitenant._PUBLIC_MODEL_ALLOWLIST; otherwise " ++
      "this is a business query that escaped onto the management host."
  | .noRoutingContext m =>
    m.label ++ ": tenant-model query with NO routing context " ++
      "(current_db unset) — it would silently hit the DEFAULT database (wrong " ++
      "shard). Establish a context: tenant_context(tenant) / use_alias(alias), run " ++
      "the command via `manage.py tenant_command <cmd> --schema=<schema>`, or (on " ++
      "the request path) ensure TenantShardRoutingMiddleware ran."

namespace RouterSettings

variable (cfg : RouterSettings)

/-- `by_entry.get(entry)`: a later configuration overwrites an earlier one. -/
def byEntry (entry : String) : Option String :=
  (cfg.appConfigs.reverse.find? fun c =>
    c.name = entry ∨ c.label = entry ∨ c.classPath = entry).map AppConfig.label

/-- `strict_route_labels`. -/
def strictRouteLabels : Except RouterError (List String) :=
  cfg.strictRouteApps.mapM fun entry =>
    match cfg.byEntry entry with
    | none => .error (.improperlyConfigured entry)
    | some label => .ok label

/-- A shared-only app: its models always live on the default database. -/
def sharedOnly (label : String) : Bool :=
  cfg.appInList label cfg.sharedApps && !cfg.appInList label cfg.tenantApps

/-- `_guard_public`. -/
def guardPublic (m : Model) (a : Alias) (s : Routing) : Except RouterError Unit :=
  if cfg.publicModelGuard = .off then .ok ()
  else match s.schemaOf a with
    -- An alias with no connection fails at execute anyway.
    | none => .ok ()
    | some schema =>
      if schema ≠ publicSchemaName then .ok ()
      else do
        let labels ← cfg.strictRouteLabels
        if m.appLabel ∉ labels then .ok ()
        else if m.labelLower ∈ cfg.publicModelAllowlist then .ok ()
        else if cfg.publicModelGuard = .warn then .ok ()
        else .error (.publicSchemaModelDenied m a)

/-- `db_for_read`. -/
def dbForRead (m : Model) (s : Routing) : Except RouterError Alias :=
  if cfg.sharedOnly m.appLabel then .ok defaultAlias
  else do
    cfg.guardPublic m (orElse s.currentDb defaultAlias) s
    match s.currentDb with
    | none => do
      let labels ← cfg.strictRouteLabels
      if m.appLabel ∈ labels then .error (.noRoutingContext m) else .ok defaultAlias
    | some a => .ok a

/-- `db_for_write`. -/
def dbForWrite (m : Model) (s : Routing) : Except RouterError Alias := cfg.dbForRead m s

/-- A model the guards police: its app is a tenant app, whether or not it has tables in
public as well, and strictly routed, and the model is not in the allow-list. -/
structure Policed (m : Model) : Prop where
  tenantApp : cfg.appInList m.appLabel cfg.tenantApps
  strict : ∃ labels, cfg.strictRouteLabels = .ok labels ∧ m.appLabel ∈ labels
  notAllowed : m.labelLower ∉ cfg.publicModelAllowlist

variable {cfg} {m : Model} {a : Alias} {s : Routing}

/-- Under `raise` the public guard lets a policed model pass only off the public schema. -/
theorem guardPublic_ok_iff (hm : cfg.Policed m) (hg : cfg.publicModelGuard = .raise) :
    cfg.guardPublic m a s = .ok () ↔ s.schemaOf a ≠ some publicSchemaName := by
  obtain ⟨labels, hlabels, hmem⟩ := hm.strict
  unfold guardPublic
  rw [if_neg (by rw [hg]; decide)]
  cases hs : s.schemaOf a with
  | none => simp
  | some schema =>
    by_cases hpub : schema = publicSchemaName
    · simp [hpub, hlabels, hmem, hm.notAllowed, hg, Bind.bind, Except.bind]
    · simp [hpub]

/-- The router answers for a policed model exactly when an alias is bound and the
connection it looks at is off the public schema. -/
theorem dbForRead_ok_iff (hm : cfg.Policed m) (hg : cfg.publicModelGuard = .raise) :
    cfg.dbForRead m s = .ok a ↔
      s.currentDb = some a ∧ s.schemaOf (orElse (some a) defaultAlias) ≠ some publicSchemaName := by
  obtain ⟨labels, hlabels, hmem⟩ := hm.strict
  have hshared : cfg.sharedOnly m.appLabel = false := by
    simp only [sharedOnly, hm.tenantApp, Bool.not_true, Bool.and_false]
  have hguard := guardPublic_ok_iff (s := s) (a := orElse s.currentDb defaultAlias) hm hg
  unfold dbForRead
  rw [hshared, if_neg Bool.false_ne_true]
  cases hres : cfg.guardPublic m (orElse s.currentDb defaultAlias) s with
  | error e =>
    have hpub : s.schemaOf (orElse s.currentDb defaultAlias) = some publicSchemaName := by
      by_contra hne
      rw [hguard.mpr hne] at hres
      cases hres
    simp only [Bind.bind, Except.bind, reduceCtorEq, false_iff, not_and, ne_eq, not_not]
    intro hdb
    rwa [hdb] at hpub
  | ok u =>
    have hoff := hguard.mp hres
    cases hdb : s.currentDb with
    | none => simp [Bind.bind, Except.bind, hlabels, hmem]
    | some b =>
      rw [hdb] at hoff
      simp only [Bind.bind, Except.bind, Except.ok.injEq, Option.some.injEq]
      constructor
      · rintro rfl
        exact ⟨rfl, hoff⟩
      · exact fun h => h.1

end RouterSettings

end MtShards.Context
