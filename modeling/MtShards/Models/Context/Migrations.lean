import MtShards.Models.Context.Router

/-!
# The tables that migrations make

`TenantDatabaseRouter.allow_migrate` decides, one operation at a time, what a migration does on
one schema of one database. The catalog holds what came of it: the tables, the operations that
the schema records as applied, and the tables that rows were written to. A statement finds its
table along the search path of its connection, the schema first and then public.
-/

namespace MtShards.Context

/-- `TENANT_TYPES`, where there are several, and `connection.tenant.get_tenant_type()`. -/
structure TenantTypes where
  apps : String → List String
  tenantType : SchemaName → String

/-- An operation of a migration, as far as routers and tables go. -/
inductive Operation
  /-- It makes the table of a model. -/
  | create (m : Model)
  /-- It drops the table of a model. -/
  | delete (m : Model)
  /-- `RunPython` or `RunSQL`: it names no model, and writes rows of these. -/
  | data (label : String) (writes : List Model)
  deriving DecidableEq, Repr

/-- The app that the router is asked for. -/
def Operation.appLabel : Operation → String
  | create m | delete m => m.appLabel
  | data label _ => label

/-- The model that the router is asked for. -/
def Operation.modelName : Operation → Option String
  | create m | delete m => some m.modelName
  | data _ _ => none

namespace RouterSettings

variable (cfg : RouterSettings)

/-- The apps that a schema is migrated for. -/
def installedApps (types : Option TenantTypes) (schema : SchemaName) : List String :=
  match types with
  | some types =>
    if schema = publicSchemaName then types.apps publicSchemaName
    else types.apps (types.tenantType schema)
  | none => if schema = publicSchemaName then cfg.sharedApps else cfg.tenantApps

/-- `allow_migrate` over the connection of `db`, which is on `schema`. -/
def allowMigrate (types : Option TenantTypes) (db : Alias) (schema : SchemaName) (label : String)
    (modelName : Option String) : Except RouterError Bool := do
  -- Data migrations of the tenant apps do not run on public.
  let skipped ← if modelName.isNone && schema = publicSchemaName then do
      let labels ← cfg.strictRouteLabels
      pure (decide (label ∈ labels))
    else pure false
  if skipped then pure false
  else if !cfg.appInList label (cfg.installedApps types schema) then pure false
  else if schema = publicSchemaName then pure (decide (db = defaultAlias))
  else pure (decide (db ≠ defaultAlias))

/-- The schemas that have tables of an app: public of `default` for the shared apps, the schemas
of the shards for the tenant apps. -/
def Hosts (db : Alias) (schema : SchemaName) (label : String) : Prop :=
  if schema = publicSchemaName then db = defaultAlias ∧ cfg.appInList label cfg.sharedApps
  else db ≠ defaultAlias ∧ cfg.appInList label cfg.tenantApps

instance (db : Alias) (schema : SchemaName) (label : String) :
    Decidable (cfg.Hosts db schema label) := by
  unfold Hosts
  infer_instance

variable {cfg} {db : Alias} {schema : SchemaName} {label : String} {labels : List String}

/-- A schema operation is done where the schema has tables of the app. -/
theorem allowMigrate_model (name : String) :
    cfg.allowMigrate none db schema label (some name) =
      .ok (decide (cfg.Hosts db schema label)) := by
  by_cases hpub : schema = publicSchemaName
  · cases happ : cfg.appInList label cfg.sharedApps <;>
      simp [allowMigrate, installedApps, Hosts, hpub, happ, Bind.bind, Except.bind, Pure.pure,
        Except.pure]
  · cases happ : cfg.appInList label cfg.tenantApps <;>
      simp [allowMigrate, installedApps, Hosts, hpub, happ, Bind.bind, Except.bind, Pure.pure,
        Except.pure]

/-- A data operation is done there too, but on public only for an app that is not strict. -/
theorem allowMigrate_data (hl : cfg.strictRouteLabels = .ok labels) :
    cfg.allowMigrate none db schema label none =
      .ok (decide (cfg.Hosts db schema label ∧ (schema = publicSchemaName → label ∉ labels))) := by
  by_cases hpub : schema = publicSchemaName
  · by_cases hmem : label ∈ labels
    · simp [allowMigrate, hpub, hl, hmem, Bind.bind, Except.bind, Pure.pure, Except.pure]
    · cases happ : cfg.appInList label cfg.sharedApps <;>
        simp [allowMigrate, installedApps, Hosts, hpub, hl, hmem, happ, Bind.bind, Except.bind,
          Pure.pure, Except.pure]
  · cases happ : cfg.appInList label cfg.tenantApps <;>
      simp [allowMigrate, installedApps, Hosts, hpub, happ, Bind.bind, Except.bind, Pure.pure,
        Except.pure]

/-- The `public` schema is hosted on `default`. -/
theorem Hosts.of_public (h : cfg.Hosts db publicSchemaName label) : db = defaultAlias := by
  simp only [Hosts, if_true] at h
  exact h.1

/-- The schema of a tenant is hosted elsewhere. -/
theorem Hosts.of_tenant (h : cfg.Hosts db schema label) (hs : schema ≠ publicSchemaName) :
    db ≠ defaultAlias := by
  simp only [Hosts, hs, if_false] at h
  exact h.1

end RouterSettings

/-! ### The catalog of the databases -/

/-- A mark on tables, by database and schema. -/
abbrev Marks := Alias → SchemaName → Model → Bool

/-- Set a mark or take it away. -/
def Marks.put (f : Marks) (db : Alias) (schema : SchemaName) (m : Model) (b : Bool) : Marks :=
  fun db' schema' m' => if db' = db ∧ schema' = schema ∧ m' = m then b else f db' schema' m'

/-- The tables of all databases. -/
structure Catalog where
  /-- What the schema records as applied, newest operation first. -/
  recorded : Alias → SchemaName → List Operation
  tables : Marks
  /-- Rows have been written to the table. -/
  written : Marks

namespace Catalog

/-- The schema whose table a statement reaches along the search path, if there is one. -/
def reach (c : Catalog) (db : Alias) (schema : SchemaName) (m : Model) : Option SchemaName :=
  if c.tables db schema m then some schema
  else if c.tables db publicSchemaName m then some publicSchemaName
  else none

/-- A statement writes rows of a model. -/
def write (c : Catalog) (db : Alias) (schema : SchemaName) (m : Model) : Catalog :=
  match c.reach db schema m with
  | some home => { c with written := c.written.put db home m true }
  | none => c

/-- What an operation that is done does to the tables. -/
def effect (c : Catalog) (db : Alias) (schema : SchemaName) : Operation → Catalog
  | .create m =>
    { c with tables := c.tables.put db schema m true, written := c.written.put db schema m false }
  | .delete m =>
    { c with tables := c.tables.put db schema m false, written := c.written.put db schema m false }
  | .data _ writes => writes.foldl (fun c m => c.write db schema m) c

/-- A migration comes to an operation: it is recorded whether the router lets it be done or not. -/
def operate (cfg : RouterSettings) (types : Option TenantTypes) (c : Catalog) (db : Alias)
    (schema : SchemaName) (op : Operation) : Except RouterError Catalog := do
  let allowed ← cfg.allowMigrate types db schema op.appLabel op.modelName
  let c' := if allowed then c.effect db schema op else c
  pure { c' with recorded := fun db' schema' =>
    if db' = db ∧ schema' = schema then op :: c.recorded db schema else c.recorded db' schema' }

/-- The operations leave the model with a table. -/
def made (m : Model) : List Operation → Bool
  | [] => false
  | .create m' :: ops => m' = m || made m ops
  | .delete m' :: ops => m' ≠ m && made m ops
  | .data _ _ :: ops => made m ops

/-- There is a table where the schema has tables of its app and has applied what makes it, and only
there. -/
def Exact (cfg : RouterSettings) (c : Catalog) : Prop :=
  ∀ db schema m, c.tables db schema m ↔
    cfg.Hosts db schema m.appLabel ∧ made m (c.recorded db schema)

/-- No database has a table, and none has applied anything. -/
def blank : Catalog := ⟨fun _ _ => [], fun _ _ _ => false, fun _ _ _ => false⟩

/-- An empty schema is exact. -/
theorem blank_exact (cfg : RouterSettings) : blank.Exact cfg := by
  intro db schema m
  simp [blank, made]

section Steps

variable {cfg : RouterSettings} {c c' : Catalog} {db : Alias} {schema : SchemaName} {m : Model}
  {op : Operation}

/-- A write makes no table. -/
@[simp] theorem write_tables : (c.write db schema m).tables = c.tables := by
  unfold write
  split <;> rfl

/-- A write records no migration. -/
@[simp] theorem write_recorded : (c.write db schema m).recorded = c.recorded := by
  unfold write
  split <;> rfl

/-- A write leaves the tables exact. -/
theorem Exact.write (h : c.Exact cfg) : (c.write db schema m).Exact cfg := by
  intro db' schema' m'
  rw [write_tables, write_recorded]
  exact h db' schema' m'

/-- What has been written after a write: what was, and the table that it reached. -/
theorem written_write {db' : Alias} {schema' : SchemaName} {m' : Model}
    (h : (c.write db schema m).written db' schema' m') :
    c.written db' schema' m' ∨ db' = db ∧ m' = m ∧ c.reach db schema m = some schema' := by
  unfold Catalog.write at h
  cases hr : c.reach db schema m with
  | none =>
    rw [hr] at h
    exact .inl h
  | some home =>
    simp only [hr, Marks.put] at h
    split at h
    · rename_i heq
      exact .inr ⟨heq.1, heq.2.2, by rw [heq.2.1]⟩
    · exact .inl h

/-- Writes make no table. -/
@[simp] theorem foldl_write_tables (writes : List Model) :
    (writes.foldl (fun c m => c.write db schema m) c).tables = c.tables := by
  induction writes generalizing c with
  | nil => rfl
  | cons m writes ih => rw [List.foldl_cons, ih, write_tables]

/-- What an operation comes to, once the router has answered. -/
theorem operate_cases {types : Option TenantTypes}
    (hop : c.operate cfg types db schema op = .ok c') :
    ∃ allowed, cfg.allowMigrate types db schema op.appLabel op.modelName = .ok allowed ∧
      c' = { (if allowed then c.effect db schema op else c) with
        recorded := fun db' schema' => if db' = db ∧ schema' = schema then
          op :: c.recorded db schema else c.recorded db' schema' } := by
  simp only [operate, Bind.bind] at hop
  cases hallow : cfg.allowMigrate types db schema op.appLabel op.modelName with
  | error e =>
    rw [hallow] at hop
    cases hop
  | ok allowed =>
    rw [hallow] at hop
    cases hop
    exact ⟨allowed, rfl, rfl⟩

/-- A table is marked as the operation that is recorded says, where the schema has it at all. -/
theorem Exact.marked (h : c.Exact cfg) (db : Alias) (schema : SchemaName) (m : Model) (b : Bool)
    (htables : c'.tables = if cfg.Hosts db schema m.appLabel then c.tables.put db schema m b
      else c.tables)
    (hmade : ∀ db' schema' m', made m' (c'.recorded db' schema') =
      if db' = db ∧ schema' = schema ∧ m' = m then b else made m' (c.recorded db' schema')) :
    c'.Exact cfg := by
  intro db' schema' m'
  have hold := h db' schema' m'
  rw [htables, hmade]
  by_cases hat : db' = db ∧ schema' = schema ∧ m' = m
  · obtain ⟨rfl, rfl, rfl⟩ := hat
    by_cases hhost : cfg.Hosts db' schema' m'.appLabel
    · simp [Marks.put, hhost]
    · simp [hhost, hold]
  · by_cases hhost : cfg.Hosts db schema m.appLabel
    · simp [Marks.put, hhost, hat, hold]
    · simp [hhost, hat, hold]

/-- An operation keeps the tables where the recorded migrations put them. -/
theorem Exact.operate (h : c.Exact cfg) (hop : c.operate cfg none db schema op = .ok c') :
    c'.Exact cfg := by
  obtain ⟨allowed, hallow, rfl⟩ := operate_cases hop
  cases op with
  | create m =>
    obtain rfl : allowed = decide (cfg.Hosts db schema m.appLabel) :=
      (Except.ok.inj ((RouterSettings.allowMigrate_model _).symm.trans hallow)).symm
    refine h.marked db schema m true ?_ fun db' schema' m' => ?_
    · by_cases hhost : cfg.Hosts db schema m.appLabel <;> simp [effect, hhost]
    · by_cases hat : db' = db ∧ schema' = schema
      · by_cases hm : m' = m
        · simp [made, hat, hm]
        · simp [made, hat, hm, Ne.symm hm]
      · simp [hat, ← and_assoc]
  | delete m =>
    obtain rfl : allowed = decide (cfg.Hosts db schema m.appLabel) :=
      (Except.ok.inj ((RouterSettings.allowMigrate_model _).symm.trans hallow)).symm
    refine h.marked db schema m false ?_ fun db' schema' m' => ?_
    · by_cases hhost : cfg.Hosts db schema m.appLabel <;> simp [effect, hhost]
    · by_cases hat : db' = db ∧ schema' = schema
      · by_cases hm : m' = m
        · simp [made, hat, hm]
        · simp [made, hat, hm, Ne.symm hm]
      · simp [hat, ← and_assoc]
  | data label writes =>
    intro db' schema' m'
    have htables : (if allowed then c.effect db schema (.data label writes) else c).tables =
        c.tables := by
      cases allowed
      · rfl
      · exact foldl_write_tables writes
    simp only [htables]
    rw [h db' schema' m']
    by_cases hat : db' = db ∧ schema' = schema
    · simp [made, hat]
    · simp [hat]

end Steps

end Catalog

end MtShards.Context
