import MtShards.Models.Tenant.QuoteSchema

/-!
# Deleting a tenant with its schema

`perform_destroy` deletes the row and sends the name of the schema to `drop_tenant_schema_task`,
which runs the command `drop_tenant_schema`. The command normalizes the name as the creation path
does, so that its guards and its `DROP` are about the normalized name.
-/

namespace MtShards.Hosts

open MtShards.Core MtShards.Core.Text MtShards.Keys

/-- A row of `Tenant`, as far as it is read here. -/
structure TenantRow where
  schemaName : SchemaName
  shardAlias : Alias
  status : Status
  deriving DecidableEq, Repr

/-- The rows of the tenants, no two with one schema name, and the schemas of every shard, whose
names fit into 63 bytes. -/
structure Estate where
  tenants : List TenantRow
  schemas : Alias → List Text
  unique : (tenants.map TenantRow.schemaName).Nodup
  names_fit : ∀ a, ∀ s ∈ schemas a, utf8Length s ≤ nameDataMax

namespace Estate

/-- A row is deleted. -/
def delete (E : Estate) (row : TenantRow) : Estate where
  tenants := E.tenants.erase row
  schemas := E.schemas
  unique := (E.tenants.erase_sublist.map TenantRow.schemaName).nodup E.unique
  names_fit := E.names_fit

/-- `DROP SCHEMA … CASCADE` on a shard. -/
def dropSchema (E : Estate) (database : Alias) (name : Text) : Estate where
  tenants := E.tenants
  schemas := fun a => if a = database then (E.schemas a).filter (· ≠ name) else E.schemas a
  unique := E.unique
  names_fit := by
    intro a s hs
    split at hs
    · exact E.names_fit a s (List.mem_of_mem_filter hs)
    · exact E.names_fit a s hs

end Estate

/-! ### The console -/

/-- What deleting a tenant can raise. -/
inductive DestroyError
  | permissionDenied (text : String)
  | tenantMaintenance (text : String)
  | protectedError (text : String)
  deriving DecidableEq, Repr

/-- `Tenant.delete`. -/
def tenantDelete (E : Estate) (row : TenantRow) : Except DestroyError Estate :=
  if row.schemaName = publicSchemaName then
    .error (.protectedError ("Public tenant cannot be deleted - it is required by django-tenants " ++
      "to route requests on the public host."))
  else .ok (E.delete row)

section Commands

variable (U : UnicodeData)

/-- `perform_destroy`, with the query parameter `drop_schema`; the answer has the arguments of the
task that it sends. -/
def performDestroy (E : Estate) (row : TenantRow) (dropSchema : String) :
    Except DestroyError (Estate × Option (Alias × SchemaName)) :=
  if row.schemaName = publicSchemaName then
    .error (.permissionDenied "The public tenant is read-only.")
  else if row.status = .maintenance then .error (.tenantMaintenance "finish maintenance first")
  else do
    let drop := strLower U dropSchema ∈ ["1", "true", "yes", "on"]
    let E ← tenantDelete E row
    pure (E, if drop then some (row.shardAlias, row.schemaName) else none)

/-! ### The command -/

/-- The options of `drop_tenant_schema`, with what is typed at its prompt. -/
structure DropOptions where
  database : Alias
  schema : String
  noInput : Bool
  answer : String
  deriving DecidableEq, Repr

/-- What the command can raise. -/
inductive DropError
  | unknownAlias (database : Alias) (available : List Alias)
  | refusesPublic
  | schemaRequired
  | stillExists (schema : SchemaName) (database : Alias) (status : Status)
  | notConfirmed
  /-- The `ValueError` of `quote_schema`. -/
  | unsafeName (schema : Text)
  /-- The server refuses the statement. -/
  | syntaxError
  deriving DecidableEq, Repr

/-- `information_schema.schemata WHERE schema_name = %s`; the parameter is cast to a name, which
keeps what fits. -/
def Estate.schemaExists (E : Estate) (database : Alias) (schema : SchemaName) : Bool :=
  decide (clip nameDataMax schema.toList ∈ E.schemas database)

/-- `drop_tenant_schema.Command.handle`. -/
def dropTenantSchema (databases : List Alias) (E : Estate) (o : DropOptions) :
    Except DropError Estate :=
  let schema := normalizeName U o.schema
  if o.database ∉ databases then .error (.unknownAlias o.database (databases.mergeSort (· ≤ ·)))
  else if schema = publicSchemaName then .error .refusesPublic
  else if schema = "" then .error .schemaRequired
  else
    match E.tenants.find? fun t => t.schemaName = schema ∧ t.shardAlias = o.database with
    | some live => .error (.stillExists schema o.database live.status)
    | none =>
      -- Not found: there is nothing to do.
      if E.schemaExists o.database schema = false then .ok E
      else if o.noInput = false ∧ o.answer ≠ schema then .error .notConfirmed
      else
        match quoteSchema schema.toList with
        | .error name => .error (.unsafeName name)
        | .ok quoted =>
          match lexIdentifier quoted with
          | some (name, []) => .ok (E.dropSchema o.database name)
          | _ => .error .syntaxError

/-- `drop_tenant_schema_task`. -/
def dropTenantSchemaTask (databases : List Alias) (E : Estate) (database : Alias)
    (schema : SchemaName) : Except DropError Estate :=
  dropTenantSchema U databases E ⟨database, schema, true, ""⟩

/-- The estate once the task has run; one that raises leaves it. -/
def afterTask (databases : List Alias) (E : Estate) (database : Alias) (schema : SchemaName) :
    Estate :=
  match dropTenantSchemaTask U databases E database schema with
  | .ok E' => E'
  | .error _ => E

end Commands

/-! ### What is dropped -/

/-- Of the shard of the tenant, the schema that has its name disappears, no other one does, and the
schemas of the tenants that remain are there as before. -/
structure DropsOnly (before after : Estate) (row : TenantRow) : Prop where
  only : ∀ s ∈ before.schemas row.shardAlias, s ∉ after.schemas row.shardAlias →
    s = row.schemaName.toList
  gone : row.schemaName.toList ∉ after.schemas row.shardAlias
  spares : ∀ t ∈ after.tenants, t.shardAlias = row.shardAlias →
    clip nameDataMax t.schemaName.toList ∈ before.schemas row.shardAlias →
    clip nameDataMax t.schemaName.toList ∈ after.schemas row.shardAlias

/-- The command gets past its guards and takes the normalized name of this one for an identifier. -/
structure Guards (U : UnicodeData) (databases : List Alias) (E : Estate) (database : Alias)
    (schema : SchemaName) : Prop where
  configured : database ∈ databases
  not_public : normalizeName U schema ≠ publicSchemaName
  ne_empty : normalizeName U schema ≠ ""
  not_live : ∀ t ∈ E.tenants, t.shardAlias = database → t.schemaName ≠ normalizeName U schema
  safe : isSafeSchemaIdentifier (normalizeName U schema).toList = true

/-- The schema that the command is about, given this name. -/
def target (U : UnicodeData) (schema : SchemaName) : Text :=
  clip nameDataMax (normalizeName U schema).toList

variable {U : UnicodeData} {databases : List Alias} {E : Estate} {database : Alias}
  {schema : SchemaName} {row : TenantRow}

/-- A task that passes its guards drops its schema and nothing else. -/
theorem afterTask_of_guards (hguards : Guards U databases E database schema)
    (hthere : target U schema ∈ E.schemas database) :
    afterTask U databases E database schema = E.dropSchema database (target U schema) := by
  have hlive : (E.tenants.find? fun t =>
      t.schemaName = normalizeName U schema ∧ t.shardAlias = database) = none := by
    refine List.find?_eq_none.mpr fun t ht h => ?_
    have hboth := of_decide_eq_true h
    exact hguards.not_live t ht hboth.2 hboth.1
  have hexists : ¬E.schemaExists database (normalizeName U schema) = false := by
    rw [Estate.schemaExists, decide_eq_false_iff_not]
    exact not_not.mpr hthere
  have hquoted : quoteSchema (normalizeName U schema).toList =
      .ok ('"' :: (normalizeName U schema).toList ++ ['"']) := if_pos hguards.safe
  have hlex := lexIdentifier_quoteSchema hquoted
  simp only [afterTask, dropTenantSchemaTask, dropTenantSchema,
    if_neg (not_not.mpr hguards.configured), if_neg hguards.not_public, if_neg hguards.ne_empty,
    hlive, if_neg hexists, hquoted, hlex]
  rfl

/-- A task that does not pass its guards, or finds no schema, drops nothing. -/
theorem afterTask_of_not (hnot : ¬(Guards U databases E database schema ∧
    target U schema ∈ E.schemas database)) : afterTask U databases E database schema = E := by
  unfold afterTask dropTenantSchemaTask dropTenantSchema
  dsimp only
  by_cases hconfigured : database ∈ databases
  · rw [if_neg (not_not.mpr hconfigured)]
    by_cases hpublic : normalizeName U schema = publicSchemaName
    · rw [if_pos hpublic]
    · rw [if_neg hpublic]
      by_cases hempty : normalizeName U schema = ""
      · rw [if_pos hempty]
      · rw [if_neg hempty]
        cases hlive : E.tenants.find? fun t =>
            t.schemaName = normalizeName U schema ∧ t.shardAlias = database with
        | some live => rfl
        | none =>
          have hnone := List.find?_eq_none.mp hlive
          have hrest : isSafeSchemaIdentifier (normalizeName U schema).toList = true →
              target U schema ∉ E.schemas database := fun hsafe hthere =>
            hnot ⟨⟨hconfigured, hpublic, hempty, fun t ht ha hs =>
              hnone t ht (decide_eq_true ⟨hs, ha⟩), hsafe⟩, hthere⟩
          dsimp only
          cases hexists : E.schemaExists database (normalizeName U schema) with
          | false => rw [if_pos rfl]
          | true =>
            have hunsafe : ¬isSafeSchemaIdentifier (normalizeName U schema).toList = true :=
              fun hsafe => hrest hsafe (of_decide_eq_true hexists)
            have hquoted : quoteSchema (normalizeName U schema).toList =
                .error (normalizeName U schema).toList := if_neg hunsafe
            rw [if_neg (by simp), if_neg (by simp), hquoted]
  · rw [if_pos hconfigured]

/-- What the task drops of the shard. -/
theorem mem_afterTask {s : Text} : s ∈ (afterTask U databases E database schema).schemas database ↔
    s ∈ E.schemas database ∧
      ¬(Guards U databases E database schema ∧ s = target U schema) := by
  by_cases hdrops : Guards U databases E database schema ∧ target U schema ∈ E.schemas database
  · rw [afterTask_of_guards hdrops.1 hdrops.2, Estate.dropSchema]
    dsimp only
    rw [if_pos rfl, List.mem_filter]
    simp [hdrops.1]
  · rw [afterTask_of_not hdrops]
    refine (and_iff_left_of_imp fun hs => ?_).symm
    rintro ⟨hguards, htarget⟩
    rw [htarget] at hs
    exact hdrops ⟨hguards, hs⟩

/-- The task leaves the tenants alone. -/
theorem tenants_afterTask : (afterTask U databases E database schema).tenants = E.tenants := by
  by_cases hdrops : Guards U databases E database schema ∧ target U schema ∈ E.schemas database
  · rw [afterTask_of_guards hdrops.1 hdrops.2, Estate.dropSchema]
  · rw [afterTask_of_not hdrops]

private theorem performDestroy_ok {drop : String} {E' : Estate} {sent : Alias × SchemaName}
    (h : performDestroy U E row drop = .ok (E', some sent)) :
    E' = E.delete row ∧ sent = (row.shardAlias, row.schemaName) := by
  unfold performDestroy tenantDelete at h
  split at h
  · cases h
  · rename_i hpublic
    split at h
    · cases h
    · rw [if_neg hpublic] at h
      dsimp only [bind, Except.bind, pure, Except.pure] at h
      split at h
      · cases h
        exact ⟨rfl, rfl⟩
      · cases h

/-- Deleting a tenant with its schema hands the shard and the name to the task. -/
theorem performDestroy_eq {drop : String} (hpublic : row.schemaName ≠ publicSchemaName)
    (hstatus : row.status ≠ .maintenance) (hdrop : strLower U drop ∈ ["1", "true", "yes", "on"]) :
    performDestroy U E row drop = .ok (E.delete row, some (row.shardAlias, row.schemaName)) := by
  unfold performDestroy tenantDelete
  rw [if_neg hpublic, if_neg hstatus, if_neg hpublic]
  dsimp only [bind, Except.bind, pure, Except.pure]
  rw [if_pos hdrop]

/-- What the task does of what it is to do, once the row is gone. -/
theorem dropsOnly_iff (U : UnicodeData) (databases : List Alias) (E : Estate) (row : TenantRow) :
    DropsOnly E (afterTask U databases (E.delete row) row.shardAlias row.schemaName) row ↔
      if row.schemaName.toList ∈ E.schemas row.shardAlias then
        target U row.schemaName = row.schemaName.toList ∧
          Guards U databases (E.delete row) row.shardAlias row.schemaName ∧
          ∀ t ∈ (E.delete row).tenants, t.shardAlias = row.shardAlias →
            clip nameDataMax t.schemaName.toList ≠ row.schemaName.toList
      else Guards U databases (E.delete row) row.shardAlias row.schemaName →
        target U row.schemaName ∉ E.schemas row.shardAlias := by
  have hmem {s : Text} :
      s ∈ (afterTask U databases (E.delete row) row.shardAlias row.schemaName).schemas
          row.shardAlias ↔
        s ∈ E.schemas row.shardAlias ∧
          ¬(Guards U databases (E.delete row) row.shardAlias row.schemaName ∧
            s = target U row.schemaName) := mem_afterTask
  split
  · rename_i hthere
    constructor
    · intro h
      have hdrops : Guards U databases (E.delete row) row.shardAlias row.schemaName ∧
          row.schemaName.toList = target U row.schemaName := by
        by_contra hnot
        exact h.gone (hmem.mpr ⟨hthere, hnot⟩)
      refine ⟨hdrops.2.symm, hdrops.1, fun t ht hshard hclip => ?_⟩
      have hkept := h.spares t (by rwa [tenants_afterTask]) hshard (by rwa [hclip])
      rw [hclip] at hkept
      exact h.gone hkept
    · rintro ⟨htarget, hguards, hothers⟩
      refine ⟨fun s hs hs' => ?_, fun hs => ?_, fun t ht hshard hs => ?_⟩
      · by_contra hne
        exact hs' (hmem.mpr ⟨hs, fun h => hne (h.2.trans htarget)⟩)
      · exact (hmem.mp hs).2 ⟨hguards, htarget.symm⟩
      · rw [tenants_afterTask] at ht
        exact hmem.mpr ⟨hs, fun h => hothers t ht hshard (h.2.trans htarget)⟩
  · rename_i hmissing
    constructor
    · intro h hguards hthere
      have hgone : target U row.schemaName ∉
          (afterTask U databases (E.delete row) row.shardAlias row.schemaName).schemas
            row.shardAlias := fun hs => (hmem.mp hs).2 ⟨hguards, rfl⟩
      rw [h.only _ hthere hgone] at hthere
      exact hmissing hthere
    · intro hnot
      have hkept {s : Text} (hs : s ∈ E.schemas row.shardAlias) :
          s ∈ (afterTask U databases (E.delete row) row.shardAlias row.schemaName).schemas
            row.shardAlias := by
        refine hmem.mpr ⟨hs, ?_⟩
        rintro ⟨hguards, htarget⟩
        rw [htarget] at hs
        exact hnot hguards hs
      exact ⟨fun s hs hs' => absurd (hkept hs) hs', fun hs => hmissing (hmem.mp hs).1,
        fun t ht hshard hs => hkept hs⟩

/-- Deleting a tenant with its schema drops that schema and no other one if and only if: where
there is a schema of the tenant's name, the name is its own normalized form as the server keeps it,
the command gets past its guards, and no tenant that remains has the name as the server keeps it;
and where there is none, the command does not get past its guards or finds no schema. -/
theorem drop_schema_drops_it_only {drop : String} {E' : Estate} {sent : Alias × SchemaName}
    (hdestroy : performDestroy U E row drop = .ok (E', some sent)) (databases : List Alias) :
    DropsOnly E (afterTask U databases E' sent.1 sent.2) row ↔
      if row.schemaName.toList ∈ E.schemas row.shardAlias then
        target U row.schemaName = row.schemaName.toList ∧
          Guards U databases (E.delete row) row.shardAlias row.schemaName ∧
          ∀ t ∈ (E.delete row).tenants, t.shardAlias = row.shardAlias →
            clip nameDataMax t.schemaName.toList ≠ row.schemaName.toList
      else Guards U databases (E.delete row) row.shardAlias row.schemaName →
        target U row.schemaName ∉ E.schemas row.shardAlias := by
  obtain ⟨rfl, rfl⟩ := performDestroy_ok hdestroy
  exact dropsOnly_iff U databases E row

/-! ### Two tenants -/

/-- A tenant, active on a shard. -/
def tenantOf (name : SchemaName) : TenantRow := ⟨name, "shard_a", .active⟩

/-- The tenants `Legacy-Name` and `beta` with their schemas, and a schema that no tenant has. -/
def legacyEstate : Estate where
  tenants := [tenantOf "Legacy-Name", tenantOf "beta"]
  schemas := fun a =>
    if a = "shard_a" then ["Legacy-Name".toList, "legacy_name".toList, "beta".toList] else []
  unique := by decide
  names_fit := by
    intro a s hs
    split at hs
    · have hall : ["Legacy-Name".toList, "legacy_name".toList, "beta".toList].all
          (fun s => decide (utf8Length s ≤ nameDataMax)) = true := by decide
      exact of_decide_eq_true (List.all_eq_true.mp hall s hs)
    · cases hs

/-- The word `true` asks for the schema to be dropped. -/
theorem lower_true : strLower UnicodeData.ascii "true" ∈ ["1", "true", "yes", "on"] := by
  have htrue : strLower UnicodeData.ascii "true" = "true" := by
    refine String.toList_inj.mp ?_
    rw [strLower, String.toList_ofList]
    decide
  rw [htrue]
  decide

/-- Deleting the tenant with its schema drops that schema only. -/
theorem drop_schema_drops_it_only_beta :
    DropsOnly legacyEstate (afterTask UnicodeData.ascii ["default", "shard_a"]
      (legacyEstate.delete (tenantOf "beta")) "shard_a" "beta") (tenantOf "beta") := by
  have hdestroy : performDestroy UnicodeData.ascii legacyEstate (tenantOf "beta") "true" =
      .ok (legacyEstate.delete (tenantOf "beta"), some ("shard_a", "beta")) :=
    performDestroy_eq (by decide) (by decide) lower_true
  have hname : (normalizeName UnicodeData.ascii "beta").toList = "beta".toList := by
    rw [toList_normalizeName]
    decide
  have hsame : normalizeName UnicodeData.ascii "beta" = "beta" := String.toList_inj.mp hname
  refine (drop_schema_drops_it_only hdestroy ["default", "shard_a"]).mpr ?_
  rw [if_pos (by decide)]
  have htenants : (legacyEstate.delete (tenantOf "beta")).tenants = [tenantOf "Legacy-Name"] := by
    decide
  have hguards : Guards UnicodeData.ascii ["default", "shard_a"]
      (legacyEstate.delete (tenantOf "beta")) "shard_a" "beta" := by
    refine ⟨by decide, ?_, ?_, fun t ht _ => ?_, ?_⟩
    · rw [hsame]
      decide
    · rw [hsame]
      decide
    · rw [htenants, List.mem_singleton] at ht
      rw [ht, hsame]
      decide
    · rw [hname]
      decide
  refine ⟨?_, hguards, fun t ht _ => ?_⟩
  · rw [target, tenantOf, hname]
    decide
  · rw [htenants, List.mem_singleton] at ht
    rw [ht]
    decide

/-- `Legacy-Name` is deleted with its schema, and the schema `legacy_name` is dropped. -/
theorem drop_schema_drops_it_only_fails :
    isSafeSchemaIdentifier "Legacy-Name".toList = true ∧
      performDestroy UnicodeData.ascii legacyEstate (tenantOf "Legacy-Name") "true" =
        .ok (legacyEstate.delete (tenantOf "Legacy-Name"), some ("shard_a", "Legacy-Name")) ∧
      ¬DropsOnly legacyEstate (afterTask UnicodeData.ascii ["default", "shard_a"]
        (legacyEstate.delete (tenantOf "Legacy-Name")) "shard_a" "Legacy-Name")
        (tenantOf "Legacy-Name") := by
  refine ⟨by decide, performDestroy_eq (by decide) (by decide) lower_true, fun h => ?_⟩
  have hcondition := (dropsOnly_iff _ _ _ _).mp h
  rw [if_pos (by decide), target, tenantOf, toList_normalizeName] at hcondition
  exact absurd hcondition.1 (by decide)

end MtShards.Hosts
