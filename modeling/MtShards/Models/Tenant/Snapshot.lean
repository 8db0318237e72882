import Mathlib.Data.List.Defs

/-!
# Tenants, shards and the routing snapshot

The status column of `tenants.models.Tenant`, the two halves of the routing
snapshot of `tenants.resolver.snapshot`, and the name of the public schema.
-/

namespace MtShards

/-- A key of `settings.DATABASES`. -/
abbrev Alias := String

/-- A PostgreSQL schema name. -/
abbrev SchemaName := String

/-- `settings.PUBLIC_SCHEMA_NAME`, what `get_public_schema_name()` answers. -/
def publicSchemaName : SchemaName := "public"

/-- The alias of the database that holds only the public schema. -/
def defaultAlias : Alias := "default"

/-- `Tenant.Status`. -/
inductive Status
  | new
  | pending
  | active
  | deactivated
  | failed
  | maintenance
  deriving DecidableEq, Repr

/-- The stored text of a status. -/
def Status.value : Status → String
  | .new => "new"
  | .pending => "pending"
  | .active => "active"
  | .deactivated => "deactivated"
  | .failed => "failed"
  | .maintenance => "maintenance"

/-- `ShardSnapshot`, the shard half of the snapshot. -/
structure ShardSnapshot where
  id : Nat
  dbAlias : Alias
  deriving DecidableEq, Repr

/-- `TenantSnapshot` without the per-request `domain_url`, which is never serialized. -/
structure TenantSnapshot where
  id : Nat
  schemaName : SchemaName
  status : Status
  shard : ShardSnapshot
  deriving DecidableEq, Repr

end MtShards
