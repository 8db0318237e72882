import MtShards.Core.Action
import MtShards.Models.Tenant.Snapshot

/-!
# The two routing axes and the context managers over them

`tenants.context`: the `current_db` ContextVar, and for every alias of
`settings.DATABASES` the tenant recorded on its connection wrapper. The context
managers are generators, so each is an action around the body that runs at its
`yield`; what `_switch` saves lives in the frame of one entry. `TenantTask.__call__`
and `TenantShardRoutingMiddleware.__call__` are consumers of the same managers.

The django-tenants setters only record the tenant on the wrapper. Entering may
fail (`SetFault`), with the tenant recorded or not; restoring does not fail.
-/

namespace MtShards.Context

open MtShards.Core

/-- What a connection wrapper records: a tenant, or the `FakeTenant` that
`set_schema` builds around a bare schema name. -/
inductive Recorded
  | tenant (t : TenantSnapshot)
  | fake (schemaName : SchemaName)
  deriving DecidableEq, Repr

/-- The schema name carried by a recorded tenant. -/
def Recorded.schemaName : Recorded → SchemaName
  | .tenant t => t.schemaName
  | .fake s => s

/-- A connection wrapper. Its `schema_name` is always that of the recorded tenant,
or public while none is recorded, so it is not stored a second time. -/
structure Connection where
  tenant : Option Recorded
  deriving DecidableEq, Repr

/-- `connection.schema_name`. -/
def Connection.schemaName (c : Connection) : SchemaName :=
  (c.tenant.map Recorded.schemaName).getD publicSchemaName

/-- The routing state of one thread: `current_db`, unset at first, and the
wrappers of `settings.DATABASES`; an alias outside it has no wrapper. -/
structure Routing where
  currentDb : Option Alias
  connections : Alias → Option Connection

/-- The schema of the connection under an alias. -/
def Routing.schemaOf (s : Routing) (a : Alias) : Option SchemaName :=
  (s.connections a).map Connection.schemaName

/-- Record a tenant on the wrapper of one alias. -/
def Routing.record (s : Routing) (a : Alias) (t : Recorded) : Routing :=
  { s with
    connections := Function.update s.connections a ((s.connections a).map fun _ => ⟨some t⟩) }

/-- What the context managers must restore: the ContextVar and every schema. -/
def Routing.axes (s : Routing) : Option Alias × (Alias → Option SchemaName) :=
  (s.currentDb, s.schemaOf)

/-- `current_schema_name`: the schema on the connection of the bound alias, and public when
nothing is bound. -/
def Routing.currentSchemaName {ε : Type} (doesNotExist : Alias → ε) (s : Routing) :
    Except ε SchemaName :=
  match s.currentDb with
  | none => .ok publicSchemaName
  | some a =>
    match s.connections a with
    | none => .error (doesNotExist a)
    | some c => .ok (if c.schemaName = "" then publicSchemaName else c.schemaName)

/-- A failing `set_tenant` / `set_schema` on entry: what it raises, and whether the
wrapper had already recorded the tenant by then. -/
structure SetFault (ε : Type) where
  raised : ε
  recorded : Bool

section Managers

variable {ε α : Type}

/-- `connections[alias]`, raising for an alias outside `settings.DATABASES`. -/
def connectionAt (doesNotExist : Alias → ε) (a : Alias) : Action Routing ε Connection := fun s =>
  match s.connections a with
  | some c => (.ok c, s)
  | none => (.error (doesNotExist a), s)

/-- `current_db.set(value)`; the token is the value it replaced. -/
def setCurrentDb (value : Option Alias) : Action Routing ε (Option Alias) := fun s =>
  (.ok s.currentDb, { s with currentDb := value })

/-- `conn.set_tenant(t)` / `conn.set_schema(name)` on entry. -/
def applyTo (a : Alias) (t : Recorded) : Option (SetFault ε) → Action Routing ε Unit
  | none => Action.modify fun s => s.record a t
  | some f => fun s => (.error f.raised, if f.recorded then s.record a t else s)

/-- `connection.set_schema_to_public()`. -/
def Routing.setSchemaToPublic (s : Routing) (a : Alias) : Routing :=
  s.record a (.fake publicSchemaName)

/-- The `finally` of `_switch`: the previous tenant back on the connection, or
public when there was none, then `current_db.reset(token)`. -/
def Routing.restore (s : Routing) (a : Alias) (prevTenant : Option Recorded)
    (token : Option Alias) : Routing :=
  match prevTenant with
  | none => { s.setSchemaToPublic a with currentDb := token }
  | some t => { s.record a t with currentDb := token }

/-- `with use_alias(alias): body`. -/
def useAlias (a : Alias) (body : Action Routing ε α) : Action Routing ε α := do
  let token ← setCurrentDb (some a)
  Action.tryFinally body (Action.modify fun s => { s with currentDb := token })

/-- `with _switch(database, apply_to): body`. -/
def switch (doesNotExist : Alias → ε) (database : Alias) (t : Recorded)
    (fault : Option (SetFault ε)) (body : Action Routing ε α) : Action Routing ε α := do
  let connection ← connectionAt doesNotExist database
  let prevTenant := connection.tenant
  let token ← setCurrentDb (some database)
  Action.tryFinally (applyTo database t fault >>= fun _ => body)
    (Action.modify fun s => s.restore database prevTenant token)

/-- Python's `a or b` on an optional string: the empty string is falsy. -/
def orElse (a : Option String) (b : String) : String :=
  match a with
  | some s => if s = "" then b else s
  | none => b

/-- `with tenant_context(tenant, database): body`. -/
def tenantContext (doesNotExist : Alias → ε) (t : TenantSnapshot) (database : Option Alias)
    (fault : Option (SetFault ε)) (body : Action Routing ε α) : Action Routing ε α :=
  switch doesNotExist (orElse database t.shard.dbAlias) (.tenant t) fault body

/-- `_resolve_database`: an explicit database wins, public lives on `default`, any
other schema is looked up in the tenant registry, which may raise. -/
def resolveDatabase (schema : SchemaName) (database : Option Alias) (lookup : Except ε Alias) :
    Except ε Alias :=
  if orElse database "" ≠ "" then .ok (orElse database "")
  else if schema = publicSchemaName then .ok defaultAlias
  else lookup

/-- `with schema_context(schema_name, database): body`. -/
def schemaContext (doesNotExist : Alias → ε) (schema : SchemaName) (database : Option Alias)
    (lookup : Except ε Alias) (fault : Option (SetFault ε)) (body : Action Routing ε α) :
    Action Routing ε α :=
  match resolveDatabase schema database lookup with
  | .error e => Action.raise e
  | .ok db => switch doesNotExist db (.fake schema) fault body

/-- `TenantTask.__call__`: a bare call inherits the caller's context, `public` pins
the router axis to `default`, any other header enters that tenant. -/
def taskCall (doesNotExist : Alias → ε) (header : Option SchemaName)
    (getTenantForSchema : Except ε TenantSnapshot) (fault : Option (SetFault ε))
    (body : Action Routing ε α) : Action Routing ε α :=
  let schema := orElse header ""
  if schema = "" then body
  else if schema = publicSchemaName then useAlias defaultAlias body
  else match getTenantForSchema with
    | .error e => Action.raise e
    | .ok t => tenantContext doesNotExist t none fault body

/-- `TenantShardRoutingMiddleware.__call__`: the public tenant, or none, pins only the
router axis; a sharded tenant is entered and its connection left on public. -/
def middlewareCall (doesNotExist : Alias → ε) (tenant : Option TenantSnapshot)
    (fault : Option (SetFault ε)) (getResponse : Action Routing ε α) : Action Routing ε α :=
  match tenant with
  | none => useAlias defaultAlias getResponse
  | some t =>
    if t.shard.dbAlias = defaultAlias then useAlias defaultAlias getResponse
    else do
      let _ ← connectionAt doesNotExist t.shard.dbAlias
      Action.tryFinally (tenantContext doesNotExist t none fault getResponse)
        (Action.modify fun s => s.setSchemaToPublic t.shard.dbAlias)

end Managers

/-- Finite programs over the context managers. Every point at which a level can raise
carries its outcome: the registry lookups, the schema-set on entry, and `raise` for
the body itself. -/
inductive Prog (ε : Type)
  | skip
  | raise (e : ε)
  | seq (p q : Prog ε)
  | useAlias (a : Alias) (body : Prog ε)
  | tenantContext (t : TenantSnapshot) (database : Option Alias) (fault : Option (SetFault ε))
      (body : Prog ε)
  | schemaContext (schema : SchemaName) (database : Option Alias) (lookup : Except ε Alias)
      (fault : Option (SetFault ε)) (body : Prog ε)
  | task (header : Option SchemaName) (getTenantForSchema : Except ε TenantSnapshot)
      (fault : Option (SetFault ε)) (body : Prog ε)

/-- Run a program on the routing state. -/
def Prog.run {ε : Type} (doesNotExist : Alias → ε) : Prog ε → Action Routing ε Unit
  | .skip => Pure.pure ()
  | .raise e => Action.raise e
  | .seq p q => p.run doesNotExist >>= fun _ => q.run doesNotExist
  | .useAlias a body => Context.useAlias a (body.run doesNotExist)
  | .tenantContext t db fault body =>
    Context.tenantContext doesNotExist t db fault (body.run doesNotExist)
  | .schemaContext s db lookup fault body =>
    Context.schemaContext doesNotExist s db lookup fault (body.run doesNotExist)
  | .task header get fault body => taskCall doesNotExist header get fault (body.run doesNotExist)

end MtShards.Context
