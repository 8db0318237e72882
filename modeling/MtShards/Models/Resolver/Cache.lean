import MtShards.Models.Resolver.World

/-!
# The resolve cache

`tenants.resolver.cache.TenantResolveCache`. A snapshot is cached as the value that `dump`
writes and `load` reads back, so the two are not told apart here. `set_many` is one `SET` per
key. An invalidation has two halves: which keys it names is computed when `forget_*` is called,
and `_invalidate` runs once the enclosing transaction has committed.
-/

namespace MtShards.Resolver

open MtShards.Core

/-- `ttl_for_status`. -/
def Settings.ttlForStatus (cfg : Settings) (st : Status) : Option Nat :=
  (cfg.warmTtlByStatus st).getD (some cfg.positiveCacheSeconds)

/-- `_ttl_for`. -/
def Settings.ttlFor (cfg : Settings) (t : TenantSnapshot) : Option Nat :=
  if cfg.warmEnabled then cfg.ttlForStatus t.status else some cfg.positiveCacheSeconds

/-- Positive entries are not cached at all. -/
def Settings.positiveOff (cfg : Settings) : Bool :=
  !cfg.warmEnabled && cfg.positiveCacheSeconds == 0

/-- `redis_alive`. -/
def redisAlive : Prog Bool := do
  match ← (call .ping).attempt with
  | .ok b => pure b
  | .error _ => pure false

/-- `set_many`. -/
def setMany (ttl : Option Nat) : List (Key × Cached TenantSnapshot) → Prog Unit
  | [] => pure ()
  | (k, e) :: rest => do
    call (.set k e ttl)
    setMany ttl rest

/-- `put`. -/
def put (cfg : Settings) (hostname : Host) (tenant : TenantSnapshot) : Prog Bool :=
  if cfg.positiveOff then pure false
  else do
    let ttl := cfg.ttlFor tenant
    let filled ← call (.setNx (.host hostname) (.positive tenant) ttl)
    let _ ← call (.setNx (.schema tenant.schemaName) (.positive tenant) ttl)
    pure filled

/-- `store_miss`. -/
def storeMiss (cfg : Settings) (hostname : Host) : Prog Unit :=
  if cfg.missCacheSeconds = 0 then pure ()
  else (call (.setNx (.host hostname) .negative (some cfg.missCacheSeconds))).void

/-- The groups of `_put_many_by_ttl` still to be written, by their time to live. -/
def putGroups (cfg : Settings) (keyed : List (Key × TenantSnapshot)) :
    List (Option Nat) → Prog Nat
  | [] => pure 0
  | ttl :: ttls => do
    let batch := keyed.filter fun kt => cfg.ttlFor kt.2 = ttl
    setMany ttl (batch.map fun kt => (kt.1, .positive kt.2))
    let n ← putGroups cfg keyed ttls
    pure (batch.length + n)

/-- `_put_many_by_ttl`, for items with distinct keys. -/
def putManyByTtl (cfg : Settings) (keyed : List (Key × TenantSnapshot)) : Prog Nat :=
  if cfg.positiveOff then pure 0
  else putGroups cfg keyed (keyed.map fun kt => cfg.ttlFor kt.2).eraseDups

/-- `put_many`. -/
def putMany (cfg : Settings) (items : List DomainRow) : Prog Nat :=
  putManyByTtl cfg (items.map fun d => (.host d.domain, d.tenant))

/-- `put_schema_many`. -/
def putSchemaMany (cfg : Settings) (tenants : List TenantSnapshot) : Prog Nat :=
  putManyByTtl cfg (tenants.map fun t => (.schema t.schemaName, t))

/-- The `_invalidate` of `_tombstone_keys`: what runs after the commit. -/
def tombstoneKeys (cfg : Settings) (keys : List Key) : Prog Unit :=
  if keys = [] then pure ()
  else if cfg.holdSeconds = 0 then call (.deleteMany keys)
  else setMany (some cfg.holdSeconds) (keys.eraseDups.map fun k => (k, .tombstone))

/-- The schema of a cached positive snapshot. -/
def positiveSchema : Cached TenantSnapshot → Option SchemaName
  | .positive t => some t.schemaName
  | _ => none

/-- The keys `forget_hosts` names, without explicit schemas: the schema of a host is read off its
cached snapshot when there is one. -/
def forgetHosts (hostnames : List Host) : Prog (List Key) := do
  let hostKeys := hostnames.map Key.host
  let found ← if hostnames = [] then pure [] else call (.getMany hostKeys)
  let schemas := (found.filterMap fun kv => positiveSchema kv.2).eraseDups
  pure (hostKeys ++ schemas.map Key.schema)

/-- The keys `forget_host` names. -/
def forgetHost (hostname : Host) : Prog (List Key) := forgetHosts [hostname]

/-- `_keys_for`. -/
def keysFor (tenant : TenantSnapshot) : Prog (List Key) := do
  let hosts ← call (.readHosts tenant.id)
  pure (hosts.map Key.host ++ [Key.schema tenant.schemaName])

/-- `forget_tenant` outside a transaction: the keys are named and invalidated in one go. -/
def forgetTenant (cfg : Settings) (tenant : TenantSnapshot) : Prog Unit := do
  let keys ← keysFor tenant
  tombstoneKeys cfg keys

/-- The keys of the positive snapshots among those found. -/
def orphansOf (found : List (Key × Cached TenantSnapshot)) : List Key :=
  (found.filter fun kv => (positiveSchema kv.2).isSome).map Prod.fst

/-- `_sweep_batch`. -/
def sweepBatch (keys : List Key) : Prog Nat :=
  if keys = [] then pure 0
  else do
    let found ← call (.getMany keys)
    let orphans := orphansOf found
    if orphans = [] then pure 0
    else do
      call (.deleteMany orphans)
      pure orphans.length

/-- `_sweep_namespace` over the names one page of the scan has yielded: the batch it leaves open
and the number swept. -/
def sweepNames (cfg : Settings) (keyFn : String → Key) (valid : List String) :
    List String → List String → Prog (List String × Nat)
  | [], batch => pure (batch, 0)
  | name :: names, batch =>
    if name ∈ valid then sweepNames cfg keyFn valid names batch
    else if cfg.sweepBatch ≤ (batch ++ [name]).length then do
      let n ← sweepBatch ((batch ++ [name]).map keyFn)
      let (rest, m) ← sweepNames cfg keyFn valid names []
      pure (rest, n + m)
    else sweepNames cfg keyFn valid names (batch ++ [name])

/-- `_sweep_namespace` over the pages still to be scanned. -/
def sweepPages (cfg : Settings) (keyFn : String → Key) (scan : Nat → Prog (List String))
    (valid : List String) : List Nat → List String → Prog Nat
  | [], batch => sweepBatch (batch.map keyFn)
  | i :: pages, batch => do
    let names ← scan i
    let (batch', n) ← sweepNames cfg keyFn valid names batch
    let m ← sweepPages cfg keyFn scan valid pages batch'
    pure (n + m)

/-- `sweep_orphans`. -/
def sweepOrphans (cfg : Config) (validHosts : List Host) (validSchemas : List SchemaName) :
    Prog Nat := do
  let pages := List.range cfg.keyspace.pages
  let n ← sweepPages cfg.toSettings .host (fun i => call (.scanHosts i)) validHosts pages []
  let m ← sweepPages cfg.toSettings .schema (fun i => call (.scanSchemas i)) validSchemas pages []
  pure (n + m)

end MtShards.Resolver
