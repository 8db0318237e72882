import MtShards.Models.Resolver.Cache

/-!
# How a worker finds the tenant of a task

`TenantTask.get_tenant_for_schema` with its three tiers: the schema-snap key of the shared cache,
the cache of the worker process, the database. The calls of one worker process run interleaved
with the resolvers that fill the shared cache and with writers that change the tables and
invalidate keys. Redis does not fail.

A snapshot is kept together with when its row was read. The code does not see this; it is what
freshness is about.
-/

namespace MtShards.Worker

open MtShards.Core Resolver

/-! ### The cache of a worker process -/

/-- `_CacheEntry`. -/
structure CacheEntry (V : Type) where
  value : V
  expiresAt : Nat

/-- `SimpleCache`: the items of its dictionary, in any order. -/
abbrev SimpleCache (V : Type) := List (SchemaName × CacheEntry V)

namespace SimpleCache

variable {V : Type}

/-- `_PURGE_AT`. -/
def purgeAt : Nat := 1024

/-- `dict.pop`. -/
def pop (items : SimpleCache V) (key : SchemaName) : SimpleCache V := items.filter (·.1 ≠ key)

/-- `SimpleCache.get`: the answer, and the items it leaves. -/
def get (items : SimpleCache V) (now : Nat) (key : SchemaName) : Option V × SimpleCache V :=
  match items.lookup key with
  | none => (none, items)
  | some item => if item.expiresAt < now then (none, items.pop key) else (some item.value, items)

/-- `SimpleCache.set`. -/
def set (items : SimpleCache V) (now : Nat) (key : SchemaName) (value : V) (expireSeconds : Nat) :
    SimpleCache V :=
  let kept := if purgeAt ≤ items.length then items.filter (¬ ·.2.expiresAt < now) else items
  (key, ⟨value, now + expireSeconds⟩) :: SimpleCache.pop kept key

end SimpleCache

/-! ### The shared state -/

/-- A snapshot, the time its row was read, and how many invalidations of its schema had been
carried out by then. -/
structure Reading where
  tenant : TenantSnapshot
  readAt : Nat
  seen : Nat
  deriving DecidableEq, Repr

/-- The settings of the resolver and `CELERY_TASK_TENANT_CACHE_SECONDS`. -/
structure Config extends Settings where
  taskTenantCacheSeconds : Nat := 30

/-- `resolve_cache.enabled`. -/
def Config.enabled (cfg : Config) : Bool :=
  cfg.warmEnabled || cfg.positiveCacheSeconds ≠ 0 || cfg.missCacheSeconds ≠ 0

/-- The shared state, and the cache of the worker process. -/
structure World where
  now : Nat
  db : Database
  snaps : TtlStore Key (Cached Reading)
  l1 : SimpleCache Reading
  /-- How many invalidations of a schema have been carried out. -/
  invalidations : SchemaName → Nat
  /-- When the hold of each of them ends, counted from one. -/
  heldUntil : SchemaName → Nat → Nat

/-- A thread of the worker, a resolver or a writer. -/
abbrev Pid := Nat

inductive Exn
  /-- `Tenant.DoesNotExist`. -/
  | doesNotExist (n : SchemaName)
  | notFound (h : Host)
  deriving DecidableEq, Repr

/-- A request. -/
inductive Req
  -- The registry tables.
  | readRow (h : Host)
  | dbGet (n : SchemaName)
  | readHosts (tenantId : Nat)
  | readHostsOf (schemas : List SchemaName)
  /-- A transaction commits, with any change of the tables. -/
  | commit (db : Database)
  -- The shared cache.
  | cacheGet (k : Key)
  | getMany (ks : List Key)
  | setNx (k : Key) (e : Cached Reading) (ttl : Option Nat)
  | setTombstone (k : Key) (ttl : Nat)
  | deleteMany (ks : List Key)
  -- The cache of the worker process.
  | l1Get (n : SchemaName)
  | l1Set (n : SchemaName) (r : Reading) (expireSeconds : Nat)
  /-- The task enters `tenant_context` with what the call has returned. -/
  | enter (n : SchemaName) (r : Reading)

/-- What a request answers. -/
@[reducible] def Req.Ans : Req → Type
  | readRow _ | dbGet _ | l1Get _ => Option Reading
  | readHosts _ | readHostsOf _ => List Host
  | cacheGet _ => Option (Cached Reading)
  | getMany _ => List (Key × Cached Reading)
  | setNx _ _ _ => Bool
  | commit _ | setTombstone _ _ | deleteMany _ | l1Set _ _ _ | enter _ _ => Unit

namespace World

/-- What a reader sees under a snapshot key. -/
def snap (s : World) (k : Key) : Option (Cached Reading) := s.snaps.get s.now k

/-- A row that is read now. -/
def reading (s : World) (t : TenantSnapshot) : Reading := ⟨t, s.now, s.invalidations t.schemaName⟩

/-- `Domain.objects.filter(tenant__schema_name__in=…)`. -/
def hostsOfSchemas (s : World) (schemas : List SchemaName) : List Host :=
  (s.db.domains.filter fun d => (s.db.tenantOf d.tenantId).any (·.schemaName ∈ schemas)).map
    Domain.domain

/-- Keys are invalidated, with a hold to this time. -/
def invalidated (s : World) (ks : List Key) (stop : Nat) : World :=
  { s with
    invalidations := fun n => if .schema n ∈ ks then s.invalidations n + 1 else s.invalidations n
    heldUntil := fun n i =>
      if .schema n ∈ ks ∧ i = s.invalidations n + 1 then stop else s.heldUntil n i }

end World

namespace Req

/-- What a request does to the shared state. -/
def apply (s : World) : Req → World
  | commit db => { s with db := db }
  | setNx k e ttl => { s with snaps := s.snaps.setNx s.now k (.lasting s.now e ttl) }
  | setTombstone k ttl =>
    { s with snaps := s.snaps.set k (.lasting s.now .tombstone (some ttl)) }.invalidated [k]
      (s.now + ttl)
  | deleteMany ks => { s with snaps := s.snaps.erase ks }.invalidated ks s.now
  | l1Get n => { s with l1 := (s.l1.get s.now n).2 }
  | l1Set n r expireSeconds => { s with l1 := s.l1.set s.now n r expireSeconds }
  | readRow _ | dbGet _ | readHosts _ | readHostsOf _ | cacheGet _ | getMany _ | enter _ _ => s

/-- What a request answers. -/
def answer (s : World) : (op : Req) → op.Ans
  | readRow h => (s.db.rowOf h).map s.reading
  | dbGet n => (s.db.bySchema n).map s.reading
  | readHosts pk => s.db.hostsOf pk
  | readHostsOf schemas => s.hostsOfSchemas schemas
  | cacheGet k => s.snap k
  | getMany ks => ks.filterMap fun k => (s.snap k).map (k, ·)
  | setNx k _ _ => decide (s.snap k = none)
  | l1Get n => (s.l1.get s.now n).1
  | commit _ | setTombstone _ _ | deleteMany _ | l1Set _ _ _ | enter _ _ => ()

/-- The keys a request invalidates. -/
def drops : Req → List Key
  | setTombstone k _ => [k]
  | deleteMany ks => ks
  | _ => []

end Req

/-- Requests over the shared state; time goes by between them. -/
def machine : Machine Pid Req Req.Ans Exn World where
  exec _ op s r s' := r = .ok (op.answer s) ∧ s' = op.apply s
  inner _ _ _ _ := False
  env s s' := ∃ n, s.now ≤ n ∧ s' = { s with now := n }
  kill _ _ _ := False

/-- A program of the model. -/
abbrev Prog := Program Req Req.Ans Exn

/-- Issue one request and return its answer. -/
def call (op : Req) : Prog op.Ans := Program.request op

/-! ### The worker -/

/-- What `get_schema_snapshot` returns. -/
inductive Snap
  | miss
  | hold
  | found (r : Reading)
  deriving DecidableEq, Repr

/-- `get_schema_snapshot`, with `_classify`. -/
def getSchemaSnapshot (n : SchemaName) : Prog Snap := do
  match ← call (.cacheGet (.schema n)) with
  | some (.positive r) => pure (.found r)
  | some .tombstone => pure .hold
  | _ => pure .miss

/-- `_db_get`. -/
def dbGet (n : SchemaName) : Prog Reading := do
  match ← call (.dbGet n) with
  | some r => pure r
  | none => Program.raise (.doesNotExist n)

/-- `get_tenant_for_schema` from the cache of the worker process on. -/
def localGet (cfg : Config) (n : SchemaName) : Prog Reading := do
  match ← call (.l1Get n) with
  | some r => pure r
  | none => do
    let r ← dbGet n
    call (.l1Set n r cfg.taskTenantCacheSeconds)
    pure r

/-- `get_tenant_for_schema`. -/
def getTenantForSchema (cfg : Config) (n : SchemaName) : Prog Reading :=
  if cfg.enabled then do
    match ← getSchemaSnapshot n with
    | .hold => dbGet n
    | .found r => pure r
    | .miss => localGet cfg n
  else localGet cfg n

/-- `TenantTask.__call__` of a message with a tenant's schema. -/
def runTask (cfg : Config) (n : SchemaName) : Prog Unit := do
  let r ← getTenantForSchema cfg n
  call (.enter n r)

/-! ### Resolvers and writers -/

/-- `put`. -/
def put (cfg : Config) (hostname : Host) (r : Reading) : Prog Bool :=
  if cfg.positiveOff then pure false
  else do
    let ttl := cfg.ttlFor r.tenant
    let filled ← call (.setNx (.host hostname) (.positive r) ttl)
    let _ ← call (.setNx (.schema r.tenant.schemaName) (.positive r) ttl)
    pure filled

/-- `store_miss`. -/
def storeMiss (cfg : Config) (hostname : Host) : Prog Unit :=
  if cfg.missCacheSeconds = 0 then pure ()
  else (call (.setNx (.host hostname) .negative (some cfg.missCacheSeconds))).void

/-- `_fill`. -/
def fill (cfg : Config) (hostname : Host) : Prog Unit := do
  match ← call (.readRow hostname) with
  | none => do
    storeMiss cfg hostname
    Program.raise (.notFound hostname)
  | some r => (put cfg hostname r).void

/-- `set_many` of tombstones. -/
def setTombstones (ttl : Nat) : List Key → Prog Unit
  | [] => pure ()
  | k :: ks => do
    call (.setTombstone k ttl)
    setTombstones ttl ks

/-- The `_invalidate` of `_tombstone_keys`: what runs after the commit. -/
def tombstoneKeys (cfg : Config) (keys : List Key) : Prog Unit :=
  if keys = [] then pure ()
  else if cfg.holdSeconds = 0 then call (.deleteMany keys)
  else setTombstones cfg.holdSeconds keys.eraseDups

/-- The keys `forget_tenant` names. -/
def keysFor (tenant : TenantSnapshot) : Prog (List Key) := do
  let hosts ← call (.readHosts tenant.id)
  pure (hosts.map Key.host ++ [Key.schema tenant.schemaName])

/-- The schema of a cached positive snapshot. -/
def positiveSchema : Cached Reading → Option SchemaName
  | .positive r => some r.tenant.schemaName
  | _ => none

/-- The keys `forget_hosts` names. -/
def forgetHosts (hostnames : List Host) (schemas : List SchemaName) : Prog (List Key) := do
  let hostKeys := hostnames.map Key.host
  let found ← if hostnames = [] then pure [] else call (.getMany hostKeys)
  let schemas := (schemas ++ found.filterMap fun kv => positiveSchema kv.2).eraseDups
  pure (hostKeys ++ schemas.map Key.schema)

/-- The keys `forget_schemas` names. -/
def forgetSchemas (schemas : List SchemaName) : Prog (List Key) := do
  let hosts ← call (.readHostsOf schemas)
  forgetHosts hosts schemas

/-- A writer in a transaction: the keys are named before the commit, and invalidated after it. -/
def writeAtomically (cfg : Config) (name : Prog (List Key)) (db : Database) : Prog Unit := do
  let keys ← name
  call (.commit db)
  tombstoneKeys cfg keys

/-- A writer outside a transaction: the keys are named after the commit. -/
def writeDirectly (cfg : Config) (name : Prog (List Key)) (db : Database) : Prog Unit := do
  call (.commit db)
  let keys ← name
  tombstoneKeys cfg keys

/-- The ways in which a writer names its keys. -/
inductive Names : Prog (List Key) → Prop
  | tenant (t) : Names (keysFor t)
  | hosts (hostnames schemas) : Names (forgetHosts hostnames schemas)
  | schemas (ns) : Names (forgetSchemas ns)

/-- The programs a process may start. -/
inductive Starts (cfg : Config) (p : Pid) : Prog Unit → Prop
  | task (n) : Starts cfg p (runTask cfg n)
  | fill (h) : Starts cfg p (fill cfg h)
  | atomic {name} (db) : Names name → Starts cfg p (writeAtomically cfg name db)
  | direct {name} (db) : Names name → Starts cfg p (writeDirectly cfg name db)

/-- A step of a trace. -/
abbrev Event := Entry Pid Req Req.Ans Exn World

/-- A run from a state in which no process runs any program. -/
abbrev SysRun (cfg : Config) (s₀ : World) (t : List Event)
    (c : Core.Config Pid Req Req.Ans Exn World) : Prop :=
  Run machine (Starts cfg) (.idle s₀) t c

end MtShards.Worker
