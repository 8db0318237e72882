import MtShards.Models.Resolver.Cache

/-!
# The host registry

`tenants.resolver.registry.HostRegistry`: the gate, its upkeep by the `Domain` hooks, and the
reconcile. `_rebuild_once` reads the domains with one statement, whose rows are those of the
moment it was issued however late a chunk of them is fetched.
-/

namespace MtShards.Resolver

open MtShards.Core

/-- The verdicts of `check`. -/
inductive Verdict
  | member
  | nonmember
  | unknown
  deriving DecidableEq, Repr

/-- `HostRegistry.check` over what its pipeline reads. -/
def World.check (s : World) (hostname : Host) : Verdict :=
  match s.members with
  | none => .unknown
  | some S => if hostname ∈ S then .member else .nonmember

/-- `except RedisError: logger.warning(…)` around a body that returns nothing. -/
def catchRedis (body : Prog Unit) : Prog Unit := do
  match ← body.attempt with
  | .ok _ => pure ()
  | .error .redisError => pure ()
  | .error e => Program.raise e

/-- The dirty-bump of `_apply_membership`. -/
def bumpDirty : Prog Unit := do
  call .incrDirty
  call (.expireDirty dirtyTtlSeconds)

/-- `add`. -/
def add (cfg : Settings) (hostname : Host) : Prog Unit :=
  if !cfg.warmEnabled then pure ()
  else catchRedis do
    if ← call .existsHosts then call (.saddHosts hostname)
    bumpDirty

/-- `remove`. -/
def remove (cfg : Settings) (hostname : Host) : Prog Unit :=
  if !cfg.warmEnabled then pure ()
  else catchRedis do
    call (.sremHosts hostname)
    bumpDirty

/-- `arm`. -/
def arm (cfg : Settings) : Prog Unit :=
  if !cfg.warmEnabled then pure () else catchRedis (call (.expireHosts cfg.hostsArmSeconds))

/-- `trigger_warm`: every exception is swallowed. -/
def triggerWarm (cfg : Settings) : Prog Unit :=
  if !cfg.warmEnabled then pure ()
  else do
    let _ ← Program.attempt (do
      if ← call (.setMarker cfg.warmPendingSeconds) then call .enqueue)
    pure ()

/-- One entry per schema, the last one of each: `{dm.tenant.schema_name: dm.tenant …}.values()`. -/
def distinctTenants (tenants : List TenantSnapshot) : List TenantSnapshot :=
  (tenants.map TenantSnapshot.schemaName).eraseDups.filterMap fun n =>
    tenants.reverse.find? (·.schemaName = n)

/-- `flush`. -/
def flush (cfg : Settings) (batch : List DomainRow) : Prog Nat :=
  if batch = [] then pure 0
  else do
    call (.saddNew (batch.map DomainRow.domain))
    let n ← putMany cfg batch
    let _ ← putSchemaMany cfg (distinctTenants (batch.map DomainRow.tenant))
    pure n

/-- The loop of `_rebuild_once` over the rows, with the batch it is filling. -/
def rebuildRows (cfg : Settings) : List DomainRow → List DomainRow → Prog Nat
  | [], batch => flush cfg batch
  | d :: rows, batch =>
    if cfg.rebuildChunk ≤ (batch ++ [d]).length then do
      let n ← flush cfg (batch ++ [d])
      let m ← rebuildRows cfg rows []
      pure (n + m)
    else rebuildRows cfg rows (batch ++ [d])

/-- `_rebuild_once`. -/
def rebuildOnce (cfg : Settings) : Prog (Nat × List Host) := do
  call .deleteNew
  let rows ← call .readDomains
  let n ← rebuildRows cfg rows []
  if ← call .existsNew then call .rename else call .deleteHosts
  pure (n, rows.map DomainRow.domain)

/-- The rounds of `reconcile`: at most as many as are left, fewer when the counter stood still. -/
def rounds (cfg : Settings) : Nat → Prog (Nat × List Host)
  | 0 => pure (0, [])
  | left + 1 => do
    let before ← call .getDirty
    let (n, dbHosts) ← rebuildOnce cfg
    let after ← call .getDirty
    if after = before ∨ left = 0 then pure (n, dbHosts) else rounds cfg left

/-- `reconcile`. -/
def reconcile (cfg : Config) : Prog Nat := do
  if !cfg.warmEnabled then pure 0
  else if !(← redisAlive) then pure 0
  else do
    let (n, dbHosts) ← rounds cfg.toSettings 3
    let dbSchemas ← call .readSchemas
    let _ ← sweepOrphans cfg dbHosts dbSchemas
    pure n

/-- `run_locked`; `lock.release()` raises a `LockError`, which is swallowed, when the lock is no
longer its own. -/
def runLocked (cfg : Config) : Prog (Option Nat) := do
  if !cfg.warmEnabled then pure none
  else if !(← redisAlive) then pure none
  else if ← call (.acquire cfg.warmLockSeconds) then
    Program.tryFinally (do let n ← reconcile cfg; pure (some n)) (call .release).void
  else pure none

/-- `reconcile_host_registry_task`, from the moment a worker takes it. -/
def reconcileHostRegistryTask (cfg : Config) : Prog Unit := do
  call .dequeue
  let _ ← runLocked cfg
  pure ()

end MtShards.Resolver
