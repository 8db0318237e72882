import Mathlib.Logic.Function.Basic
import MtShards.Models.Tenant.Snapshot

/-!
# Leases, tenant rows and shard backends

The state shared by the migrator, the admin and the console: the lease table and the
tenant table on `default`, the open transactions on them with their row locks, and the
backends running on the shards. A statement acts on the latest committed rows, or on the
rows its own transaction has written; what follows is one function per SQL statement of
`tenants.migrator`, `tenants.console.admin` and `tenants.console.views`.
-/

namespace MtShards.Migrator

/-- A process, named by what `owner()` answers in it. -/
abbrev Pid := String

/-- A primary key of `Tenant`, and the key of its lease. -/
abbrev Pk := Nat

/-- `LEASE_TTL`, one hour in seconds. -/
def leaseTtl : Nat := 3600

/-- The shard columns that the migrator reads. -/
structure Shard where
  dbAlias : Alias
  isDefault : Bool
  deriving DecidableEq, Repr

/-- A row of `Tenant`. -/
structure Tenant where
  schemaName : SchemaName
  companyName : String
  description : String
  timezone : Option String
  shard : Shard
  status : Status
  previousStatus : Status
  statusChangedAt : Nat
  lastError : String
  deriving DecidableEq, Repr

/-- The columns of a `MigrationLease` row whose owner is not NULL. -/
structure Held where
  owner : Pid
  since : Nat
  untilAt : Nat
  deriving DecidableEq, Repr

/-- `LeaseHolder`. -/
structure LeaseHolder where
  owner : Pid
  since : Nat
  untilAt : Nat
  expired : Bool
  deriving DecidableEq, Repr

/-- An open transaction on `default`: when it began, the lease row it has inserted and
the tenant row it has written. -/
structure Tx where
  start : Nat
  inserted : Option Pk
  staged : Option (Pk × Tenant)
  deriving DecidableEq, Repr

/-- What `pg_stat_activity` shows of a backend. -/
inductive Activity
  | idle
  | active
  | idleInTransaction
  deriving DecidableEq, Repr

/-- A server session on a shard. -/
structure Backend where
  /-- The process that opened it. -/
  client : Pid
  dbAlias : Alias
  /-- `some k` when `application_name` is `tm:<k>`. -/
  label : Option Pk
  state : Activity
  /-- Whether its client still has the connection. -/
  attached : Bool
  deriving DecidableEq, Repr

/-- The shared state. -/
structure World where
  /-- The database clock, in seconds. -/
  now : Nat
  /-- Committed lease rows; the inner option is `none` when the owner is NULL. -/
  lease : Pk → Option (Option Held)
  /-- Committed tenant rows. -/
  tenant : Pk → Option Tenant
  /-- Open transactions on `default`. -/
  tx : Pid → Option Tx
  /-- Which transaction holds the row lock of a lease. -/
  leaseLock : Pk → Option Pid
  /-- Which transaction holds the row lock of a tenant. -/
  tenantLock : Pk → Option Pid
  /-- Shard backends by their process id on the server. -/
  backends : Nat → Option Backend

namespace World

variable (s : World) (p : Pid)

/-- The committed owner of a lease. -/
def leaseOwner (k : Pk) : Option Pid := (s.lease k).join.map Held.owner

/-- The committed status of a tenant. -/
def status (pk : Pk) : Option Status := (s.tenant pk).map Tenant.status

/-- `now()`: the start of the open transaction, or the clock outside of one. -/
def clock : Nat :=
  match s.tx p with
  | some x => x.start
  | none => s.now

/-- The lease row as `p` reads it. -/
def leaseRow (k : Pk) : Option (Option Held) :=
  match s.tx p with
  | some ⟨_, some k', _⟩ => if k' = k then some none else s.lease k
  | _ => s.lease k

/-- The tenant row as `p` reads it. -/
def tenantRow (pk : Pk) : Option Tenant :=
  match s.tx p with
  | some ⟨_, _, some (pk', t)⟩ => if pk' = pk then some t else s.tenant pk
  | _ => s.tenant pk

/-- `lease_holder`: the row of a held lease, with `until < now()`. -/
def leaseHolder (k : Pk) : Option LeaseHolder :=
  (s.leaseRow p k).join.map fun h => ⟨h.owner, h.since, h.untilAt, decide (h.untilAt < s.clock p)⟩

/-- `lease_lock_for_transition`'s answer: a holder whose lease has not expired. -/
def liveHolder (k : Pk) : Option LeaseHolder :=
  (s.leaseHolder p k).filter fun h => !h.expired

/-- `owner IS NULL OR until < now()`, or no row: the upsert takes the lease. -/
def claimable (k : Pk) : Bool :=
  match s.lease k with
  | some (some h) => decide (h.untilAt < s.now)
  | _ => true

/-- The upsert of `lease_acquire`. -/
def upsertLease (k : Pk) : World :=
  if s.claimable k then
    { s with lease := Function.update s.lease k (some (some ⟨p, s.now, s.now + leaseTtl⟩)) }
  else s

/-- `UPDATE … SET owner = NULL … WHERE key = k AND owner = o`. -/
def freeLease (k : Pk) (o : Pid) : World :=
  if s.leaseOwner k = some o then { s with lease := Function.update s.lease k (some none) } else s

/-- The columns a status write of the migrator sets. -/
structure StatusWrite where
  status : Status
  previousStatus : Status
  lastError : String
  deriving DecidableEq, Repr

/-- The `WHERE` of `_fenced_cas`. -/
def fenceHolds (pk : Pk) (expected : List Status) : Bool :=
  match s.tenant pk with
  | some t => decide (t.status ∈ expected) && decide (s.leaseOwner pk = some p)
  | none => false

/-- The row that a status write of the migrator leaves. -/
def StatusWrite.row (w : StatusWrite) (now : Nat) (t : Tenant) : Tenant :=
  { t with status := w.status, previousStatus := w.previousStatus, lastError := w.lastError,
           statusChangedAt := now }

/-- `_fenced_cas`. -/
def fencedCas (pk : Pk) (expected : List Status) (w : StatusWrite) : World :=
  if s.fenceHolds p pk expected then
    { s with tenant := Function.update s.tenant pk ((s.tenant pk).map (w.row s.now)) }
  else s

/-- The row that the console's `UPDATE` leaves: `previous_status = F("status")`. -/
def movedRow (now : Nat) (dest : Status) (t : Tenant) : Tenant :=
  { t with previousStatus := t.status, status := dest, statusChangedAt := now }

/-- The `UPDATE … WHERE pk = … AND status = from_status` of `_transition`. -/
def consoleUpdate (pk : Pk) (source dest : Status) : World :=
  if s.status pk = some source then
    { s with tenant := Function.update s.tenant pk ((s.tenant pk).map (movedRow s.now dest)) }
  else s

/-- `transaction.atomic()` is entered. -/
def begin : World := { s with tx := Function.update s.tx p (some ⟨s.now, none, none⟩) }

/-- Give back the row locks of `p` and end its transaction. -/
def endTx : World :=
  { s with
    tx := Function.update s.tx p none
    leaseLock := fun k => if s.leaseLock k = some p then none else s.leaseLock k
    tenantLock := fun pk => if s.tenantLock pk = some p then none else s.tenantLock pk }

/-- What a transaction has written becomes committed. -/
def commit : World :=
  match s.tx p with
  | none => s
  | some x =>
    { s.endTx p with
      lease := match x.inserted with
        | some k => Function.update s.lease k (some none)
        | none => s.lease
      tenant := match x.staged with
        | some (pk, t) => Function.update s.tenant pk (some t)
        | none => s.tenant }

/-- `INSERT … ON CONFLICT (key) DO NOTHING` of a free lease row. -/
def insertLease (k : Pk) : World :=
  match s.tx p, s.leaseRow p k with
  | some x, none =>
    { s with tx := Function.update s.tx p (some { x with inserted := some k })
             leaseLock := Function.update s.leaseLock k (some p) }
  | _, _ => s

/-- `SELECT … FOR UPDATE` of a lease row. -/
def lockLease (k : Pk) : World :=
  match s.tx p, s.leaseRow p k with
  | some _, some _ => { s with leaseLock := Function.update s.leaseLock k (some p) }
  | _, _ => s

/-- A tenant row is written inside the transaction of `p`, which locks it. -/
def stage (pk : Pk) (f : Tenant → Tenant) : World :=
  match s.tx p, s.tenantRow p pk with
  | some x, some t =>
    { s with tx := Function.update s.tx p (some { x with staged := some (pk, f t) })
             tenantLock := Function.update s.tenantLock pk (some p) }
  | _, _ => s

/-- Whether the admin's `UPDATE` finds the row in the expected status. -/
def adminMatches (pk : Pk) (old : Status) : Bool :=
  match s.tenantRow p pk with
  | some t => decide (t.status = old)
  | none => false

/-- The row that the admin's `UPDATE` leaves; a move to NEW clears the error. -/
def adminRow (now : Nat) (old dest : Status) (t : Tenant) : Tenant :=
  { t with status := dest, previousStatus := old, statusChangedAt := now,
           lastError := if dest = .new then "" else t.lastError }

/-- The `UPDATE … WHERE pk = … AND status = old` of `TenantAdmin.save_model`. -/
def adminUpdate (pk : Pk) (old dest : Status) : World :=
  if s.adminMatches p pk old then s.stage p pk (adminRow s.now old dest) else s

/-- The columns of a tenant that `save(update_fields=…)` may write besides the status. -/
structure Changes where
  companyName : Option String
  description : Option String
  timezone : Option (Option String)
  shard : Option Shard
  deriving DecidableEq, Repr

/-- The row that a save of the given columns leaves; `stamp` is the time `Tenant.save` adds
when the status of the instance is not the one it was loaded with. -/
def Changes.row (c : Changes) (stamp : Option Nat) (t : Tenant) : Tenant :=
  { t with companyName := c.companyName.getD t.companyName
           description := c.description.getD t.description
           timezone := c.timezone.getD t.timezone
           shard := c.shard.getD t.shard
           statusChangedAt := stamp.getD t.statusChangedAt }

/-- `Tenant.save(update_fields=…)` inside the transaction of `p`. -/
def saveTenant (pk : Pk) (c : Changes) (stamp : Bool) : World :=
  s.stage p pk (c.row (if stamp then some s.now else none))

/-- A backend of `p` that its connection to the alias is still attached to. -/
def connected (a : Alias) (b : Backend) : Bool :=
  b.attached && decide (b.client = p) && decide (b.dbAlias = a)

/-- The client side of the connection of `p` to the alias is gone; the server goes on. -/
def detach (a : Alias) : World :=
  { s with backends := fun i => (s.backends i).map fun b =>
      if connected p a b then { b with attached := false } else b }

/-- `close()`: a backend that is not running a statement ends with its client. -/
def closeConn (a : Alias) : World :=
  { s with backends := fun i => (s.backends i).bind fun b =>
      if connected p a b then
        if b.state = .active then some { b with attached := false } else none
      else some b }

/-- A statement of `p` on the alias: it runs on the connection that `p` has there, or on a
new one, and leaves that backend in the given state. -/
def Uses (a : Alias) (st : Activity) (relabel : Option Pk → Option Pk) (s' : World) : Prop :=
  (∃ i b, s.backends i = some b ∧ connected p a b = true ∧ s' = { s with
    backends := Function.update s.backends i (some { b with state := st, label := relabel b.label }) }) ∨
  ((∀ i b, s.backends i = some b → connected p a b = false) ∧ ∃ i, s.backends i = none ∧
    s' = { s with backends := Function.update s.backends i (some ⟨p, a, relabel none, st, true⟩) })

/-- The process is gone: its transaction is rolled back, its backends are left behind. -/
def kill : World :=
  { s.endTx p with backends := fun i => (s.backends i).map fun b =>
      if b.client = p then { b with attached := false } else b }

/-- `_SESSION_ACTIVE_SQL`: a backend labelled `tm:<k>` on the alias that is not idle, other
than the one that runs the query. -/
def Busy (a : Alias) (k : Pk) : Prop :=
  ∃ i b, s.backends i = some b ∧ b.dbAlias = a ∧ b.label = some k ∧ b.state ≠ .idle ∧
    connected p a b = false

end World

end MtShards.Migrator
