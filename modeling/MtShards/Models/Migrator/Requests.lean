import MtShards.Core.Interleaving
import MtShards.Models.Migrator.World

/-!
# Requests of the migrator, the admin and the console

Each SQL statement, each use of a shard connection and each call into Redis is one request.
A request on `default` waits while another transaction holds the row lock it needs; it then
acts on the latest committed row. Any request may raise instead. When the connection is lost
the statement may have been carried out all the same; on a shard the backend may go on
running it without a client.
-/

namespace MtShards.Migrator

open MtShards.Core

/-- The exception classes that the source tells apart. -/
inductive ExnClass
  | shardUnavailable
  | incomplete
  | runtimeError
  | validationError
  | statusConflict
  | tenantMaintenance
  | permissionDenied
  | notFound
  | commandError
  /-- Raised by a driver, by Django or by a migration. -/
  | external (typeName : String)
  deriving DecidableEq, Repr

/-- `type(e).__name__`. -/
def ExnClass.typeName : ExnClass → String
  | shardUnavailable => "ShardUnavailable"
  | incomplete => "Incomplete"
  | runtimeError => "RuntimeError"
  | validationError => "ValidationError"
  | statusConflict => "StatusConflict"
  | tenantMaintenance => "TenantMaintenance"
  | permissionDenied => "PermissionDenied"
  | notFound => "Http404"
  | commandError => "CommandError"
  | external n => n

/-- An exception, with what `is_conn_error` and `is_lock_timeout` answer about it. -/
structure Exn where
  cls : ExnClass
  text : String
  /-- `str(e.__cause__)`. -/
  cause : String
  traceback : String
  connError : Bool
  lockTimeout : Bool
  /-- A `BaseException` that is no `Exception`, such as `KeyboardInterrupt`. -/
  base : Bool
  deriving DecidableEq, Repr

/-- `ShardSession`. -/
structure ShardSession where
  pid : Nat
  running : Nat
  query : String
  deriving DecidableEq, Repr

/-- What `_upstream_options` sets on top of the upstream defaults. -/
structure UpstreamOptions where
  database : Alias
  verbosity : Nat
  fake : Bool
  fakeInitial : Bool
  prune : Bool
  runSyncdb : Bool
  appLabel : Option String
  migrationName : Option String
  deriving DecidableEq, Repr

/-- A statement, or a group of statements that is handled as one, on a shard connection. -/
inductive ShardReq
  | sessionActive (k : Pk)
  | schemaExists (schema : SchemaName)
  /-- `set_schema(…, include_public=False)`, then the plan of `MigrationExecutor`. -/
  | migrationPlan (schema : SchemaName)
  | schemaHasRelations (schema : SchemaName)
  | invalidIndexes (schema : SchemaName)
  | createSchema (schema : SchemaName)
  /-- `_open_shard`: the session is labelled `tm:<k>`. -/
  | openShard (k : Pk)
  | runMigrations (opts : UpstreamOptions) (schema : SchemaName)
  deriving DecidableEq, Repr

/-- A request. -/
inductive Req
  | load (pk : Pk)
  | casLostRow (pk : Pk)
  | leaseHolder (k : Pk)
  | leaseUpsert (k : Pk)
  | leaseRelease (k : Pk)
  | leaseForceRelease (k : Pk) (expected : Pid)
  | fencedCas (pk : Pk) (expected : List Status) (w : World.StatusWrite)
  | codeOlderThanDb
  | consoleUpdate (pk : Pk) (source dest : Status)
  | begin
  | commit
  | rollback
  | insertLease (k : Pk)
  | lockLease (k : Pk)
  | adminUpdate (pk : Pk) (old dest : Status)
  | saveTenant (pk : Pk) (c : World.Changes) (stamp : Bool)
  | forgetTenant (pk : Pk)
  | shard (a : Alias) (q : ShardReq)
  | shardIdle (a : Alias)
  | closeShard (a : Alias)
  deriving DecidableEq, Repr

/-- What a shard request answers. -/
@[reducible] def ShardReq.Ans : ShardReq → Type
  | sessionActive _ => Option ShardSession
  | schemaExists _ | schemaHasRelations _ => Bool
  | migrationPlan _ => List (String × String)
  | invalidIndexes _ => List String
  | createSchema _ | openShard _ | runMigrations _ _ => Unit

/-- What a request answers. -/
@[reducible] def Req.Ans : Req → Type
  | load _ => Option Tenant
  | casLostRow _ => Option (Status × Bool)
  | leaseHolder _ | lockLease _ => Option LeaseHolder
  | leaseUpsert _ | leaseRelease _ | leaseForceRelease _ _ | fencedCas _ _ _ => Bool
  | codeOlderThanDb | consoleUpdate _ _ _ | adminUpdate _ _ _ | saveTenant _ _ _ => Bool
  | begin | commit | rollback | insertLease _ | forgetTenant _ | closeShard _ => Unit
  | shard _ q => q.Ans
  | shardIdle _ => Bool

/-- A program of the model. -/
abbrev Prog := Program Req Req.Ans Exn

/-- Issue one request and return its answer. -/
def call (op : Req) : Prog op.Ans := Program.request op

namespace Req

/-- What a request does to the shared state, shard statements apart. -/
def apply (p : Pid) (s : World) : Req → World
  | leaseUpsert k => s.upsertLease p k
  | leaseRelease k => s.freeLease k p
  | leaseForceRelease k o => s.freeLease k o
  | fencedCas pk expected w => s.fencedCas p pk expected w
  | consoleUpdate pk source dest => s.consoleUpdate pk source dest
  | begin => s.begin p
  | commit => s.commit p
  | rollback => s.endTx p
  | insertLease k => s.insertLease p k
  | lockLease k => s.lockLease p k
  | adminUpdate pk old dest => s.adminUpdate p pk old dest
  | saveTenant pk c stamp => s.saveTenant p pk c stamp
  | closeShard a => s.closeConn p a
  | load _ | casLostRow _ | leaseHolder _ | codeOlderThanDb | forgetTenant _ | shard _ _
  | shardIdle _ => s

/-- The row lock a request needs, when the row its snapshot shows matches its `WHERE`, and
another transaction holds it. -/
def waitsFor (p : Pid) (s : World) : Req → Option Pid
  | leaseUpsert k => (s.leaseLock k).filter (· ≠ p)
  | leaseRelease k => if s.leaseOwner k = some p then (s.leaseLock k).filter (· ≠ p) else none
  | leaseForceRelease k o => if s.leaseOwner k = some o then (s.leaseLock k).filter (· ≠ p) else none
  | insertLease k => if s.leaseRow p k = none then (s.leaseLock k).filter (· ≠ p) else none
  | lockLease k => if s.leaseRow p k = none then none else (s.leaseLock k).filter (· ≠ p)
  | fencedCas pk expected _ =>
    if s.fenceHolds p pk expected then (s.tenantLock pk).filter (· ≠ p) else none
  | consoleUpdate pk source _ =>
    if s.status pk = some source then (s.tenantLock pk).filter (· ≠ p) else none
  | adminUpdate pk old _ =>
    if s.adminMatches p pk old then (s.tenantLock pk).filter (· ≠ p) else none
  | saveTenant pk _ _ => (s.tenantLock pk).filter (· ≠ p)
  | _ => none

/-- The answers a request may give. What the schemas of a shard hold, and which migrations
this code knows, is not part of the state: those answers are free. -/
def Answers (p : Pid) (s : World) : (op : Req) → op.Ans → Prop
  | load pk, a => a = s.tenantRow p pk
  | casLostRow pk, a =>
    a = (s.tenantRow p pk).map fun t => (t.status, decide (s.leaseOwner pk = some p))
  | leaseHolder k, a => a = s.leaseHolder p k
  | leaseUpsert k, a => a = s.claimable k
  | leaseRelease k, a => a = decide (s.leaseOwner k = some p)
  | leaseForceRelease k o, a => a = decide (s.leaseOwner k = some o)
  | fencedCas pk expected _, a => a = s.fenceHolds p pk expected
  | consoleUpdate pk source _, a => a = decide (s.status pk = some source)
  | lockLease k, a => a = s.liveHolder p k
  | adminUpdate pk old _, a => a = s.adminMatches p pk old
  | saveTenant pk _ _, a => a = (s.tenantRow p pk).isSome
  | shard al (.sessionActive k), a => Option.isSome a ↔ s.Busy p al k
  | shardIdle al, a => a = true ↔
    ∀ i b, s.backends i = some b → World.connected p al b = true → b.state ≠ .active
  | _, _ => True

/-- How the label of the session changes when a shard request returns. -/
def relabel : ShardReq → Option Pk → Option Pk
  | .openShard k => fun _ => some k
  | _ => id

/-- A request returns. -/
def Returns (p : Pid) (s : World) (s' : World) : Req → Prop
  | shard a q => ∃ st, st ≠ .active ∧ s.Uses p a st (relabel q) s'
  | op => op.waitsFor p s = none ∧ s' = op.apply p s

/-- A request raises. -/
def Fails (p : Pid) (s : World) (e : Exn) (s' : World) : Req → Prop
  | commit => s' = s.endTx p ∨ s' = s.commit p
  | rollback => s' = s.endTx p
  | forgetTenant _ | shardIdle _ => s' = s
  -- Interrupted in the session reset, the connection stays as it was.
  | closeShard a => s' = s.closeConn p a ∨ (e.base = true ∧ s' = s)
  -- Interrupted by a BaseException, the statement may go on running on the server.
  | shard a _ => (∃ st, (st = .active → e.base = true) ∧ s.Uses p a st id s') ∨
      (e.connError = true ∧ s' = s.detach p a)
  | op => s' = s ∨ (e.connError = true ∧
      (s' = s.endTx p ∨ (op.waitsFor p s = none ∧ s' = (op.apply p s).endTx p)))

end Req

/-- Requests over the shared state. -/
def machine : Machine Pid Req Req.Ans Exn World where
  exec p op s r s' := match r with
    | .ok a => op.Answers p s a ∧ op.Returns p s s'
    | .error e => (∃ n, e.cls = .external n) ∧ op.Fails p s e s'
  inner p op s s' := match op with
    | .shard a _ => ∃ st, s.Uses p a st id s'
    | _ => False
  env s s' := (∃ n, s.now ≤ n ∧ s' = { s with now := n }) ∨
    (∃ i b, s.backends i = some b ∧ b.attached = false ∧
      s' = { s with backends := Function.update s.backends i none }) ∨
    (∃ pk, s.tenantLock pk = none ∧ s' = { s with tenant := Function.update s.tenant pk none })
  kill p s s' := s' = s.kill p

end MtShards.Migrator
