import Mathlib.Data.Finset.Basic
import MtShards.Core.HoldCache
import MtShards.Core.Interleaving
import MtShards.Models.Resolver.Database

/-!
# The shared state of hostname resolution

The two registry tables, the snapshot namespaces of the `tenant_resolve` cache, the `treg:*`
keys of the host registry, and the queue of reconcile tasks. Each SQL statement and each Redis
command is one request. A transaction that writes one row is one request too, the one that
commits it: until then nobody else sees it.
-/

namespace MtShards.Resolver

open MtShards.Core

/-- A process: a web worker, a Celery worker or a management command. -/
abbrev Pid := Nat

/-- A key of the snapshot namespaces, `host-snap:<host>` or `schema-snap:<schema>`. -/
inductive Key
  | host (h : Host)
  | schema (s : SchemaName)
  deriving DecidableEq, Repr

/-- The settings the resolver reads, and the two batch sizes of its classes. -/
structure Settings where
  positiveCacheSeconds : Nat := 3600
  missCacheSeconds : Nat := 60
  holdSeconds : Nat := 5
  /-- `WARM_TTL_BY_STATUS`: `none` for a status that is not listed, `some none` for no expiry. -/
  warmTtlByStatus : Status → Option (Option Nat) := fun
    | .active => some none
    | .deactivated => some (some 3600)
    | .failed => some (some 1800)
    | .new => some (some 120)
    | .pending => some (some 120)
    | .maintenance => some (some 1800)
  warmEnabled : Bool := false
  hostsArmSeconds : Nat := 300
  warmLockSeconds : Nat := 120
  warmPendingSeconds : Nat := 10
  rebuildChunk : Nat := 2000
  sweepBatch : Nat := 500

/-- `_DIRTY_TTL_SECONDS`. -/
def dirtyTtlSeconds : Nat := 3600

/-- The order in which `SCAN` goes through the keys: page by page, a key always in its page. -/
structure Keyspace where
  pages : Nat
  page : Key → Nat
  page_lt : ∀ k, page k < pages

/-- What programs run under. -/
structure Config extends Settings where
  keyspace : Keyspace

/-- The shared state. -/
structure World where
  now : Nat
  db : Database
  snaps : TtlStore Key (Cached TenantSnapshot)
  /-- `treg:hosts`, `treg:hosts:dirty`, `treg:warming` and `treg:warm_pending`. -/
  hosts : Option (Cell (Finset Host))
  dirty : Option (Cell Nat)
  lock : Option (Cell Pid)
  marker : Option (Cell Unit)
  /-- `treg:hosts:new`; a set without members is an absent key. -/
  hostsNew : Finset Host
  /-- Reconcile tasks that no worker has taken yet. -/
  queue : Nat

/-- The exceptions that the source tells apart; a `ResponseError` is a `RedisError`. -/
inductive Exn
  | redisError
  | integrityError
  | notFound (h : Host)
  | other (typeName : String)
  deriving DecidableEq, Repr

/-- A request. -/
inductive Req
  -- The registry tables.
  | readRow (h : Host)
  | readDomains
  | readSchemas
  | readHosts (tenantId : Nat)
  | loadTenant (pk : Nat)
  | loadDomain (pk : Nat)
  | updateStatus (pk : Nat) (expected : List Status) (st : Status)
  | insertDomain (d : Domain)
  | saveDomain (d : Domain) (domain : Host)
  | deleteDomain (d : Domain)
  -- The snapshot namespaces.
  | getMany (ks : List Key)
  | set (k : Key) (e : Cached TenantSnapshot) (ttl : Option Nat)
  | setNx (k : Key) (e : Cached TenantSnapshot) (ttl : Option Nat)
  | deleteMany (ks : List Key)
  | scanHosts (page : Nat)
  | scanSchemas (page : Nat)
  -- The keys of the host registry.
  | ping
  | existsHosts
  | saddHosts (h : Host)
  | sremHosts (h : Host)
  | expireHosts (ttl : Nat)
  | deleteHosts
  | deleteNew
  | saddNew (hs : List Host)
  | existsNew
  | rename
  | getDirty
  | incrDirty
  | expireDirty (ttl : Nat)
  | acquire (ttl : Nat)
  | release
  | setMarker (ttl : Nat)
  -- The broker.
  | enqueue
  | dequeue

/-- What a request answers. -/
@[reducible] def Req.Ans : Req → Type
  | readRow _ | loadTenant _ => Option TenantSnapshot
  | readDomains => List DomainRow
  | readSchemas | scanSchemas _ => List SchemaName
  | readHosts _ | scanHosts _ => List Host
  | loadDomain _ => Option Domain
  | getMany _ => List (Key × Cached TenantSnapshot)
  | getDirty => Option Nat
  | updateStatus _ _ _ | insertDomain _ | saveDomain _ _ | setNx _ _ _ | ping | existsHosts
  | existsNew | acquire _ | release | setMarker _ => Bool
  | deleteDomain _ | set _ _ _ | deleteMany _ | saddHosts _ | sremHosts _ | expireHosts _
  | deleteHosts | deleteNew | saddNew _ | rename | incrDirty | expireDirty _ | enqueue
  | dequeue => Unit

namespace World

/-- What a reader sees under a snapshot key. -/
def snap (s : World) (k : Key) : Option (Cached TenantSnapshot) := s.snaps.get s.now k

/-- The members of `treg:hosts`, when the key exists. -/
def members (s : World) : Option (Finset Host) := Cell.peek s.now s.hosts

/-- The value of `treg:hosts:dirty`. -/
def dirtyCount (s : World) : Option Nat := Cell.peek s.now s.dirty

/-- Who holds the lock `treg:warming`. -/
def lockHolder (s : World) : Option Pid := Cell.peek s.now s.lock

/-- `MGET`: the keys that are present, with their values. -/
def getMany (s : World) (ks : List Key) : List (Key × Cached TenantSnapshot) :=
  ks.filterMap fun k => (s.snap k).map (k, ·)

/-- The condition of a status update. -/
def statusMatches (s : World) (pk : Nat) (expected : List Status) : Bool :=
  (s.db.tenantOf pk).any fun t => t.status ∈ expected

/-- `SADD`: creates the key when it is absent. -/
def saddHosts (s : World) (h : Host) : World :=
  { s with hosts := match s.members with
    | some S => s.hosts.map fun c => { c with value := insert h S }
    | none => some ⟨{h}, none⟩ }

/-- `SREM`: a set without members is an absent key. -/
def sremHosts (s : World) (h : Host) : World :=
  { s with hosts := match s.members with
    | some S => if S.erase h = ∅ then none else s.hosts.map fun c => { c with value := S.erase h }
    | none => none }

/-- `EXPIRE treg:hosts`: nothing when the key is absent. -/
def expireHosts (s : World) (ttl : Nat) : World :=
  { s with hosts := match s.members with
    | some S => some ⟨S, some (s.now + ttl)⟩
    | none => none }

/-- `RENAME treg:hosts:new treg:hosts`: the target takes the source's expiry, that is none. -/
def rename (s : World) : World := { s with hosts := some ⟨s.hostsNew, none⟩, hostsNew := ∅ }

/-- `INCR`: an absent counter counts from zero. -/
def incrDirty (s : World) : World :=
  { s with dirty := match s.dirtyCount with
    | some n => s.dirty.map fun c => { c with value := n + 1 }
    | none => some ⟨1, none⟩ }

/-- `EXPIRE … NX`: only where the key has no expiry. -/
def expireDirty (s : World) (ttl : Nat) : World :=
  { s with dirty := s.dirty.map fun c =>
    if c.expiry = none then { c with expiry := some (s.now + ttl) } else c }

end World

namespace Req

/-- What a request does to the shared state. -/
def apply (p : Pid) (s : World) : Req → World
  | updateStatus pk expected st =>
    if s.statusMatches pk expected then { s with db := s.db.setStatus pk st } else s
  | insertDomain d => { s with db := (s.db.insertDomain d).getD s.db }
  | saveDomain d h => { s with db := (s.db.saveDomain { d with domain := h }).getD s.db }
  | deleteDomain d => { s with db := s.db.deleteDomain d.id }
  | set k e ttl => { s with snaps := s.snaps.set k (.lasting s.now e ttl) }
  | setNx k e ttl => { s with snaps := s.snaps.setNx s.now k (.lasting s.now e ttl) }
  | deleteMany ks => { s with snaps := s.snaps.erase ks }
  | saddHosts h => s.saddHosts h
  | sremHosts h => s.sremHosts h
  | expireHosts ttl => s.expireHosts ttl
  | deleteHosts => { s with hosts := none }
  | deleteNew => { s with hostsNew := ∅ }
  | saddNew hs => { s with hostsNew := s.hostsNew ∪ hs.toFinset }
  | rename => s.rename
  | incrDirty => s.incrDirty
  | expireDirty ttl => s.expireDirty ttl
  | acquire ttl =>
    if s.lockHolder = none then { s with lock := some (.lasting s.now p (some ttl)) } else s
  | release => if s.lockHolder = some p then { s with lock := none } else s
  | setMarker ttl =>
    if Cell.peek s.now s.marker = none then { s with marker := some (.lasting s.now () (some ttl)) }
    else s
  | enqueue => { s with queue := s.queue + 1 }
  | dequeue => { s with queue := s.queue - 1 }
  | readRow _ | readDomains | readSchemas | readHosts _ | loadTenant _ | loadDomain _ | getMany _
  | scanHosts _ | scanSchemas _ | ping | existsHosts | existsNew | getDirty => s

/-- The answers a request may give. Rows come in any order; a page of a scan may name keys that
are gone or were named before, but names every key of the page that is there. -/
def Answers (ks : Keyspace) (p : Pid) (s : World) : (op : Req) → op.Ans → Prop
  | readRow h, a => a = s.db.rowOf h
  | readDomains, a => a.Perm s.db.domainRows
  | readSchemas, a => a = s.db.tenants.map TenantSnapshot.schemaName
  | readHosts pk, a => a = s.db.hostsOf pk
  | loadTenant pk, a => a = s.db.tenantOf pk
  | loadDomain pk, a => a = s.db.domainOf pk
  | updateStatus pk expected _, a => a = s.statusMatches pk expected
  | insertDomain d, a => a = (s.db.insertDomain d).isSome
  | saveDomain d h, a => a = (s.db.saveDomain { d with domain := h }).isSome
  | getMany ks, a => a = s.getMany ks
  | setNx k _ _, a => a = decide (s.snap k = none)
  | scanHosts i, a => ∀ h, ks.page (.host h) = i → s.snap (.host h) ≠ none → h ∈ a
  | scanSchemas i, a => ∀ n, ks.page (.schema n) = i → s.snap (.schema n) ≠ none → n ∈ a
  | ping, a => a = true
  | existsHosts, a => a = s.members.isSome
  | existsNew, a => a = decide (s.hostsNew ≠ ∅)
  | getDirty, a => a = s.dirtyCount
  | acquire _, a => a = decide (s.lockHolder = none)
  | release, a => a = decide (s.lockHolder = some p)
  | setMarker _, a => a = decide (Cell.peek s.now s.marker = none)
  | _, _ => True

/-- A request can be carried out: a task can be taken, a key can be renamed. -/
def Enabled (s : World) : Req → Prop
  | dequeue => 0 < s.queue
  | rename => s.hostsNew ≠ ∅
  | _ => True

end Req

/-- Requests over the shared state. Redis does not fail; a `RENAME` of an absent key is the one
command that answers an error. -/
def machine (ks : Keyspace) : Machine Pid Req Req.Ans Exn World where
  exec p op s r s' := match r with
    | .ok a => op.Answers ks p s a ∧ op.Enabled s ∧ s' = op.apply p s
    | .error e => op = .rename ∧ s.hostsNew = ∅ ∧ e = .redisError ∧ s' = s
  inner _ _ _ _ := False
  env s s' := ∃ n, s.now ≤ n ∧ s' = { s with now := n }
  kill _ _ _ := False

/-- A program of the model. -/
abbrev Prog := Program Req Req.Ans Exn

/-- Issue one request and return its answer. -/
def call (op : Req) : Prog op.Ans := Program.request op

end MtShards.Resolver
