import MtShards.Models.Resolver.Writers

/-!
# What a process of the resolver has read and what it still owes

A ghost automaton over the requests of one process. A resolver remembers the row it has read; a
writer that has committed remembers the keys it has not put a tombstone on and whether the dirty
counter has still to be bumped and the host set to be armed; a reconcile remembers its round,
the counter and the rows it has read, and how far its sweep has come.
-/

namespace MtShards.Resolver

open MtShards.Core

/-- What a writer still owes after its commit. -/
structure Owed where
  /-- The hostnames whose row was added or removed. -/
  hosts : List Host
  /-- The keys without a tombstone. -/
  keys : List Key
  bump : Bool
  arm : Bool
  deriving DecidableEq, Repr

/-- Nothing is owed. -/
def Owed.Settled (o : Owed) : Prop := o.keys = [] ∧ o.bump = false ∧ o.arm = false

/-- What the writer of the rows of some hostnames owes. -/
def Owed.ofHosts (cfg : Settings) (hs : List Host) : Owed :=
  ⟨hs, hs.map Key.host, cfg.warmEnabled, cfg.warmEnabled⟩

/-- What a status writer owes once it has named its keys. -/
def Owed.ofTenant (tenant : TenantSnapshot) (hs : List Host) : Owed :=
  ⟨[], hs.map Key.host ++ [Key.schema tenant.schemaName], false, false⟩

/-- Where a process stands. -/
inductive Phase
  | idle
  /-- A resolver has read the row of a hostname. -/
  | read (h : Host) (row : Option TenantSnapshot)
  /-- It has tried to fill the hostname, its schema comes next. -/
  | filling (tenant : TenantSnapshot)
  /-- A status writer knows its tenant. -/
  | loaded (tenant : TenantSnapshot)
  /-- It has committed and has not named its keys yet. -/
  | changed (tenant : TenantSnapshot)
  /-- A writer has committed. -/
  | owes (o : Owed)
  /-- A reconcile holds the lock, so many rounds are to come. -/
  | holding (left : Nat)
  /-- A round has read the counter; `left` more may follow it. -/
  | opened (left : Nat) (before : Option Nat)
  | cleared (left : Nat) (before : Option Nat)
  /-- It has read the rows, and added some of them to the set it builds. -/
  | building (left : Nat) (before : Option Nat) (rows : List DomainRow) (added : List Host)
  | swapping (left : Nat) (before : Option Nat) (rows : List DomainRow)
  | emptying (left : Nat) (before : Option Nat) (rows : List DomainRow)
  /-- The set is in place, the counter is compared next. -/
  | built (left : Nat) (before : Option Nat) (rows : List DomainRow)
  /-- The sweep has come to a page; `found` are names it has yet to deal with. -/
  | sweeping (rows : List DomainRow) (page : Nat) (found : List Host)
  /-- The `RENAME` failed. -/
  | aborted
  /-- An answer that Redis does not give. -/
  | lost
  deriving DecidableEq, Repr

/-- The hostnames of the rows a round has read. -/
abbrev hostsOfRows (rows : List DomainRow) : List Host := rows.map DomainRow.domain

/-- A rebuild over these rows writes the snapshot under the key. -/
def WritesSnap (rows : List DomainRow) (k : Key) (v : TenantSnapshot) : Prop :=
  ∃ r ∈ rows, r.tenant = v ∧ (k = .host r.domain ∨ k = .schema v.schemaName)

namespace Phase

/-- Tombstones were put on keys. -/
def held (ks : List Key) : Phase → Phase
  | owes o => owes { o with keys := o.keys.filter (· ∉ ks) }
  | φ => φ

def bumped : Phase → Phase
  | owes o => owes { o with bump := false }
  | φ => φ

def armed : Phase → Phase
  | owes o => owes { o with arm := false }
  | φ => φ

/-- Keys were deleted: an invalidation without hold, or a step of the sweep. -/
def deleted (ks : List Key) : Phase → Phase
  | sweeping rows i found => sweeping rows i (found.filter fun h => Key.host h ∉ ks)
  | φ => φ.held ks

/-- The sweep has looked at keys: those that are not positive are dealt with. -/
def looked (ks : List Key) (got : List (Key × Cached TenantSnapshot)) : Phase → Phase
  | sweeping rows i found =>
    sweeping rows i (found.filter fun h => Key.host h ∉ ks ∨ Key.host h ∈ orphansOf got)
  | φ => φ

def scanned (names : List Host) : Phase → Phase
  | sweeping rows i found =>
    sweeping rows (i + 1) (found ++ names.filter (· ∉ hostsOfRows rows))
  | φ => φ

/-- The counter was read, at the start of a round or at its end. -/
def counted (n : Option Nat) : Phase → Phase
  | holding (left + 1) => opened left n
  | built left before rows =>
    if n = before ∨ left = 0 then sweeping rows 0 [] else holding left
  | φ => φ

def fetched (rows : List DomainRow) : Phase → Phase
  | cleared left before => building left before rows []
  | φ => φ

def probed (present : Bool) : Phase → Phase
  | building left before rows _ =>
    if present then swapping left before rows else emptying left before rows
  | φ => φ

def swapped : Phase → Phase
  | swapping left before rows | emptying left before rows => built left before rows
  | φ => φ

def named (hs : List Host) : Phase → Phase
  | changed tenant => owes (.ofTenant tenant hs)
  | φ => φ

def filled : Phase → Phase
  | read _ (some tenant) => filling tenant
  | _ => idle

def addedNew (hs : List Host) : Phase → Phase
  | building left before rows added => building left before rows (added ++ hs)
  | φ => φ

def emptied : Phase → Phase
  | opened left before => cleared left before
  | φ => φ

def committed : Phase → Phase
  | loaded tenant => changed tenant
  | φ => φ

/-- The phase after an answer. -/
def after (cfg : Settings) (φ : Phase) : (op : Req) → op.Ans → Phase
  | .readRow h, row => read h row
  | .loadTenant _, tenant => tenant.elim φ loaded
  | .updateStatus _ _ _, done => if done then φ.committed else φ
  | .readHosts _, hs => φ.named hs
  | .insertDomain d, done => if done then owes (.ofHosts cfg [d.domain]) else φ
  | .saveDomain d h, done => if done then owes (.ofHosts cfg [h, d.domain]) else φ
  | .deleteDomain d, _ => owes (.ofHosts cfg [d.domain])
  | .getMany ks, got => φ.looked ks got
  | .set k _ _, _ => φ.held [k]
  | .setNx _ _ _, _ => φ.filled
  | .deleteMany ks, _ => φ.deleted ks
  | .scanHosts _, names => φ.scanned names
  | .ping, alive => if alive then φ else lost
  | .incrDirty, _ => φ.bumped
  | .expireHosts _, _ => φ.armed
  | .acquire _, got => if got then holding 3 else φ
  | .getDirty, n => φ.counted n
  | .deleteNew, _ => φ.emptied
  | .readDomains, rows => φ.fetched rows
  | .saddNew hs, _ => φ.addedNew hs
  | .existsNew, present => φ.probed present
  | .rename, _ => φ.swapped
  | .deleteHosts, _ => φ.swapped
  | .release, _ => idle
  | _, _ => φ

/-- The phase after an error. -/
def failed : Req → Phase
  | .rename => aborted
  | _ => lost

def next (cfg : Settings) (φ : Phase) (op : Req) (r : Except Exn op.Ans) : Phase :=
  if φ = lost then lost else match r with
    | .ok a => φ.after cfg op a
    | .error _ => failed op

/-- The requests a phase permits in a system of programs of the given kinds. -/
def Permits (cfg : Config) (kinds : Kind → Prop) (φ : Phase) : Req → Prop
  | .readRow _ => φ = idle ∧ kinds .fill
  | .loadTenant _ => φ = idle ∧ kinds .status
  | .insertDomain _ => φ = idle ∧ kinds .create
  | .saveDomain _ _ => φ = idle ∧ kinds .repoint
  | .deleteDomain _ => φ = idle ∧ kinds .delete
  | .acquire _ => φ = idle ∧ kinds .reconcile
  | .loadDomain _ | .dequeue => φ = idle
  | .ping | .getMany _ => True
  | .updateStatus pk _ _ => ∃ tenant, φ = loaded tenant ∧ pk = tenant.id
  | .readHosts pk => ∃ tenant, φ = changed tenant ∧ pk = tenant.id
  | .set k e ttl =>
    (∃ o, φ = owes o ∧ e = .tombstone ∧ ttl = some cfg.holdSeconds) ∨
      ∃ left before rows added v, φ = building left before rows added ∧ e = .positive v ∧
        WritesSnap rows k v
  | .setNx k e _ =>
    (∃ h row, φ = read h row ∧ k = .host h ∧ e = row.elim .negative .positive) ∨
      ∃ tenant, φ = filling tenant ∧ k = .schema tenant.schemaName ∧ e = .positive tenant
  | .deleteMany _ => (∃ o, φ = owes o ∧ cfg.holdSeconds = 0) ∨ ∃ rows i found, φ = sweeping rows i found
  | .existsHosts | .setMarker _ | .enqueue | .expireDirty _ => ∃ o, φ = owes o
  | .saddHosts _ | .sremHosts _ => ∃ o, φ = owes o ∧ o.bump = true ∧ o.arm = true
  | .incrDirty => ∃ o, φ = owes o ∧ o.bump = true
  | .expireHosts _ => ∃ o, φ = owes o ∧ o.bump = false
  | .getDirty => (∃ left, φ = holding (left + 1)) ∨ ∃ left before rows, φ = built left before rows
  | .deleteNew => ∃ left before, φ = opened left before
  | .readDomains => ∃ left before, φ = cleared left before
  | .saddNew _ => ∃ left before rows added, φ = building left before rows added
  | .existsNew => ∃ left before rows, φ = building left before rows (hostsOfRows rows)
  | .rename => ∃ left before rows, φ = swapping left before rows
  | .deleteHosts => ∃ left before rows, φ = emptying left before rows
  | .readSchemas | .scanSchemas _ => ∃ rows i found, φ = sweeping rows i found
  | .scanHosts i => ∃ rows found, φ = sweeping rows i found
  | .release => φ = aborted ∨ ∃ rows, φ = sweeping rows cfg.keyspace.pages []

/-- The phases in which a program may stop. -/
def MayStop : Phase → Prop
  | idle | read _ _ | filling _ | loaded _ | lost => True
  | owes o => o.Settled
  | _ => False

end Phase

/-- The automaton. -/
def protocol (cfg : Config) (kinds : Kind → Prop) : Protocol Req Req.Ans Exn Phase where
  init := .idle
  permits φ op := φ = .lost ∨ φ.Permits cfg kinds op
  next := Phase.next cfg.toSettings
  mayStop := Phase.MayStop
  mayStop_init := trivial

end MtShards.Resolver
