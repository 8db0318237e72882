import MtShards.Models.Migrator.Operators

/-!
# What a process of the system may do, and when

A ghost automaton over the requests of one process: a session check comes before the upsert
of a lease, a fenced status write comes after the status has been read under the lease, a
move to MAINTENANCE comes after the lease row has been locked and found free. Every program
of the system keeps to it, whatever its requests answer.
-/

namespace MtShards.Migrator

open MtShards.Core Program

/-- What a leaseholder knows of the status of its tenant. -/
inductive Seen
  | unread
  /-- Re-read under the lease, or written by the holder itself. -/
  | read (s : Status)
  /-- A write of the holder was cut off: it may or may not have been carried out. -/
  | unknown
  deriving DecidableEq, Repr

/-- Where a process stands. -/
inductive Phase
  | out
  /-- The session check of `lease_acquire` has found nothing on the alias. -/
  | checked (k : Pk) (a : Alias)
  /-- The lease was acquired. -/
  | leased (k : Pk) (seen : Seen)
  /-- Done with the lease, or never to acquire one. -/
  | bystander
  /-- A transaction is open. -/
  | tx
  /-- The connection of the open transaction, which has written nothing, is gone. -/
  | lost
  /-- The lease row has been inserted if it was absent. -/
  | inserted (k : Pk)
  /-- The lease row is locked, and no live holder was found in it. -/
  | free (k : Pk)
  /-- The tenant row is locked and written; the status move, if there is one. -/
  | written (pk : Pk) (move : Option (Status × Status))
  /-- The open transaction will be rolled back. -/
  | doomed
  deriving DecidableEq, Repr

/-- Requests that touch neither a lease, a tenant row nor a transaction, and do not look for
the sessions of another process. -/
def Req.quiet : Req → Bool
  | casLostRow _ | codeOlderThanDb | forgetTenant _ | closeShard _ => true
  | shard _ (.sessionActive _) => false
  | shard _ _ => true
  | _ => false

/-- The status writes of the migrator: what it has seen, what the write expects, and the new
status. -/
inductive CasAllowed : Status → List Status → Status → Prop
  | foreignSchema : CasAllowed .new [.new] .failed
  | claim {s} : s ∈ provisionable → CasAllowed s provisionable .pending
  | provisioned : CasAllowed .pending [.pending] .active
  | provisionFailed {s} : s = .pending ∨ s = .active → CasAllowed s [.pending] .failed
  | schemaMissing {s} : s ∈ upgradableStatuses → CasAllowed s [s] .failed

/-- The status moves of the console. -/
inductive ConsoleMove : Status → Status → Prop
  | deactivate : ConsoleMove .active .deactivated
  | activate : ConsoleMove .deactivated .active

/-- The status moves of the admin. -/
def AdminMove (old dest : Status) : Prop := dest ∈ statusTransitions old ∧ dest ≠ old

/-- What a leaseholder has seen lets it work on the tenant; MAINTENANCE does so only for a
run with `--maintenance`. -/
def Seen.works (maint : Bool) : Seen → Prop
  | read s => s = .maintenance → maint = true
  | _ => False

namespace Phase

/-- The requests of a process without lease or transaction. -/
def outPermits : Req → Prop
  | .load _ | .leaseHolder _ | .begin | .shard _ (.sessionActive _) => True
  | .consoleUpdate _ source dest => ConsoleMove source dest
  | op => op.quiet = true

/-- The requests of a leaseholder. -/
def leasedPermits (maint : Bool) (k : Pk) (seen : Seen) : Req → Prop
  | .shardIdle _ | .closeShard _ => True
  | .load pk => pk = k ∧ seen = .unread
  | .leaseRelease k' => k' = k
  | .fencedCas pk expected w => pk = k ∧ ∃ s, seen = .read s ∧ CasAllowed s expected w.status
  | op => op.quiet = true ∧ seen.works maint

/-- The requests of a process that will acquire no lease. -/
def bystanderPermits : Req → Prop
  | .leaseHolder _ | .shard _ (.sessionActive _) | .leaseForceRelease _ _ => True
  | op => op.quiet = true

/-- The requests of a transaction that has written nothing yet. -/
def txPermits : Req → Prop
  | .load _ | .leaseHolder _ | .shard _ _ | .closeShard _ | .codeOlderThanDb => True
  | .insertLease _ | .saveTenant _ _ _ | .commit | .rollback => True
  | .adminUpdate _ old dest => AdminMove old dest ∧ dest ≠ .maintenance
  | _ => False

/-- The requests a phase permits. -/
def permits (maint : Bool) : Phase → Req → Prop
  | out, op => outPermits op
  | checked k _, op => op = .leaseUpsert k
  | leased k seen, op => leasedPermits maint k seen op
  | bystander, op => bystanderPermits op
  | tx, op => txPermits op
  | lost, op => op = .commit ∨ op = .rollback
  | inserted k, op => op = .lockLease k ∨ op = .rollback
  | free k, op => op = .rollback ∨ ∃ old, op = .adminUpdate k old .maintenance ∧
      AdminMove old .maintenance
  | written pk _, op => op = .commit ∨ op = .rollback ∨ ∃ c, op = .saveTenant pk c false
  | doomed, op => op = .rollback

/-- After an answer to a process without lease or transaction. -/
def outNext : (op : Req) → Except Exn op.Ans → Phase
  | .shard a (.sessionActive k), .ok busy => if busy.isNone then .checked k a else .bystander
  | .shard _ (.sessionActive _), .error _ => .bystander
  | .leaseHolder _, _ => .bystander
  | .begin, .ok _ => .tx
  | .begin, .error _ => .bystander
  | _, _ => .out

/-- After an answer to a process that has checked for sessions. -/
def checkedNext (k : Pk) : (op : Req) → Except Exn op.Ans → Phase
  | .leaseUpsert _, .ok won => cond won (.leased k .unread) .bystander
  | _, _ => .bystander

/-- After an answer to a leaseholder. -/
def leasedNext (k : Pk) (seen : Seen) : (op : Req) → Except Exn op.Ans → Phase
  | .load _, .ok row => match row with
    | some t => .leased k (.read t.status)
    | none => .leased k .unknown
  | .load _, .error _ => .leased k .unknown
  | .fencedCas _ _ w, .ok won => cond won (.leased k (.read w.status)) (.leased k seen)
  | .fencedCas _ _ _, .error e => if e.connError then .leased k .unknown else .leased k seen
  | .leaseRelease _, _ => .bystander
  | _, _ => .leased k seen

/-- After an answer to a transaction that has written nothing yet. -/
def txNext : (op : Req) → Except Exn op.Ans → Phase
  | .shard _ _, _ | .closeShard _, _ => .tx
  | .codeOlderThanDb, .ok _ | .load _, .ok _ | .leaseHolder _, .ok _ => .tx
  | .codeOlderThanDb, .error _ => .lost
  | .insertLease k, .ok _ => .inserted k
  | .saveTenant pk _ _, .ok found => cond found (.written pk none) .doomed
  | .adminUpdate pk old dest, .ok updated =>
    cond updated (.written pk (some (old, dest))) .doomed
  | .commit, _ | .rollback, _ => .bystander
  | _, _ => .doomed

/-- After an answer to a transaction that has inserted the lease row. -/
def insertedNext (k : Pk) : (op : Req) → Except Exn op.Ans → Phase
  | .lockLease _, .ok holder => if holder.isNone then .free k else .doomed
  | .rollback, _ => .bystander
  | _, _ => .doomed

/-- After an answer to a transaction that has locked a free lease. -/
def freeNext : (op : Req) → Except Exn op.Ans → Phase
  | .adminUpdate pk old dest, .ok updated =>
    cond updated (.written pk (some (old, dest))) .doomed
  | .rollback, _ => .bystander
  | _, _ => .doomed

/-- After an answer to a transaction that has written a tenant row. -/
def writtenNext (pk : Pk) (move : Option (Status × Status)) : (op : Req) → Except Exn op.Ans → Phase
  | .saveTenant _ _ _, .ok found => cond found (.written pk move) .doomed
  | .commit, _ | .rollback, _ => .bystander
  | _, _ => .doomed

/-- The phase after an answer. -/
def next : Phase → (op : Req) → Except Exn op.Ans → Phase
  | out, op, r => outNext op r
  | checked k _, op, r => checkedNext k op r
  | leased k seen, op, r => leasedNext k seen op r
  | bystander, _, _ => .bystander
  | tx, op, r => txNext op r
  | lost, _, _ => .bystander
  | inserted k, op, r => insertedNext k op r
  | free _, op, r => freeNext op r
  | written pk move, op, r => writtenNext pk move op r
  | doomed, _, _ => .bystander

/-- The phases without transaction. -/
def isIdle : Phase → Bool
  | out | checked _ _ | leased _ _ | bystander => true
  | _ => false

end Phase

/-- The protocol of the system; `maint` allows runs with `--maintenance`. -/
def protocol (maint : Bool) : Protocol Req Req.Ans Exn Phase where
  init := .out
  permits := Phase.permits maint
  next := Phase.next
  mayStop φ := φ.isIdle = true
  mayStop_init := rfl

end MtShards.Migrator
