import Mathlib.Algebra.Ring.Int.Defs
import Mathlib.Data.List.Sort
import MtShards.Models.Migrator.Run

/-!
# The tenant stage of `migrate_schemas`

The scheduling part of the command: which target is taken next, and what a finished target does
to the ones still queued. `Entry` objects are shared between the report, the queues and the loop
that runs them, so they live in a table under their place in the target list, and a queue holds
such places. A counter is a total function, zero where Python's `Counter` has no key.
-/

namespace MtShards.Scheduler

open MtShards.Migrator (Kind Reason Result Side Exn Pk excMsg)

/-- The place of an entry in the target list. -/
abbrev Id := Nat

/-- `Target` of the tenant stage. -/
structure Target where
  schema : SchemaName
  shard : Alias
  tenantId : Pk
  statusBefore : Status
  deriving DecidableEq, Repr

/-- `Entry.kind`. -/
inductive EntryKind
  /-- A kind that a `Result` reports. -/
  | of (k : Kind)
  | notRun
  | interrupted
  | running
  deriving DecidableEq, Repr

/-- `Entry.reason`. -/
inductive EntryReason
  /-- The empty string. -/
  | unset
  /-- A reason that the migrator reports. -/
  | of (r : Reason)
  | doneByAnotherRun
  | provisioningElsewhere
  | shardUnreachable
  | stopped
  | hardStop
  deriving DecidableEq, Repr

/-- `Stop.reason`. -/
inductive StopReason
  | failFast
  | maxFailures
  | defaultUnreachable
  | signal
  | hardStop
  | brokenPool
  deriving DecidableEq, Repr

/-- The text of a stop reason. -/
def StopReason.text : StopReason → String
  | failFast => "fail_fast"
  | maxFailures => "max_failures"
  | defaultUnreachable => "default_unreachable"
  | signal => "signal"
  | hardStop => "hard_stop"
  | brokenPool => "broken_pool"

/-- `Stop`. -/
structure Stop where
  reason : StopReason
  shard : Option Alias
  deriving DecidableEq, Repr

/-- `Stop.__str__`; an empty shard counts as absent. -/
def Stop.text (s : Stop) : String :=
  match s.shard with
  | some shard => if shard = "" then s.reason.text else s!"{s.reason.text}:{shard}"
  | none => s.reason.text

/-- `Entry`, without the time it took and its log file. -/
structure Entry where
  target : Target
  kind : EntryKind
  reason : EntryReason
  msg : String
  invalidIndexes : List String
  connError : Option Side
  rechecked : Bool
  /-- Whether its snapshot was asked for. -/
  snapshot : Bool
  deriving DecidableEq, Repr

/-- `Entry(target)`. -/
def Entry.fresh (t : Target) : Entry := ⟨t, .notRun, .unset, "", [], none, false, false⟩

/-- `Entry.take`. -/
def Entry.take (e : Entry) (res : Result) : Entry :=
  { e with kind := .of res.kind, reason := .of res.reason, msg := res.msg,
           invalidIndexes := res.invalidIndexes, connError := res.connError }

/-- How a worker's call of `migrate_tenant` ends. -/
inductive Delivered
  | result (res : Result)
  | raised (e : Exn)
  deriving DecidableEq, Repr

/-- `_collect`: a worker's `Result`, or a failed entry if `migrate_tenant` raised. -/
def Entry.collect (e : Entry) : Delivered → Entry
  | .result res => e.take res
  | .raised exc => { e with kind := .of .failed, reason := .of .migrationError, msg := excMsg exc }

/-! ### `pick_next` -/

/-- `sorted(queues)`. -/
def sortedShards (keys : List Alias) : List Alias := keys.insertionSort (· ≤ ·)

/-- The shards in the order in which they are asked: after the one served last, round-robin. -/
def shardOrder (keys : List Alias) (after : Option Alias) : List Alias :=
  let order := sortedShards keys
  match after with
  | none => order
  | some a =>
    if a ∈ order then order.drop (order.idxOf a + 1) ++ order.take (order.idxOf a + 1) else order

/-- `pick_next`. -/
def pickNext (keys : List Alias) (queue : Alias → List Id) (inflight : Alias → Int)
    (jobs perShard : Int) (after : Option Alias) : Option Alias :=
  if jobs ≤ (keys.map inflight).sum then none
  else (shardOrder keys after).find? fun s => !(queue s).isEmpty && decide (inflight s < perShard)

/-! ### `TenantStage` -/

/-- `TenantStage`. -/
structure TenantStage where
  keepGoing : Bool
  maxFailures : Int
  /-- The shards that have a queue, in the order they came up. -/
  keys : List Alias
  queue : Alias → List Id
  inflight : Alias → Int
  consecutive : Alias → Int
  stop : Option Stop
  last : Option Alias

/-- The entries, and the stage that schedules them. -/
structure Sched where
  entry : Id → Entry
  stage : TenantStage

namespace TenantStage

variable (st : TenantStage)

/-- `queues.setdefault(shard, deque()).append(e)`. -/
def enqueue (i : Id) (shard : Alias) : TenantStage :=
  { st with keys := if shard ∈ st.keys then st.keys else st.keys ++ [shard]
            queue := Function.update st.queue shard (st.queue shard ++ [i]) }

/-- `TenantStage(keep_going, max_failures)`. -/
def empty (keepGoing : Bool) (maxFailures : Int) : TenantStage :=
  ⟨keepGoing, maxFailures, [], fun _ => [], fun _ => 0, fun _ => 0, none, none⟩

/-- `TenantStage.of`, on the entries of a target list. -/
def of (targets : List Target) (keepGoing : Bool) (maxFailures : Int) : TenantStage :=
  targets.zipIdx.foldl (fun st ti => st.enqueue ti.2 ti.1.shard) (empty keepGoing maxFailures)

/-- `remaining`. -/
def remaining : Bool := st.keys.any fun s => !(st.queue s).isEmpty

/-- `next`: the entry taken, and the stage without it. -/
def next (jobs perShard : Int) : Option (Id × TenantStage) :=
  match st.stop with
  | some _ => none
  | none =>
    match pickNext st.keys st.queue st.inflight jobs perShard st.last with
    | none => none
    | some shard =>
      match st.queue shard with
      | [] => none
      | i :: rest =>
        some (i, { st with
          last := some shard
          inflight := Function.update st.inflight shard (st.inflight shard + 1)
          queue := Function.update st.queue shard rest })

/-- The entries still queued. -/
def queued : List Id := st.keys.flatMap st.queue

end TenantStage

/-- `rest.kind, rest.reason, rest.msg = "not_run", reason, msg`. -/
def Entry.leave (reason : EntryReason) (msg : String) (e : Entry) : Entry :=
  { e with kind := .notRun, reason := reason, msg := msg }

/-- Write some entries. -/
def writeAll (entry : Id → Entry) (ids : List Id) (f : Entry → Entry) : Id → Entry :=
  fun i => if i ∈ ids then f (entry i) else entry i

namespace Sched

variable (s : Sched)

/-- The stop that stays after a `halt`: the first one, unless overridden. -/
def stopAfter (stop : Stop) (override : Bool) : Stop :=
  match s.stage.stop with
  | none => stop
  | some first => if override then stop else first

/-- `halt`. -/
def halt (stop : Stop) (override : Bool) : Sched :=
  let kept := s.stopAfter stop override
  { entry := writeAll s.entry s.stage.queued (Entry.leave .stopped s!"not run (Stop: {kept.text})")
    stage := { s.stage with stop := some kept, queue := fun _ => [] } }

/-- The rest of the queue of an unreachable shard is not run. -/
def dropShard (shard : Alias) : Sched :=
  { entry := writeAll s.entry (s.stage.queue shard) (Entry.leave .shardUnreachable "shard unreachable")
    stage := { s.stage with queue := Function.update s.stage.queue shard [] } }

/-- The in-flight count of a shard goes down by one. -/
def land (shard : Alias) : Sched :=
  { s with stage := { s.stage with
      inflight := Function.update s.stage.inflight shard (s.stage.inflight shard - 1) } }

/-- The run of failures of a shard. -/
def countFailures (shard : Alias) (n : Int) : Sched :=
  { s with stage := { s.stage with consecutive := Function.update s.stage.consecutive shard n } }

/-- What a finished entry means for its own shard. -/
def account (e : Entry) : Sched :=
  let shard := e.target.shard
  if e.connError = some .shard then s.dropShard shard
  else if e.kind = .of .failed then s.countFailures shard (s.stage.consecutive shard + 1)
  else if e.kind = .of .ok ∨ e.kind = .of .noop then s.countFailures shard 0
  else s

/-- Whether a failure stops the stage. -/
def judge (e : Entry) : Sched :=
  if e.kind ≠ .of .failed ∨ s.stage.stop ≠ none then s
  else if s.stage.keepGoing = false then
    if s.stage.remaining then s.halt ⟨.failFast, none⟩ false else s
  else if s.stage.maxFailures ≤ s.stage.consecutive e.target.shard then
    s.halt ⟨.maxFailures, some e.target.shard⟩ false
  else s

/-- `done`. -/
def done (i : Id) : Sched :=
  let e := s.entry i
  let landed := s.land e.target.shard
  if e.connError = some .default then landed.halt ⟨.defaultUnreachable, none⟩ false
  else (landed.account e).judge e

/-- `e.kind = "running"`. -/
def markRunning (i : Id) : Sched :=
  { s with entry := Function.update s.entry i { s.entry i with kind := .running } }

/-- `_collect`, then `_finish`. -/
def finish (i : Id) (d : Delivered) : Sched :=
  Sched.done { s with entry := Function.update s.entry i ((s.entry i).collect d) } i

end Sched

end MtShards.Scheduler
