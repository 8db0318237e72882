import Mathlib.Logic.Function.Basic
import MtShards.Models.Tenant.Snapshot

/-!
# The fan-out of scheduled tasks

`tenants.celery.dispatch`: one `fanout_dispatch` for each tick of a beat entry decides which
tenants are due, hands them in batches to `sub_dispatch`, which sends the task once for each
tenant and stamps the watermark (`TaskRun`) of those the broker took.

An instant is an integer, in microseconds of UTC, as the columns and `datetime` have it; so are
the seconds of `grace`. The zone database and `croniter` are parameters.
-/

namespace MtShards.Fanout

/-! ### Values of a beat entry -/

/-- A key of a dictionary. -/
inductive PyKey
  | str (s : String)
  | int (i : Int)
  deriving DecidableEq, Repr

/-- A value of a beat entry. -/
inductive PyVal
  | none
  | bool (b : Bool)
  | int (i : Int)
  | str (s : String)
  | list (xs : List PyVal)
  | tuple (xs : List PyVal)
  | dict (kvs : List (PyKey × PyVal))

namespace PyVal

/-- `bool(v)`. -/
def truthy : PyVal → Bool
  | none => false
  | bool b => b
  | int i => i != 0
  | str s => s != ""
  | list xs | tuple xs => !xs.isEmpty
  | dict kvs => !kvs.isEmpty

end PyVal

/-- A dictionary in the order of its keys' insertion. -/
abbrev Dict := List (PyKey × PyVal)

namespace Dict

/-- `d.get(k)`. -/
def get? (d : Dict) (k : PyKey) : Option PyVal := (d.find? fun kv => kv.1 = k).map Prod.snd

/-- `d[k] = v`: a key that is there keeps its place. -/
def set : Dict → PyKey → PyVal → Dict
  | [], k, v => [(k, v)]
  | (k', v') :: d, k, v => if k' = k then (k, v) :: d else (k', v') :: set d k v

/-- `d.pop(k, None)`, without the value. -/
def erase (d : Dict) (k : PyKey) : Dict := d.filter fun kv => kv.1 ≠ k

end Dict

/-! ### Watermarks -/

/-- What identifies a row of `TaskRun`. -/
structure RunKey where
  schema : SchemaName
  task : String
  argsSig : String
  deriving DecidableEq, Repr

/-- The table `TaskRun`: `last_run_at` by the columns of its unique constraint. -/
abbrev TaskRuns := RunKey → Option Int

namespace TaskRuns

variable (rows : TaskRuns)

/-- `TaskRun.load_map`. -/
def loadMap (task argsSig : String) (schema : SchemaName) : Option Int :=
  rows ⟨schema, task, argsSig⟩

/-- A row of the `INSERT … ON CONFLICT DO NOTHING`. -/
def insertRow (key : RunKey) (ts : Int) : TaskRuns :=
  match rows key with
  | some _ => rows
  | none => Function.update rows key (some ts)

/-- A row of the `UPDATE … WHERE last_run_at < run_ts`. -/
def advanceRow (key : RunKey) (ts : Int) : TaskRuns :=
  match rows key with
  | some w => if w < ts then Function.update rows key (some ts) else rows
  | none => rows

/-- `TaskRun.mark_ran`: the missing rows are inserted, then the older ones advanced. -/
def markRan (task argsSig : String) (schemas : List SchemaName) (ts : Int) : TaskRuns :=
  let keys := schemas.map fun s => RunKey.mk s task argsSig
  keys.foldl (fun r k => advanceRow r k ts) (keys.foldl (fun r k => insertRow r k ts) rows)

end TaskRuns

/-! ### The calendar -/

/-- The zone database and `croniter`. -/
structure Calendar (Zone : Type) where
  /-- `ZoneInfo(tzname)`; `none` when it raises. -/
  zoneInfo : String → Option Zone
  /-- `croniter(cron, now.astimezone(tz)).get_prev(datetime).astimezone(utc)`. -/
  getPrev : String → Zone → Int → Int

variable {Zone : Type}

/-- What the due-check finds for one tenant. -/
inductive Verdict
  | invalidZone
  | alreadyRan
  | due
  /-- Past the grace and never dispatched: worth a warning. -/
  | dropped
  /-- Past the grace, without one. -/
  | tooLate
  deriving DecidableEq, Repr

/-- The body of the loop of `_due_by_tenant_tz`. -/
def verdict (cal : Calendar Zone) (cron : String) (now grace : Int) (lastRun : Option Int)
    (tzname : String) : Verdict :=
  match cal.zoneInfo tzname with
  | none => .invalidZone
  | some tz =>
    let tFire := cal.getPrev cron tz now
    let elapsed := now - tFire
    if lastRun.any fun w => tFire ≤ w then .alreadyRan
    else if elapsed ≤ grace then .due
    else if lastRun.isSome && elapsed ≤ 2 * grace then .dropped
    else .tooLate

/-- `_due_by_tenant_tz`. -/
def dueByTenantTz (cal : Calendar Zone) (rows : TaskRuns) (task argsSig cron : String)
    (now grace : Int) (tenants : List (SchemaName × String)) : List SchemaName :=
  (tenants.filter fun t =>
    verdict cal cron now grace (rows.loadMap task argsSig t.1) t.2 = .due).map Prod.fst

/-- The tenants that the warning of `_due_by_tenant_tz` is about. -/
def droppedByTenantTz (cal : Calendar Zone) (rows : TaskRuns) (task argsSig cron : String)
    (now grace : Int) (tenants : List (SchemaName × String)) : List SchemaName :=
  (tenants.filter fun t =>
    verdict cal cron now grace (rows.loadMap task argsSig t.1) t.2 = .dropped).map Prod.fst

/-! ### `sub_dispatch` -/

/-- The arguments of `fanout_dispatch`: one beat entry. -/
structure BeatEntry where
  taskName : String
  scope : String
  cron : Option String
  grace : Option Int
  taskArgs : Option (List PyVal)
  taskKwargs : Option Dict
  taskOptions : Option Dict
  batchSize : Option Nat

/-- The knobs of `TENANT_BEAT` that a wave reads. -/
structure BeatConf where
  tzGrace : Int
  batchSize : Nat
  deriving DecidableEq, Repr

/-- What `send_task` is called with. -/
structure Message where
  task : String
  args : List PyVal
  kwargs : Dict
  headers : Dict
  options : Dict

/-- How a send ends. -/
inductive SendOutcome
  | sent
  /-- `kombu.exceptions.OperationalError`. -/
  | operationalError
  /-- Any other exception. -/
  | raised
  deriving DecidableEq, Repr

/-- The parameters of `send_task` that `sub_dispatch` passes by name. -/
def sendTaskReserved : List String := ["args", "kwargs", "name"]

/-- A key that `send_task(…, **options)` has no place for: that of a parameter passed by name, or
no string. -/
def PyKey.refused : PyKey → Bool
  | .str k => sendTaskReserved.any fun name => k = name
  | .int _ => true

/-- `options.pop("headers", None) or {}`; `none` when it cannot be unpacked. -/
def callerHeaders (options : Dict) : Option Dict :=
  match options.get? (.str "headers") with
  | none => some []
  | some v =>
    if v.truthy then
      match v with
      | .dict kvs => some kvs
      | _ => none
    else some []

/-- The call of `send_task` for one schema; `none` when building it raises `TypeError`. -/
def BeatEntry.message (e : BeatEntry) (schema : SchemaName) : Option Message :=
  let options := (e.taskOptions.getD []).erase (.str "headers")
  if options.any fun kv => kv.1.refused then none
  else (callerHeaders (e.taskOptions.getD [])).map fun headers =>
    ⟨e.taskName, e.taskArgs.getD [], e.taskKwargs.getD [],
      headers.set (.str "_schema_name") (.str schema), options⟩

/-- How the send for one schema ends. -/
def BeatEntry.sendTo (e : BeatEntry) (send : Message → SendOutcome) (schema : SchemaName) :
    SendOutcome :=
  match e.message schema with
  | some m => send m
  | none => .raised

/-- The loop of `sub_dispatch`: the schemas that were sent, and whether the loop came to its
end. -/
def sendAll (send : SchemaName → SendOutcome) : List SchemaName → List SchemaName × Bool
  | [] => ([], true)
  | s :: rest =>
    match send s with
    | .sent => (s :: (sendAll send rest).1, (sendAll send rest).2)
    | .operationalError => sendAll send rest
    | .raised => ([], false)

/-- What a batch, or a wave of them, has done: the table it leaves, the schemas the broker has
taken the task for, and those whose watermark was stamped. -/
structure Done where
  rows : TaskRuns
  sent : List SchemaName
  stamped : List SchemaName

/-- `sub_dispatch`. -/
def subDispatch (e : BeatEntry) (argsSig : String) (send : Message → SendOutcome)
    (runTs : Option Int) (rows : TaskRuns) (schemas : List SchemaName) : Done :=
  let sent := (sendAll (e.sendTo send) schemas).1
  let finished := (sendAll (e.sendTo send) schemas).2
  match runTs with
  | some ts => if finished then ⟨rows.markRan e.taskName argsSig sent ts, sent, sent⟩
    else ⟨rows, sent, []⟩
  | none => ⟨rows, sent, []⟩

/-! ### `fanout_dispatch` -/

/-- What a tick of a beat entry meets. -/
structure Wave where
  now : Int
  /-- `active_tenants_with_tz()`. -/
  tenants : List (SchemaName × String)
  /-- `active_target_schemas(scope)`. -/
  targets : List SchemaName
  /-- Whether the overlap lock is free. -/
  acquired : Bool
  /-- Whether the broker takes the `sub_dispatch` of a batch. -/
  delay : List SchemaName → Bool
  send : Message → SendOutcome

/-- `due[i:i + batch_size] for i in range(0, len(due), batch_size)`; a step of zero, which
`range` refuses, gives no batch. -/
def batches (size : Nat) (due : List SchemaName) : List (List SchemaName) :=
  (List.range ((due.length + size - 1) / size)).map fun i => (due.drop (i * size)).take size

/-- The batches of a wave, one after the other; one that the broker refuses ends the wave. -/
def runBatches (e : BeatEntry) (argsSig : String) (w : Wave) (runTs : Option Int)
    (rows : TaskRuns) : List (List SchemaName) → Done
  | [] => ⟨rows, [], []⟩
  | b :: rest =>
    if w.delay b then
      let first := subDispatch e argsSig w.send runTs rows b
      let others := runBatches e argsSig w runTs first.rows rest
      ⟨others.rows, first.sent ++ others.sent, first.stamped ++ others.stamped⟩
    else ⟨rows, [], []⟩

section FanOut

variable (cal : Calendar Zone) (conf : BeatConf) (e : BeatEntry) (argsSig : String)

/-- `grace if grace is not None else beat_conf("TZ_GRACE_SECONDS")`. -/
def BeatEntry.graceOf : Int := e.grace.getD conf.tzGrace

/-- `batch_size or beat_conf("BATCH_SIZE")`. -/
def BeatEntry.batchSizeOf : Nat :=
  match e.batchSize with
  | some (n + 1) => n + 1
  | _ => conf.batchSize

/-- The tenants a wave is for: those due by their calendar, or all of them. -/
def waveDue (rows : TaskRuns) (w : Wave) : List SchemaName :=
  match e.cron with
  | some cron =>
    if cron = "" then w.targets
    else dueByTenantTz cal rows e.taskName argsSig cron w.now (e.graceOf conf) w.tenants
  | none => w.targets

/-- The watermark a wave stamps; an interval entry stamps none. -/
def waveRunTs (w : Wave) : Option Int :=
  match e.cron with
  | some cron => if cron = "" then none else some w.now
  | none => none

/-- `fanout_dispatch`: a tick that finds an earlier wave under way is skipped. -/
def fanoutDispatch (rows : TaskRuns) (w : Wave) : Done :=
  if w.acquired then
    runBatches e argsSig w (waveRunTs e w) rows
      (batches (e.batchSizeOf conf) (waveDue cal conf e argsSig rows w))
  else ⟨rows, [], []⟩

end FanOut

end MtShards.Fanout
