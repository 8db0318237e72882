import MtShards.Models.Migrator.Requests

/-!
# `migrate_tenant`

The lease functions, `pending_plan`, `_provision`, `_upgrade` and `_migrate_tenant` of
`tenants.migrator`, as programs over requests. An `except Exception` lets a
`BaseException` through; a mutable local that an `except` block reads is passed to the
handler of each step.
-/

namespace MtShards.Migrator

open MtShards.Core

/-- `s[:n]`. -/
def firstChars (n : Nat) (s : String) : String := String.ofList (s.toList.take n)

/-- `s[-n:]`. -/
def lastChars (n : Nat) (s : String) : String := String.ofList (s.toList.drop (s.toList.length - n))

/-- `repr(s)` of a text without control characters. -/
def pyRepr (s : String) : String :=
  let q := if s.contains '\'' && !s.contains '"' then "\"" else "'"
  let esc := s.toList.map fun c =>
    if c = '\\' then "\\\\" else if c = '\'' && q = "'" then "\\'" else c.toString
  q ++ String.join esc ++ q

/-- The date of a day counted from 1970-01-01, by 400-year eras that begin in March. -/
def civilDate (days : Nat) : Nat × Nat × Nat :=
  let z := days + 719468
  let doe := z % 146097
  let yoe := (doe - doe / 1460 + doe / 36524 - doe / 146096) / 365
  let doy := doe - (365 * yoe + yoe / 4 - yoe / 100)
  let mp := (5 * doy + 2) / 153
  let m := if mp < 10 then mp + 3 else mp - 9
  (yoe + z / 146097 * 400 + (if m ≤ 2 then 1 else 0), m, doy - (153 * mp + 2) / 5 + 1)

/-- A number in decimal, with zeros in front up to a width. -/
def zeroPadded (width n : Nat) : String :=
  let digits := (Nat.toDigits 10 n)
  String.ofList (List.replicate (width - digits.length) '0' ++ digits)

/-- `%Y-%m-%d` and `%H:%M:%S` of a UTC time, with what stands between and after them. -/
def utcTime (sep close : String) (t : Nat) : String :=
  let (y, m, d) := civilDate (t / 86400)
  let day := s!"{zeroPadded 4 y}-{zeroPadded 2 m}-{zeroPadded 2 d}"
  let clock := s!"{zeroPadded 2 (t / 3600 % 24)}:{zeroPadded 2 (t / 60 % 60)}:{zeroPadded 2 (t % 60)}"
  day ++ sep ++ clock ++ close

/-- `%Y-%m-%dT%H:%M:%SZ`. -/
def isoTime : Nat → String := utcTime "T" "Z"

/-- `%Y-%m-%d %H:%M:%S UTC`. -/
def plainTime : Nat → String := utcTime " " " UTC"

/-- `Result.kind`. -/
inductive Kind
  | ok
  | noop
  | failed
  | skipped
  deriving DecidableEq, Repr

/-- The members of `Reason` that the tenant migrator reports. -/
inductive Reason
  | applied
  | resumed
  | targeted
  | upToDate
  | locked
  | statusFailed
  | statusMaintenance
  | statusChanged
  | leaseLost
  | tenantDeleted
  | codeOlderThanDb
  | schemaMissing
  | schemaExists
  | lockTimeout
  | migrationError
  | incompleteAfterRun
  | connError
  | defaultShardAnomaly
  deriving DecidableEq, Repr

/-- Which database a lost connection was to: `"shard"` or `"default"`. -/
inductive Side
  | shard
  | default
  deriving DecidableEq, Repr

/-- The text of a side. -/
def Side.text : Side → String
  | shard => "shard"
  | default => "default"

/-- `Result`, without the time it took. -/
structure Result where
  kind : Kind
  schema : SchemaName
  shard : Alias
  reason : Reason
  msg : String
  invalidIndexes : List String
  connError : Option Side
  deriving DecidableEq, Repr

/-- `RunOptions`, without the log folder. -/
structure RunOptions where
  verbosity : Nat
  fake : Bool
  fakeInitial : Bool
  prune : Bool
  runSyncdb : Bool
  appLabel : Option String
  migrationName : Option String
  maintenance : Bool
  deriving DecidableEq, Repr

namespace RunOptions

/-- `RunOptions()`. -/
def defaults : RunOptions := ⟨1, false, false, false, false, none, none, false⟩

/-- `RunOptions.targeted`; an empty label or name counts as absent. -/
def targeted (o : RunOptions) : Bool :=
  o.fake || o.fakeInitial || o.prune || o.runSyncdb || (o.appLabel.getD "" != "") ||
    (o.migrationName.getD "" != "")

/-- `_upstream_options`. -/
def upstream (o : RunOptions) (a : Alias) : UpstreamOptions :=
  ⟨a, o.verbosity, o.fake, o.fakeInitial, o.prune, o.runSyncdb, o.appLabel, o.migrationName⟩

end RunOptions

/-- What the reporting closure `r` of `_migrate_tenant` captures. -/
structure Target where
  schema : SchemaName
  dbAlias : Alias
  deriving DecidableEq, Repr

/-- `r(kind, reason, msg)`. -/
def Target.result (c : Target) (kind : Kind) (reason : Reason) (msg : String) : Result :=
  ⟨kind, c.schema, c.dbAlias, reason, msg, [], none⟩

/-- `r("failed", Reason.CONN_ERROR, msg, conn_error=side)`. -/
def Target.lost (c : Target) (side : Side) (msg : String) : Result :=
  { c.result .failed .connError msg with connError := some side }

/-- `PROVISIONABLE`. -/
def provisionable : List Status := [.new, .pending]

/-- `UPGRADABLE`. -/
def upgradableStatuses : List Status := [.active, .deactivated]

/-- A migration plan, `[(app_label, name)]`. -/
abbrev Plan := List (String × String)

/-! ### Requests under the names of the source -/

/-- `_load`. -/
def load (pk : Pk) : Prog (Option Tenant) := call (.load pk)

/-- `lease_holder`. -/
def leaseHolder (k : Pk) : Prog (Option LeaseHolder) := call (.leaseHolder k)

/-- `shard_session_active`. -/
def shardSessionActive (a : Alias) (k : Pk) : Prog (Option ShardSession) :=
  call (.shard a (.sessionActive k))

/-- `lease_release`. -/
def leaseRelease (k : Pk) : Prog Bool := call (.leaseRelease k)

/-- `_fenced_cas`: whether a row was updated. -/
def fencedCas (pk : Pk) (expected : List Status) (w : World.StatusWrite) : Prog Bool :=
  call (.fencedCas pk expected w)

/-- `code_older_than_db`. -/
def codeOlderThanDb : Prog Bool := call .codeOlderThanDb

/-- `schema_has_relations`. -/
def schemaHasRelations (a : Alias) (schema : SchemaName) : Prog Bool :=
  call (.shard a (.schemaHasRelations schema))

/-- `CREATE SCHEMA IF NOT EXISTS` on the shard. -/
def createSchema (a : Alias) (schema : SchemaName) : Prog Unit :=
  call (.shard a (.createSchema schema))

/-- `_open_shard`. -/
def openShard (a : Alias) (k : Pk) : Prog Unit := call (.shard a (.openShard k))

/-- `_close_shard`. -/
def closeShard (a : Alias) : Prog Unit := call (.closeShard a)

/-- `_shard_idle`. -/
def shardIdle (a : Alias) : Prog Bool := call (.shardIdle a)

/-- `run_migrations`. -/
def runMigrations (opts : UpstreamOptions) (schema : SchemaName) : Prog Unit :=
  call (.shard opts.database (.runMigrations opts schema))

/-- `_forget`. -/
def forget (pk : Pk) : Prog Unit := call (.forgetTenant pk)

/-! ### `try` / `except` -/

/-- `try: x … except Exception as e: onError`, where `k` is the rest of the `try` block;
`k` handles its own exceptions. -/
def guarded {α β : Type} (onError : Exn → Prog β) (x : Prog α) (k : α → Prog β) : Prog β := do
  match ← x.attempt with
  | .ok a => k a
  | .error e => if e.base then Program.raise e else onError e

/-- `try: x except Exception as e: onError`. -/
def catching {α : Type} (x : Prog α) (onError : Exn → Prog α) : Prog α :=
  guarded onError x pure

/-! ### The lease -/

/-- `ShardUnavailable(alias) from e`. -/
def shardUnavailable (a : Alias) (e : Exn) : Exn :=
  { e with cls := .shardUnavailable, text := a, cause := e.text }

/-- `_locked_msg`. -/
def lockedMsg : Option LeaseHolder → String
  | none => "locked (lease changed hands concurrently)"
  | some h => s!"locked by {h.owner} since {isoTime h.since}"

/-- The reason `lease_acquire` gives when a labelled backend is still working. -/
def busyMsg (h : Option LeaseHolder) (busy : ShardSession) : String :=
  let still (state : String) : String :=
    s!"locked ({state}, backend still active: pid {busy.pid}, " ++
      s!"running {busy.running / 60} min)"
  match h with
  | some h => if h.expired then still "lease expired" else lockedMsg (some h)
  | none => still "lease free"

/-- `lease_acquire`: `none` when acquired, else the reason. -/
def leaseAcquire (k : Pk) (a : Alias) : Prog (Option String) := do
  let busy ← catching (shardSessionActive a k) fun e =>
    if e.connError then Program.raise (shardUnavailable a e) else Program.raise e
  match busy with
  | some busy => do
    let h ← leaseHolder k
    pure (some (busyMsg h busy))
  | none => do
    let won : Bool ← call (.leaseUpsert k)
    if won then
      pure none
    else do
      let h ← leaseHolder k
      pure (some (lockedMsg h))

/-! ### The schema of a tenant -/

/-- `pending_plan`; `none` is `MISSING`. -/
def pendingPlan (t : Tenant) : Prog (Option Plan) := do
  let found : Bool ← call (.shard t.shard.dbAlias (.schemaExists t.schemaName))
  if found then
    Program.tryFinally
      (do let plan : Plan ← call (.shard t.shard.dbAlias (.migrationPlan t.schemaName))
          pure (some plan))
      (closeShard t.shard.dbAlias)
  else
    pure none

/-- `invalid_indexes`: errors only hide the list. -/
def invalidIndexes (a : Alias) (schema : SchemaName) : Prog (List String) :=
  catching (call (.shard a (.invalidIndexes schema))) fun _ => pure []

/-- `_gate`. -/
def gate (t : Tenant) (opts : RunOptions) (c : Target) : Option Result :=
  if t.status = .failed then
    some (c.result .skipped .statusFailed "status_failed: reset via admin FAILED→NEW")
  else if t.status = .maintenance && !opts.maintenance then
    some (c.result .skipped .statusMaintenance
      "status_maintenance: migrate explicitly with -s <schema> --maintenance")
  else
    none

/-- `_upgradable`. -/
def upgradable (t : Tenant) (opts : RunOptions) : Bool :=
  decide (t.status ∈ upgradableStatuses) || (decide (t.status = .maintenance) && opts.maintenance)

/-- `_cas_lost`. -/
def casLost (pk : Pk) (c : Target) : Prog Result := do
  let row : Option (Status × Bool) ← call (.casLostRow pk)
  match row with
  | none => pure (c.result .skipped .tenantDeleted "tenant deleted during the run")
  | some (status, mine) =>
    if mine then
      pure (c.result .skipped .statusChanged
        s!"status changed concurrently (now {pyRepr status.value})")
    else
      pure (c.result .skipped .leaseLost "lease taken over during the run; status not written")

/-- The reason `_failure` reports. -/
def failureReason (e : Exn) : Reason :=
  if e.lockTimeout then .lockTimeout
  else if e.cls = .incomplete then .incompleteAfterRun
  else .migrationError

/-- `f"{type(e).__name__}: {e}"[:500]`. -/
def excMsg (e : Exn) : String := firstChars 500 s!"{e.cls.typeName}: {e.text}"

/-- `_failure`. -/
def failure (e : Exn) (a : Alias) (schema : SchemaName) (c : Target) : Prog Result := do
  closeShard a
  let indexes ← invalidIndexes a schema
  pure { c.result .failed (failureReason e) (excMsg e) with invalidIndexes := indexes }

/-- `f"{side} connection lost: {e}"[:500]`. -/
def lostMsg (side : Side) (e : Exn) : String :=
  firstChars 500 s!"{side.text} connection lost: {e.text}"

/-! ### `_provision` -/

/-- The `except Exception` block of `_provision`. -/
def provisionFailed (pk : Pk) (t : Tenant) (c : Target) (side : Side) (claimed : Bool) (e : Exn) :
    Prog Result :=
  if e.connError then
    pure (c.lost side (lostMsg side e))
  else do
    let res ← failure e t.shard.dbAlias t.schemaName c
    if claimed then
      catching
        (do let won ← fencedCas pk [.pending] ⟨.failed, .pending, lastChars 4000 e.traceback⟩
            if won then do
              forget pk
              pure res
            else do
              let lost ← casLost pk c
              pure { lost with msg := res.msg, invalidIndexes := res.invalidIndexes })
        fun e2 =>
          if e2.connError then pure { res with reason := .connError, connError := some .default }
          else Program.raise e2
    else
      pure res

/-- `RuntimeError(f"schema {schema!r} disappeared from {alias!r} during provisioning")`. -/
def disappeared (a : Alias) (schema : SchemaName) : Exn :=
  let msg := s!"schema {pyRepr schema} disappeared from {pyRepr a} during provisioning"
  ⟨.runtimeError, msg, "", msg, false, false, false⟩

/-- `Incomplete(remaining)`. -/
def incomplete (remaining : Nat) : Exn :=
  let msg := s!"{remaining} migration(s) still unapplied after the run"
  ⟨.incomplete, msg, "", msg, false, false, false⟩

/-- The shard work of `_provision`: create the schema, migrate it, check the result. -/
def provisionSchema (pk : Pk) (t : Tenant) (opts : RunOptions) : Prog Unit := do
  createSchema t.shard.dbAlias t.schemaName
  openShard t.shard.dbAlias pk
  runMigrations (opts.upstream t.shard.dbAlias) t.schemaName
  match ← pendingPlan t with
  | none => Program.raise (disappeared t.shard.dbAlias t.schemaName)
  | some [] => pure ()
  | some (m :: plan) => Program.raise (incomplete (m :: plan).length)

/-- The text of `schema_exists`. -/
def schemaExistsMsg (a : Alias) (schema : SchemaName) : String :=
  s!"schema_exists: schema {pyRepr schema} on {pyRepr a} already has relations; " ++
    "check whose it is, then admin FAILED→NEW (with confirmation)"

/-- `_provision` after the claim. -/
def provisionClaimed (pk : Pk) (t : Tenant) (opts : RunOptions) (c : Target) : Prog Result :=
  guarded (provisionFailed pk t c .shard true) (provisionSchema pk t opts) fun _ =>
  guarded (provisionFailed pk t c .default true) codeOlderThanDb fun older =>
  if older then
    pure (c.result .skipped .codeOlderThanDb ("code_older_than_db: a newer release migrated " ++
      "public during provisioning; left PENDING for the new code to finish"))
  else
    guarded (provisionFailed pk t c .default true)
      (fencedCas pk [.pending] ⟨.active, .pending, ""⟩) fun won =>
    if won then
      guarded (provisionFailed pk t c .default true) (forget pk) fun _ =>
      if t.status = .pending then pure (c.result .ok .resumed "provisioned (RESUMED)")
      else pure (c.result .ok .applied "provisioned")
    else
      guarded (provisionFailed pk t c .default true) (casLost pk c) pure

/-- The claim of `_provision`, and what follows it. -/
def provisionClaim (pk : Pk) (t : Tenant) (opts : RunOptions) (c : Target) : Prog Result :=
  guarded (provisionFailed pk t c .default false)
    (fencedCas pk provisionable ⟨.pending, .new, ""⟩) fun won =>
  if won then
    provisionClaimed pk t opts c
  else
    guarded (provisionFailed pk t c .default false) (casLost pk c) pure

/-- `_provision`. -/
def provision (pk : Pk) (t : Tenant) (opts : RunOptions) (c : Target) : Prog Result :=
  if opts.targeted then
    pure (c.result .skipped .targeted "targeted flags are not allowed for provisioning")
  else
    guarded (provisionFailed pk t c .default false) codeOlderThanDb fun older =>
    if older then
      pure (c.result .skipped .codeOlderThanDb
        "code_older_than_db: a newer release has already migrated public")
    else
      guarded (provisionFailed pk t c .shard false)
        (if t.status = .new ∧ t.previousStatus ≠ .failed then
          schemaHasRelations t.shard.dbAlias t.schemaName else pure false) fun foreign =>
      if foreign then
        guarded (provisionFailed pk t c .default false)
          (fencedCas pk [.new]
            ⟨.failed, .new, schemaExistsMsg t.shard.dbAlias t.schemaName⟩) fun won =>
        if won then
          guarded (provisionFailed pk t c .default false) (forget pk) fun _ =>
          pure (c.result .failed .schemaExists (schemaExistsMsg t.shard.dbAlias t.schemaName))
        else
          guarded (provisionFailed pk t c .default false) (casLost pk c) pure
      else
        provisionClaim pk t opts c

/-! ### `_upgrade` -/

/-- The `except Exception` block of `_upgrade`. -/
def upgradeFailed (t : Tenant) (c : Target) (side : Side) (e : Exn) : Prog Result :=
  if e.connError then pure (c.lost side (lostMsg side e))
  else failure e t.shard.dbAlias t.schemaName c

/-- The text of `schema_missing`. -/
def schemaMissingMsg (a : Alias) (schema : SchemaName) : String :=
  s!"schema \"{schema}\" missing on {a} during upgrade"

/-- `_upgrade` when the schema is missing. -/
def upgradeMissing (pk : Pk) (t : Tenant) (c : Target) : Prog Result :=
  let msg := schemaMissingMsg t.shard.dbAlias t.schemaName
  if t.status = .maintenance then
    pure (c.result .failed .schemaMissing msg)
  else
    guarded (upgradeFailed t c .default)
      (fencedCas pk [t.status] ⟨.failed, t.status, msg⟩) fun won =>
    if won then
      guarded (upgradeFailed t c .default) (forget pk) fun _ =>
      pure (c.result .failed .schemaMissing msg)
    else
      guarded (upgradeFailed t c .default) (casLost pk c) pure

/-- `_upgrade` when there is a plan to run. -/
def upgradeRun (pk : Pk) (t : Tenant) (opts : RunOptions) (c : Target) (plan : Plan) :
    Prog Result :=
  guarded (upgradeFailed t c .shard)
    (do openShard t.shard.dbAlias pk
        runMigrations (opts.upstream t.shard.dbAlias) t.schemaName) fun _ =>
  if opts.targeted then
    guarded (upgradeFailed t c .shard) (pendingPlan t) fun remaining =>
    let n := match remaining with
      | some plan => toString plan.length
      | none => "?"
    pure (c.result .ok .targeted s!"targeted, remaining={n}")
  else
    pure (c.result .ok .applied s!"applied {plan.length} migration(s)")

/-- `_upgrade`. -/
def upgrade (pk : Pk) (t : Tenant) (opts : RunOptions) (c : Target) : Prog Result :=
  guarded (upgradeFailed t c .shard) (pendingPlan t) fun plan =>
  match plan with
  | none => upgradeMissing pk t c
  | some plan =>
    if plan.isEmpty && !opts.targeted then pure (c.result .noop .upToDate "up to date")
    else upgradeRun pk t opts c plan

/-! ### `_migrate_tenant` -/

/-- Step 4 up to its `finally`: re-read the tenant, then provision or upgrade it. -/
def leasedBody (pk : Pk) (opts : RunOptions) (c : Target) : Prog Result :=
  guarded
    (fun e =>
      if e.connError then pure (c.lost .default s!"default unreachable: {e.text}")
      else pure (c.result .failed .migrationError (excMsg e)))
    (load pk) fun row =>
  match row with
  | none => pure (c.result .skipped .tenantDeleted "tenant deleted")
  | some t =>
    match gate t opts c with
    | some res => pure res
    | none =>
      if t.status ∈ provisionable then provision pk t opts c
      else if upgradable t opts then upgrade pk t opts c
      else pure (c.result .skipped .statusChanged
        s!"status changed concurrently (now {pyRepr t.status.value})")

/-- The clean-up of step 4: the shard first, then the lease, which is kept when the body
raised and a statement may still be running. -/
def leasedExit (pk : Pk) (a : Alias) (finished : Bool) : Prog Unit := do
  let idle ← shardIdle a
  closeShard a
  if finished || idle then
    catching (do let _ ← leaseRelease pk
                 pure ()) fun _ => pure ()
  else
    pure ()

/-- Whether an outcome is a value: every `return` of step 4 has set `finished`. -/
def returned {α : Type} : Except Exn α → Bool
  | .ok _ => true
  | .error _ => false

/-- Step 4. -/
def underLease (pk : Pk) (opts : RunOptions) (c : Target) : Prog Result := do
  let r ← (leasedBody pk opts c).attempt
  leasedExit pk c.dbAlias (returned r)
  .done r

/-- Step 3: the lease. -/
def withLease (pk : Pk) (opts : RunOptions) (c : Target) : Prog Result :=
  guarded
    (fun e =>
      if e.cls = .shardUnavailable then pure (c.lost .shard s!"shard unreachable: {e.cause}")
      else if e.connError then pure (c.lost .default s!"default unreachable: {e.text}")
      else Program.raise e)
    (leaseAcquire pk c.dbAlias) fun held =>
  match held with
  | some msg => pure (c.result .skipped .locked msg)
  | none => underLease pk opts c

/-- Step 2: nothing to do, seen without the lease. -/
def noopShortcut (t : Tenant) (opts : RunOptions) (c : Target) : Prog (Option Result) :=
  if upgradable t opts && !opts.targeted then
    guarded
      (fun e =>
        if e.connError then pure (some (c.lost .shard s!"shard unreachable: {e.text}"))
        else do
          let res ← failure e t.shard.dbAlias t.schemaName c
          pure (some res))
      (pendingPlan t) fun plan =>
    if plan = some [] then pure (some (c.result .noop .upToDate "up to date")) else pure none
  else
    pure none

/-- Steps 1 to 4, on the row that step 0 has loaded. -/
def migrateLoaded (pk : Pk) (opts : RunOptions) (t : Tenant) : Prog Result :=
  let c : Target := ⟨t.schemaName, t.shard.dbAlias⟩
  if t.shard.isDefault then
    pure (c.result .failed .defaultShardAnomaly
      (s!"tenant on the default shard ({pyRepr c.dbAlias}): " ++
        "clean()-bypass anomaly, not migrated"))
  else
    match gate t opts c with
    | some res => pure res
    | none => do
      match ← noopShortcut t opts c with
      | some res => pure res
      | none => withLease pk opts c

/-- `migrate_tenant`. -/
def migrateTenant (pk : Pk) (opts : RunOptions) : Prog Result :=
  guarded
    (fun e =>
      if e.connError then
        pure ⟨.failed, s!"<pk {pk}>", "default", .connError,
          s!"default unreachable: {e.text}", [], some .default⟩
      else Program.raise e)
    (load pk) fun row =>
  match row with
  | none => pure ⟨.skipped, s!"<pk {pk}>", "", .tenantDeleted, "tenant deleted", [], none⟩
  | some t => migrateLoaded pk opts t

/-! ### `_migrate_shared` -/

/-- `s.replace(old, new, 1)`, on characters. -/
def replaceFirst (old new : List Char) : List Char → List Char
  | [] => if old = [] then new else []
  | c :: s =>
    if old.isPrefixOf (c :: s) then new ++ (c :: s).drop old.length
    else c :: replaceFirst old new s

/-- The text of a busy shared stage. -/
def sharedBusyMsg (held : String) : String :=
  "shared stage busy: " ++
    String.ofList (replaceFirst "locked by".toList "held by".toList held.toList)

/-- What the reporting closure of `_migrate_shared` captures. -/
def sharedTarget : Target := ⟨publicSchemaName, "default"⟩

/-- The shared stage up to its `finally`: every `Exception` becomes a `Result`. -/
def sharedBody (opts : RunOptions) : Prog Result :=
  guarded
    (fun e =>
      if e.connError then pure (sharedTarget.lost .default (lostMsg .default e))
      else pure (sharedTarget.result .failed
        (if e.lockTimeout then .lockTimeout else .migrationError) (excMsg e)))
    (do openShard "default" 0
        runMigrations (opts.upstream "default") publicSchemaName) fun _ =>
  pure (sharedTarget.result .ok .applied "shared migrations applied")

/-- The clean-up of the shared stage. -/
def sharedExit (leased finished : Bool) : Prog Unit := do
  let idle ← shardIdle "default"
  closeShard "default"
  if leased && (finished || idle) then
    catching (do let _ ← leaseRelease 0
                 pure ()) fun _ => pure ()
  else
    pure ()

/-- The shared stage, with the lease or without one. -/
def sharedUnderLease (leased : Bool) (opts : RunOptions) : Prog Result := do
  let r ← (sharedBody opts).attempt
  sharedExit leased (returned r)
  .done r

/-- `migrate_shared`; `leaseTable` is what `_lease_table_exists` answers or raises. -/
def migrateShared (leaseTable : Except Exn Bool) (opts : RunOptions) : Prog Result :=
  guarded
    (fun e =>
      if e.connError || decide (e.cls = .shardUnavailable) then
        pure (sharedTarget.lost .default s!"default unreachable: {e.text}")
      else Program.raise e)
    (do let leased : Bool ← .done leaseTable
        if leased then do
          let held ← leaseAcquire 0 "default"
          pure (leased, held)
        else
          pure (leased, none)) fun lease =>
  match lease.2 with
  | some held => pure (sharedTarget.result .failed .locked (sharedBusyMsg held))
  | none => sharedUnderLease lease.1 opts

end MtShards.Migrator
