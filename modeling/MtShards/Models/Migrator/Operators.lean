import MtShards.Models.Migrator.Run

/-!
# The other writers of a tenant row and of a lease

`TenantViewSet.activate` / `deactivate`, the admin's change form with
`TenantAdmin.save_model`, `TenantSerializer.update`, and `migration_lease --release`.
-/

namespace MtShards.Migrator

open MtShards.Core

/-! ### The reactivation stopper -/

/-- `ReactivationBlocked` and its subclasses. -/
inductive ReactivationBlocked
  | deployInProgress
  | schemaMissing (schema : SchemaName) (a : Alias)
  | schemaBehind (plan : Plan)
  | unavailable (what : String)
  deriving DecidableEq, Repr

namespace ReactivationBlocked

/-- `str(exc)`. -/
def text : ReactivationBlocked → String
  | deployInProgress => "a newer release has already migrated public; retry after the deploy"
  | schemaMissing schema a => s!"schema \"{schema}\" does not exist on {a}"
  | schemaBehind plan => s!"{plan.length} migration(s) not applied"
  | unavailable what => what

/-- `exc.code`. -/
def code : ReactivationBlocked → String
  | deployInProgress => "deploy_in_progress"
  | schemaMissing _ _ => "schema_missing"
  | schemaBehind _ => "schema_behind"
  | unavailable _ => "shard_unreachable"

/-- `exc.status`: 409 asks to fix the tenant, 503 to retry later. -/
def httpStatus : ReactivationBlocked → Nat
  | deployInProgress | unavailable _ => 503
  | schemaMissing _ _ | schemaBehind _ => 409

/-- `exc.pending`, for a schema that is behind. -/
def pending : ReactivationBlocked → List String
  | schemaBehind plan => plan.map fun m => m.1 ++ "." ++ m.2
  | _ => []

end ReactivationBlocked

/-- `check_reactivation`; `some` is what it raises. -/
def checkReactivation (t : Tenant) : Prog (Option ReactivationBlocked) :=
  guarded
    (fun e => if e.connError then pure (some (.unavailable "default unreachable"))
      else Program.raise e)
    codeOlderThanDb fun older =>
  if older then
    pure (some .deployInProgress)
  else
    guarded
      (fun e =>
        if e.connError then pure (some (.unavailable s!"shard {t.shard.dbAlias} unreachable"))
        else Program.raise e)
      (pendingPlan t) fun plan =>
    match plan with
    | none => pure (some (.schemaMissing t.schemaName t.shard.dbAlias))
    | some [] => pure none
    | some (m :: plan) => pure (some (.schemaBehind (m :: plan)))

/-! ### The console -/

/-- What the console answers. -/
inductive Response
  | tenant (t : Option Tenant)
  | conflict (detail : String)
  | blocked (detail code : String) (pending : List String) (httpStatus : Nat)
  deriving DecidableEq, Repr

/-- An exception raised by the program text itself. -/
def raised (cls : ExnClass) (text : String) : Exn := ⟨cls, text, "", text, false, false, false⟩

/-- The body of the stopper's refusal. -/
def blockedResponse (t : Tenant) (b : ReactivationBlocked) : Response :=
  .blocked (s!"Cannot activate '{t.schemaName}': {b.text}. " ++
      (if b.httpStatus = 503 then "Retry later."
        else s!"Run `migrate_schemas -s {t.schemaName}` first."))
    b.code b.pending b.httpStatus

/-- The end of `_transition`: the conditional `UPDATE`, then the invalidation. -/
def transitionUpdate (pk : Pk) (t : Tenant) (source dest : Status) : Prog Response := do
  let updated : Bool ← call (.consoleUpdate pk source dest)
  if updated then do
    forget pk
    let fresh ← load pk
    pure (.tenant fresh)
  else
    pure (.conflict (s!"Cannot transition tenant '{t.schemaName}' from '{t.status.value}' to " ++
      s!"'{dest.value}'. Expected current status to be '{source.value}'."))

/-- `TenantViewSet._transition`. -/
def transition (pk : Pk) (source dest : Status) (stopper : Bool) : Prog Response := do
  match ← load pk with
  | none => Program.raise (raised .notFound "No Tenant matches the given query.")
  | some t =>
    if t.schemaName = publicSchemaName then
      Program.raise (raised .permissionDenied "The public tenant is read-only.")
    else if t.status = .maintenance then
      Program.raise (raised .tenantMaintenance (s!"Tenant is in maintenance; cannot move it to " ++
        s!"'{dest.value}' from the console — managed by the platform admin."))
    else if stopper && t.status = source then do
      match ← checkReactivation t with
      | some b => pure (blockedResponse t b)
      | none => transitionUpdate pk t source dest
    else
      transitionUpdate pk t source dest

/-- `TenantViewSet.deactivate`. -/
def deactivate (pk : Pk) : Prog Response := transition pk .active .deactivated false

/-- `TenantViewSet.activate`. -/
def activate (pk : Pk) : Prog Response := transition pk .deactivated .active true

/-- `TenantViewSet.update` with `TenantSerializer.update`, on the columns of the tenant. The
instance keeps the status it was loaded with, so `Tenant.save` stamps nothing. -/
def serializerUpdate (pk : Pk) (c : World.Changes) : Prog Unit := do
  match ← load pk with
  | none => Program.raise (raised .notFound "No Tenant matches the given query.")
  | some t =>
    if t.schemaName = publicSchemaName then
      Program.raise (raised .permissionDenied "The public tenant is read-only.")
    else do
      call .begin
      let r ← Program.attempt (do
        let found : Bool ← call (.saveTenant pk c false)
        if found then pure ()
        else Program.raise (raised (.external "DatabaseError")
          "Save with update_fields did not affect any rows."))
      match r with
      | .ok _ => do
        call .commit
        forget pk
      | .error e => do
        call .rollback
        Program.raise e

/-! ### The admin -/

/-- `STATUS_TRANSITIONS`. -/
def statusTransitions : Status → List Status
  | .new => [.new]
  | .pending => [.pending]
  | .active => [.active, .deactivated, .maintenance]
  | .deactivated => [.deactivated, .active, .maintenance]
  | .failed => [.failed, .new, .maintenance]
  | .maintenance => [.maintenance, .active, .deactivated, .failed]

/-- The member of `Tenant.Status` with a given value. -/
def statusOfValue (v : String) : Option Status :=
  [Status.new, .pending, .active, .deactivated, .failed, .maintenance].find? fun s => s.value = v

/-- A posted change form. -/
structure Submission where
  pk : Pk
  /-- The hidden field `expected_status`, as posted. -/
  expectedStatus : Option String
  /-- The field `status`, as posted. -/
  status : Option String
  confirmSchema : Bool
  /-- The other fields that were changed. -/
  changes : World.Changes
  /-- Whether another field was rejected. -/
  fieldErrors : Bool
  deriving DecidableEq, Repr

namespace Submission

/-- `form.old_status`: the status the operator saw, or the one just read. -/
def oldStatus (sub : Submission) (t : Tenant) : Status :=
  (sub.expectedStatus.bind statusOfValue).getD t.status

/-- `cleaned.get("status")`: a disabled field keeps what was shown, a choice that is not
offered is refused. -/
def newStatus (sub : Submission) (old : Status) : Option Status :=
  if old = .pending ∨ old = .new then some old
  else (sub.status.bind statusOfValue).filter fun s => decide (s ∈ statusTransitions old)

end Submission

/-- The fields that the form's own errors are attached to. -/
inductive FormField
  | nonField
  | status
  | confirmSchema
  | other
  deriving DecidableEq, Repr

/-- An error of the form. -/
structure FormError where
  field : FormField
  text : String
  deriving DecidableEq, Repr

/-- What `clean` says about a tenant that must not become ACTIVE yet. -/
def cannotActivate (t : Tenant) (old : Status) (b : ReactivationBlocked) : FormError :=
  let flag := if old = .maintenance then " --maintenance" else ""
  let hint := if b.httpStatus = 503 then "retry after the deploy / when the shard is back"
    else s!"run `migrate_schemas -s {t.schemaName}{flag}` first"
  ⟨.status, s!"Cannot activate: {b.text} ({b.code}); {hint}."⟩

/-- What `clean` says about a tenant that is being migrated. -/
def beingMigrated (h : LeaseHolder) : FormError :=
  ⟨.status, s!"Being migrated right now by {h.owner} since {plainTime h.since}; " ++
    "wait for it to finish."⟩

/-- The lease check of `clean` before MAINTENANCE. -/
def cleanMaintenance (pk : Pk) (t : Tenant) : Prog (Option FormError) := do
  match ← leaseHolder pk with
  | none => pure none
  | some h =>
    if h.expired then do
      let busy ← shardSessionActive t.shard.dbAlias pk
      pure (if busy.isSome then some (beingMigrated h) else none)
    else
      pure (some (beingMigrated h))

/-- The check of `clean` that belongs to the new status. -/
def cleanTarget (pk : Pk) (t : Tenant) (old dest : Status) : Prog (Option FormError) :=
  if dest = .active then do
    let b ← checkReactivation t
    pure (b.map (cannotActivate t old))
  else if dest = .maintenance then
    cleanMaintenance pk t
  else
    pure none

/-- The last check of `clean`: FAILED → NEW needs `confirm_schema`. -/
def cleanConfirm (sub : Submission) (old dest : Status) : Option FormError :=
  if old = .failed && dest = .new && !sub.confirmSchema then
    some ⟨.confirmSchema, "Tick this to move a FAILED tenant back to New: the next " ++
      "provisioning run will adopt whatever schema is there."⟩
  else
    none

/-- `TenantAdminForm.clean`, from the point where a status change is asked for. -/
def cleanChange (sub : Submission) (t : Tenant) (old dest : Status) : Prog (Option FormError) :=
  if t.status ≠ old then
    pure (some ⟨.nonField, s!"The status changed while this page was open (it is now " ++
      s!"'{t.status.value}', you saw '{old.value}'). Nothing was saved; reload the page and " ++
      "try again."⟩)
  else do
    match ← cleanTarget sub.pk t old dest with
    | some e => pure (some e)
    | none => pure (cleanConfirm sub old dest)

/-- `TenantAdminForm.clean`. -/
def clean (sub : Submission) (t : Tenant) : Prog (Option FormError) :=
  match sub.newStatus (sub.oldStatus t) with
  | none => pure (some ⟨.status, "Select a valid choice."⟩)
  | some dest => if dest = sub.oldStatus t then pure none else cleanChange sub t (sub.oldStatus t) dest

/-- Whether `other` is empty in `save_model`. -/
def noChanges (c : World.Changes) : Bool :=
  c.companyName.isNone && c.description.isNone && c.timezone.isNone && c.shard.isNone

/-- `lease_lock_for_transition`. -/
def leaseLockForTransition (k : Pk) : Prog (Option LeaseHolder) := do
  call (.insertLease k)
  call (.lockLease k)

/-- The refusal of `save_model` when a migrator holds the lease. -/
def startedMigrating (t : Tenant) (h : LeaseHolder) : Exn :=
  raised .statusConflict (s!"'{t.schemaName}' started migrating meanwhile ({h.owner} since " ++
    s!"{plainTime h.since}); nothing was saved. Wait for it to finish and try again.")

/-- The refusal of `save_model` when its `UPDATE` finds another status. -/
def statusMoved (t : Tenant) (old : Status) : Exn :=
  raised .statusConflict (s!"The status of '{t.schemaName}' changed concurrently (it is no " ++
    s!"longer '{old.value}'); nothing was saved. Reload the page and try again.")

/-- `save_model` before a move to MAINTENANCE: lock the lease row, refuse a live holder. -/
def refuseIfMigrating (pk : Pk) (t : Tenant) (dest : Status) : Prog Unit :=
  if dest = .maintenance then do
    match ← leaseLockForTransition pk with
    | some h => Program.raise (startedMigrating t h)
    | none => pure ()
  else
    pure ()

/-- The status write of `save_model`; the number of invalidations it registers. -/
def saveStatus (pk : Pk) (t : Tenant) (old dest : Status) : Prog Nat :=
  if dest ≠ old then do
    refuseIfMigrating pk t dest
    let updated : Bool ← call (.adminUpdate pk old dest)
    if updated then pure 1 else Program.raise (statusMoved t old)
  else
    pure 0

/-- `obj.save(update_fields=other)`. The instance has the status it was loaded with, or the
one just written with `_loaded_status` set to it, so `Tenant.save` stamps nothing. -/
def saveOther (pk : Pk) (c : World.Changes) : Prog Unit := do
  let found : Bool ← call (.saveTenant pk c false)
  if found then pure ()
  else Program.raise (raised (.external "DatabaseError")
    "Save with update_fields did not affect any rows.")

/-- `TenantAdmin.save_model`; the number of invalidations it has registered for the commit. -/
def saveModel (sub : Submission) (t : Tenant) (old dest : Status) : Prog Nat := do
  let forgets ← saveStatus sub.pk t old dest
  if noChanges sub.changes then
    pure forgets
  else do
    saveOther sub.pk sub.changes
    pure (forgets + 1)

/-- What the change view answers. -/
inductive AdminOutcome
  | missing
  | invalid (e : FormError)
  | conflict (text : String)
  | saved
  deriving DecidableEq, Repr

/-- What the change view does inside `transaction.atomic()`. -/
def adminBody (sub : Submission) : Prog (AdminOutcome × Nat) := do
  match ← load sub.pk with
  | none => pure (.missing, 0)
  | some t => do
    match ← clean sub t with
    | some e => pure (.invalid e, 0)
    | none =>
      if sub.fieldErrors then
        pure (.invalid ⟨.other, ""⟩, 0)
      else
        match sub.newStatus (sub.oldStatus t) with
        | none => pure (.invalid ⟨.status, "Select a valid choice."⟩, 0)
        | some dest => do
          let forgets ← saveModel sub t (sub.oldStatus t) dest
          pure (.saved, forgets)

/-- The `on_commit` hooks. -/
def forgetTimes (pk : Pk) : Nat → Prog Unit
  | 0 => pure ()
  | n + 1 => do
    forget pk
    forgetTimes pk n

/-- The POST of `TenantAdmin.changeform_view`. -/
def adminChange (sub : Submission) : Prog AdminOutcome := do
  call .begin
  match ← (adminBody sub).attempt with
  | .ok (outcome, forgets) => do
    call .commit
    forgetTimes sub.pk forgets
    pure outcome
  | .error e => do
    call .rollback
    if e.cls = .statusConflict then pure (.conflict e.text) else Program.raise e

/-! ### `migration_lease --release` -/

/-- `_session`: the first busy backend labelled `tm:<k>`. -/
def firstSession (k : Pk) : List Alias → Prog (Option (Alias × ShardSession))
  | [] => pure none
  | a :: rest => do
    match ← shardSessionActive a k with
    | some b => pure (some (a, b))
    | none => firstSession k rest

/-- The checks of `--release` without `--force`. -/
def releaseChecks (k : Pk) (label : String) (aliases : List Alias) (h : LeaseHolder) :
    Prog Unit := do
  let s ← catching (firstSession k aliases) fun e =>
    if e.connError then
      Program.raise (raised .commandError ("Cannot check " ++ ", ".intercalate aliases ++
        s!" for an active tm:{k} backend ({e.text}). Not released. Use --force only if the " ++
        "owner is certainly dead and no backend is left."))
    else Program.raise e
  match s with
  | some (a, b) =>
    Program.raise (raised .commandError (s!"Not released: the migration of {label} is still " ++
      s!"running server-side (pid {b.pid} on {a}, running {b.running / 60} min: {b.query}). " ++
      s!"Wait for it to finish, or cancel it with pg_cancel_backend({b.pid}) on {a}, then retry."))
  | none =>
    if h.expired then
      pure ()
    else
      Program.raise (raised .commandError (s!"Not released: the lease of {label} is live until " ++
        s!"{isoTime h.untilAt} (owner {h.owner}). Its owner may be alive between two " ++
        "statements, which no backend check can see. Wait for it to expire, or — only if that " ++
        "process is certainly dead (check `ps -o lstart= -p <pid>` on its host) — repeat with " ++
        "--force."))

/-- `--force` skips the checks. -/
def releaseUnlessForced (k : Pk) (label : String) (aliases : List Alias) (force : Bool)
    (h : LeaseHolder) : Prog Unit :=
  if force then pure () else releaseChecks k label aliases h

/-- `Command._release`, after `_resolve` has found the key, its label and the shards. -/
def releaseCommand (k : Pk) (label : String) (aliases : List Alias) (force : Bool) :
    Prog String := do
  match ← leaseHolder k with
  | none => pure s!"Lease of {label} (key {k}) is not held; nothing to release."
  | some h => do
    releaseUnlessForced k label aliases force h
    let released : Bool ← call (.leaseForceRelease k h.owner)
    if released then
      let expired := if h.expired then " (EXPIRED)" else ""
      let forced := if force then " [--force]" else ""
      pure (s!"Released lease of {label} (key {k}): owner {h.owner}, since " ++
        s!"{isoTime h.since}, until {isoTime h.untilAt}{expired}{forced}.")
    else do
      let cur ← leaseHolder k
      let who := (cur.map LeaseHolder.owner).getD "free"
      Program.raise (raised .commandError (s!"Lease of {label} changed hands meanwhile (now: " ++
        s!"{who}); nothing released. Check with --list."))

/-! ### The system -/

/-- What a process may be asked to run; `maint` allows runs with `--maintenance`. -/
inductive Starts (maint : Bool) : Prog Unit → Prop
  | migrate (pk : Pk) (opts : RunOptions) (h : opts.maintenance = true → maint = true) :
    Starts maint (migrateTenant pk opts).void
  | activate (pk : Pk) : Starts maint (activate pk).void
  | deactivate (pk : Pk) : Starts maint (deactivate pk).void
  | adminChange (sub : Submission) : Starts maint (adminChange sub).void
  | serializerUpdate (pk : Pk) (c : World.Changes) : Starts maint (serializerUpdate pk c)
  | releaseCommand (k : Pk) (label : String) (aliases : List Alias) (force : Bool) :
    Starts maint (releaseCommand k label aliases force).void

/-- The configurations of the system. -/
abbrev SysConfig := Config Pid Req Req.Ans Exn World

/-- The traces of the system, newest step first. -/
abbrev SysTrace := List (Entry Pid Req Req.Ans Exn World)

/-- No transaction is open. -/
structure World.Quiet (s : World) : Prop where
  tx : ∀ p, s.tx p = none
  leaseLock : ∀ k, s.leaseLock k = none
  tenantLock : ∀ pk, s.tenantLock pk = none

/-- Any number of processes, each running one program at a time, from a world with any
leases, tenants and backends and no open transaction. -/
def SysRun (s₀ : World) (t : SysTrace) (c : SysConfig) : Prop :=
  s₀.Quiet ∧ Run machine (fun _ => Starts true) (.idle s₀) t c

/-- The same without runs with `--maintenance`. -/
def PlainRun (s₀ : World) (t : SysTrace) (c : SysConfig) : Prop :=
  s₀.Quiet ∧ Run machine (fun _ => Starts false) (.idle s₀) t c

end MtShards.Migrator
