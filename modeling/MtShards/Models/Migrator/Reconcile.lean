import MtShards.Core.Text
import MtShards.Models.Migrator.Report

/-!
# `reconcile_tenants`

The deploy gate and the per-tenant report. The command only reads, so what it is told is a record
of answers; the gate asks no question twice. The gate passes exactly when the code knows every
migration of the database, `public` is migrated, and every shard that holds an ACTIVE tenant
answers and shows a schema with nothing left to apply.
-/

namespace MtShards.Migrator

open MtShards.Core

/-- A tenant as the command loads it, with whether its shard is active. -/
structure Row where
  pk : Pk
  tenant : Tenant
  shardActive : Bool
  deriving DecidableEq, Repr

/-- `t.shard.alias`. -/
def Row.dbAlias (r : Row) : Alias := r.tenant.shard.dbAlias

/-- What `reconcile_tenants` is told. -/
structure Told where
  leaseHolders : Except Exn (List (Pk × LeaseHolder))
  codeOlderThanDb : Except Exn Bool
  publicPlan : Except Exn Plan
  /-- `_tenants`, by schema and by status. -/
  tenants : Option SchemaName → Option Status → Except Exn (List Row)
  /-- `pending_plan`; `none` is `MISSING`. -/
  pendingPlan : Pk → Except Exn (Option Plan)
  /-- `shard_session_active`, asked by `_pending_state`. -/
  pendingSession : Alias → Pk → Except Exn (Option ShardSession)
  /-- `shard_session_active`, asked by `_lease_next`. -/
  leaseSession : Alias → Pk → Except Exn (Option ShardSession)
  invalidIndexes : Pk → List String

/-- `except Exception as e: if not is_conn_error(e): raise`. -/
def Exn.lost (e : Exn) : Bool := !e.base && e.connError

/-- `CommandError(text)`. -/
def commandError (text : String) : Exn := ⟨.commandError, text, "", text, false, false, false⟩

/-- What a command writes to its standard output, and how it ends. -/
structure Printed where
  lines : List String
  outcome : Except Exn Unit

/-- The holders of the leases, by key. -/
abbrev Holders := List (Pk × LeaseHolder)

/-! ### `--check` -/

/-- The state of a PENDING tenant whose lease is not live, by the session on its shard. -/
def sessionState (told : Told) (r : Row) (lease : String) : Except Exn (Bool × String) := do
  match ← told.pendingSession r.dbAlias r.pk with
  | some s => pure (false, s!"in progress ({lease}, backend pid {s.pid} still active)")
  | none => pure (true, s!"stuck ({lease}, no active backend)")

/-- `_pending_state`: whether the tenant is stuck, and why. -/
def pendingState (told : Told) (holders : Holders) (r : Row) : Except Exn (Bool × String) :=
  match holders.lookup r.pk with
  | some h =>
    if h.expired then sessionState told r "lease expired"
    else .ok (false, s!"in progress (lease {h.owner})")
  | none => sessionState told r "no lease"

/-- `behind`. -/
def behind (told : Told) (r : Row) : Except Exn (Option Nat) :=
  (told.pendingPlan r.pk).map fun plan => plan.map List.length

/-- What the loop over the ACTIVE tenants has collected. -/
structure Found where
  problems : List String
  behind : Nat
  missing : Nat
  unreachable : List Alias

/-- `f"shard {alias} unreachable: {e}".rstrip()`. -/
def shardUnreachableMsg (a : Alias) (e : Exn) : String :=
  String.ofList ((s!"shard {a} unreachable: {e.text}").toList.rdropWhile Text.isSpace)

/-- A turn of the loop over the ACTIVE tenants. -/
def checkTenant (told : Told) (f : Found) (r : Row) : Except Exn Found :=
  if r.dbAlias ∈ f.unreachable then .ok f
  else
    match behind told r with
    | .error e =>
      if e.lost then
        .ok { f with unreachable := f.unreachable ++ [r.dbAlias]
                     problems := f.problems ++ [shardUnreachableMsg r.dbAlias e] }
      else .error e
    | .ok none =>
      .ok { f with missing := f.missing + 1, problems := f.problems ++
        [s!"{r.tenant.schemaName} ({r.dbAlias}): ACTIVE but its schema is missing"] }
    | .ok (some 0) => .ok f
    | .ok (some (n + 1)) =>
      let hint := if r.shardActive then "" else
        s!"; shard {r.dbAlias} is inactive, so `--tenant` skips it"
      .ok { f with behind := f.behind + 1, problems := f.problems ++
        [s!"{r.tenant.schemaName} ({r.dbAlias}): {n + 1} migration(s) behind — run " ++
          s!"`migrate_schemas -s {r.tenant.schemaName}`" ++ hint] }

/-- The state of a PENDING tenant, for the gate. -/
def stuckState (told : Told) (holders : Holders) (r : Row) : Except Exn (Bool × String) :=
  match pendingState told holders r with
  | .error e => if e.lost then .ok (true, s!"unknown (shard {r.dbAlias} unreachable)") else .error e
  | .ok state => .ok state

/-- The loop over the PENDING tenants: the warnings, and how it ends. -/
def checkPending (told : Told) (holders : Holders) : List Row → Printed
  | [] => ⟨[], .ok ()⟩
  | r :: rows =>
    match stuckState told holders r with
    | .error e => ⟨[], .error e⟩
    | .ok (stuck, why) =>
      let rest := checkPending told holders rows
      if stuck then
        ⟨s!"WARN stuck PENDING {r.tenant.schemaName} ({r.dbAlias}): {why}" :: rest.lines, rest.outcome⟩
      else rest

/-- The problems on `default`. -/
def defaultProblems (older : Bool) (plan : Plan) : List String :=
  (if older then ["code_older_than_db: public holds migrations this code does not " ++
    "know, applied by a newer release — deploy the newer code"] else []) ++
  (if plan.isEmpty then [] else
    [s!"public: {plan.length} migration(s) behind — run `migrate_schemas --shared`"])

/-- What the gate reads on `default`: the problems there, the ACTIVE and the PENDING tenants. -/
def checkDefault (told : Told) : Except Exn (List String × List Row × List Row) := do
  let older ← told.codeOlderThanDb
  let plan ← told.publicPlan
  let active ← told.tenants none (some .active)
  let pending ← told.tenants none (some .pending)
  pure (defaultProblems older plan, active, pending)

/-- The last line before the verdict. -/
def countsLine (active stuck : Nat) (f : Found) : String :=
  let names := (f.unreachable.mergeSort fun a b => !decide (b < a)).map pyRepr
  s!"checked_active={active} behind={f.behind} missing={f.missing} pending_stuck={stuck} " ++
    "unreachable_shards=[" ++ ", ".intercalate names ++ "]"

/-- `_check`. -/
def check (told : Told) (holders : Holders) : Printed :=
  match checkDefault told with
  | .error e =>
    if e.lost then
      ⟨[], .error (commandError s!"reconcile_tenants --check: default unreachable: {e.text}")⟩
    else ⟨[], .error e⟩
  | .ok (problems, active, pending) =>
    match active.foldlM (checkTenant told) ⟨problems, 0, 0, []⟩ with
    | .error e => ⟨[], .error e⟩
    | .ok f =>
      let warned := checkPending told holders pending
      match warned.outcome with
      | .error e => ⟨warned.lines, .error e⟩
      | .ok () =>
        let lines := warned.lines ++ f.problems.map (s!"FAIL {·}") ++
          [countsLine active.length warned.lines.length f]
        if f.problems.isEmpty then ⟨lines ++ ["OK"], .ok ()⟩
        else ⟨lines, .error (commandError s!"reconcile_tenants --check: {f.problems.length} problem(s).")⟩

/-! ### `--report` -/

/-- What the report tells to do next. -/
inductive Next
  | waitMigration (owner : Pid)
  | waitBackend (pid : Nat) (a : Alias)
  | release (target : SchemaName)
  | resetFailed
  | operatorOwned (schema : SchemaName)
  | dropIndexes (schema : SchemaName)
  | migrate (schema : SchemaName)
  | restore (schema : SchemaName)
  | migrateShared
  | nothing
  deriving DecidableEq, Repr

/-- The text of a next step. -/
def Next.text : Next → String
  | waitMigration owner => s!"wait: migration in progress ({owner})"
  | waitBackend pid a => s!"wait: lease expired, backend pid {pid} on {a} still active"
  | release target => s!"migration_lease --release {target}, then rerun"
  | resetFailed => "admin: FAILED → NEW (see last_error)"
  | operatorOwned schema => s!"operator-owned: after the repair `migrate_schemas -s {schema} " ++
      "--maintenance`, then admin → ACTIVE"
  | dropIndexes schema =>
    s!"DROP INDEX CONCURRENTLY each INVALID index, then `migrate_schemas -s {schema}`"
  | migrate schema => s!"migrate_schemas -s {schema}"
  | restore schema => "schema missing: restore it (runbook §19, via MAINTENANCE); " ++
      s!"`migrate_schemas -s {schema}` would mark it FAILED schema_missing"
  | migrateShared => "migrate_schemas --shared"
  | nothing => "-"

/-- `_lease_next`, on the lease that is held. -/
def leaseNext (told : Told) (h : LeaseHolder) (key : Pk) (target : SchemaName) :
    List Alias → Except Exn Next
  | [] => .ok (.release target)
  | a :: rest =>
    if h.expired then do
      match ← told.leaseSession a key with
      | some s => pure (.waitBackend s.pid a)
      | none => leaseNext told h key target rest
    else .ok (.waitMigration h.owner)

/-- `_next`. -/
def nextStep (told : Told) (holders : Holders) (r : Row) (plan : Option Plan)
    (invalid : List String) : Except Exn Next :=
  match holders.lookup r.pk with
  | some h => leaseNext told h r.pk r.tenant.schemaName [r.dbAlias]
  | none =>
    if r.tenant.status = .failed then .ok .resetFailed
    else if r.tenant.status = .maintenance then .ok (.operatorOwned r.tenant.schemaName)
    else if !invalid.isEmpty then .ok (.dropIndexes r.tenant.schemaName)
    else
      match plan with
      | none =>
        if r.tenant.status ∈ provisionable then .ok (.migrate r.tenant.schemaName)
        else .ok (.restore r.tenant.schemaName)
      | some plan =>
        if !plan.isEmpty || decide (r.tenant.status ∈ provisionable) then
          .ok (.migrate r.tenant.schemaName)
        else .ok .nothing

/-- `f"{s:<n}"`. -/
def ljust (n : Nat) (s : String) : String :=
  s ++ String.ofList (List.replicate (n - s.length) ' ')

/-- `_lease_text`. -/
def leaseText (holders : Holders) (key : Pk) : String :=
  match holders.lookup key with
  | none => "-"
  | some h => s!"{h.owner} since {isoTime h.since}" ++ (if h.expired then " EXPIRED" else "")

/-- `_row`. -/
def rowLines (holders : Holders) (schema : SchemaName) (a : Alias) (status behind : String) (key : Pk)
    (next : String) (notes : List String) (plan : Option Plan) : List String :=
  [s!"{ljust 24 schema} {ljust 10 a} {ljust 12 status} {ljust 10 behind} " ++
    s!"{ljust 44 (leaseText holders key)} {next}"] ++
    notes.map (ljust 24 "" ++ " " ++ ·) ++
    (plan.getD []).map fun m => ljust 24 "" ++ s!"   - {m.1}.{m.2}"

/-- `s.strip()`. -/
def stripped (s : String) : String := String.ofList (Text.strip s.toList)

/-- The characters at which `str.splitlines` splits. -/
def isLineBreak (c : Char) : Bool :=
  let n := c.toNat
  decide (10 ≤ n ∧ n ≤ 13) || decide (28 ≤ n ∧ n ≤ 30) || n == 0x85 || n == 0x2028 || n == 0x2029

/-- `s.strip().splitlines()[-1][:160]`. -/
def lastErrorLine (s : String) : Except Exn String :=
  match Text.strip s.toList with
  | [] => .error ⟨.external "IndexError", "list index out of range", "", "list index out of range",
      false, false, false⟩
  | c :: text => .ok (String.ofList (((c :: text).rtakeWhile fun c => !isLineBreak c).take 160))

/-- What a row of the report is made from: the plan, the INVALID indexes, the note of a PENDING
tenant and the next step. -/
def rowState (told : Told) (holders : Holders) (r : Row) :
    Except Exn (Option Plan × List String × List String × Next) := do
  let plan ← told.pendingPlan r.pk
  let invalid := if plan.isSome then told.invalidIndexes r.pk else []
  let notes : List String ←
    if r.tenant.status = .pending then do
      let state ← pendingState told holders r
      pure [s!"PENDING {state.2}"]
    else pure []
  let step ← nextStep told holders r plan invalid
  pure (plan, invalid, notes, step)

/-- `_tenant_row`: the lines of one tenant, and the shards that were found unreachable. -/
def tenantRow (told : Told) (holders : Holders) (names : Bool) (unreachable : List Alias) (r : Row) :
    Except Exn (List String × List Alias) :=
  let schema := r.tenant.schemaName
  let status := r.tenant.status.value
  if r.dbAlias ∈ unreachable then
    .ok (rowLines holders schema r.dbAlias status "?" r.pk "shard unreachable" [] none, unreachable)
  else
    match rowState told holders r with
    | .error e =>
      if e.lost then
        .ok (rowLines holders schema r.dbAlias status "?" r.pk "shard unreachable" [stripped e.text] none,
          unreachable ++ [r.dbAlias])
      else .error e
    | .ok (plan, invalid, notes, step) => do
      let behind := match plan with
        | none => "no schema"
        | some plan => toString plan.length
      let indexes := if invalid.isEmpty then [] else ["INVALID indexes: " ++ ", ".intercalate invalid]
      let error : List String ←
        if r.tenant.status = .failed ∧ r.tenant.lastError ≠ "" then do
          let line ← lastErrorLine r.tenant.lastError
          pure [s!"last_error: {line}"]
        else pure []
      pure (rowLines holders schema r.dbAlias status behind r.pk step.text (notes ++ indexes ++ error)
        (if names then plan else none), unreachable)

/-- `_public_row`. -/
def publicRow (told : Told) (holders : Holders) (names : Bool) : Except Exn (List String) :=
  match told.publicPlan with
  | .error e =>
    if e.lost then
      .ok (rowLines holders "public" "default" "-" "?" 0 "default unreachable" [e.text] none)
    else .error e
  | .ok plan => do
    let step ← match holders.lookup 0 with
      | some h => leaseNext told h 0 "shared" ["default"]
      | none => pure (if plan.isEmpty then .nothing else .migrateShared)
    pure (rowLines holders "public" "default" "-" (toString plan.length) 0 step.text []
      (if names then some plan else none))

/-- The rows of the tenants, in order. -/
def tenantRows (told : Told) (holders : Holders) (names : Bool) : List Alias → List Row → Printed
  | _, [] => ⟨[], .ok ()⟩
  | unreachable, r :: rows =>
    match tenantRow told holders names unreachable r with
    | .error e => ⟨[], .error e⟩
    | .ok (lines, unreachable') =>
      let rest := tenantRows told holders names unreachable' rows
      ⟨lines ++ rest.lines, rest.outcome⟩

/-- The first line of the report. -/
def reportHead : String :=
  ljust 24 "SCHEMA" ++ " " ++ ljust 10 "SHARD" ++ " " ++ ljust 12 "STATUS" ++ " " ++
    ljust 10 "BEHIND" ++ " " ++ ljust 44 "LEASE" ++ " NEXT"

/-- `_report`. -/
def report (told : Told) (holders : Holders) (schema : Option SchemaName) (onlyPending names : Bool) :
    Printed :=
  let named := schema.getD "" != ""
  match told.tenants (if named then schema else none) (if onlyPending then some .pending else none) with
  | .error e => ⟨[], .error e⟩
  | .ok tenants =>
    if named && tenants.isEmpty then
      ⟨[], .error (commandError ("Tenant " ++ pyRepr (schema.getD "") ++ " not found" ++
        (if onlyPending then " (or not PENDING)" else "") ++ "."))⟩
    else
      match (if !named && !onlyPending then publicRow told holders names else .ok []) with
      | .error e => ⟨[reportHead], .error e⟩
      | .ok first =>
        let rest := tenantRows told holders names [] tenants
        ⟨reportHead :: (first ++ rest.lines), rest.outcome⟩

/-- The options of the command. -/
structure ReconcileOptions where
  check : Bool
  schema : Option SchemaName
  onlyPending : Bool
  plan : Bool
  deriving DecidableEq, Repr

/-- `Command.handle`. -/
def reconcileTenants (told : Told) (o : ReconcileOptions) : Printed :=
  if o.check && ((o.schema.getD "" != "") || o.onlyPending || o.plan) then
    ⟨[], .error (commandError "-s, --only-pending and --plan go only with --report.")⟩
  else
    match told.leaseHolders with
    | .error e =>
      if e.lost then ⟨[], .error (commandError s!"default unreachable: {e.text}")⟩ else ⟨[], .error e⟩
    | .ok holders =>
      if o.check then check told holders
      else report told holders o.schema o.onlyPending o.plan

/-! ### The gate -/

section Gate

variable {told : Told} {holders : Holders} {rows : List Row} {f f' : Found} {r : Row}

/-- A turn of the loop drops no problem. -/
theorem checkTenant_extends (h : checkTenant told f r = .ok f') : f.problems <+: f'.problems := by
  rw [checkTenant] at h
  split at h
  · cases h
    exact List.prefix_rfl
  split at h
  · split at h
    · cases h
      exact List.prefix_append ..
    · cases h
  · cases h
    exact List.prefix_append ..
  · cases h
    exact List.prefix_rfl
  · cases h
    exact List.prefix_append ..

/-- A turn of the loop that finds nothing wrong. -/
theorem checkTenant_clear_iff (hf : f.unreachable = []) :
    (∃ f', checkTenant told f r = .ok f' ∧ f'.problems = f.problems) ↔
      told.pendingPlan r.pk = .ok (some []) := by
  have hgrown (x : String) : f.problems ++ [x] ≠ f.problems := by simp
  rw [checkTenant, hf, if_neg List.not_mem_nil, behind]
  cases told.pendingPlan r.pk with
  | error e =>
    simp only [Except.map]
    split <;> simp [hgrown]
  | ok plan =>
    cases plan with
    | none => simp [Except.map, hgrown]
    | some plan => cases plan <;> simp [Except.map, hgrown]

theorem checkTenant_clear (hf : f.unreachable = []) (h : told.pendingPlan r.pk = .ok (some [])) :
    checkTenant told f r = .ok f := by
  rw [checkTenant, hf, if_neg List.not_mem_nil, behind, h]
  rfl

theorem checkActive_extends (h : rows.foldlM (checkTenant told) f = .ok f') :
    f.problems <+: f'.problems := by
  induction rows generalizing f with
  | nil =>
    cases h
    exact List.prefix_rfl
  | cons r rows ih =>
    rw [List.foldlM_cons] at h
    cases hr : checkTenant told f r with
    | error e =>
      rw [hr] at h
      cases h
    | ok f₁ =>
      rw [hr] at h
      exact (checkTenant_extends hr).trans (ih h)

/-- The loop finds nothing wrong exactly when every tenant has an empty plan. -/
theorem checkActive_clear_iff (hf : f.unreachable = []) :
    (∃ f', rows.foldlM (checkTenant told) f = .ok f' ∧ f'.problems = f.problems) ↔
      ∀ r ∈ rows, told.pendingPlan r.pk = .ok (some []) := by
  induction rows with
  | nil => exact ⟨fun _ r hr => absurd hr List.not_mem_nil, fun _ => ⟨f, rfl, rfl⟩⟩
  | cons r rows ih =>
    rw [List.forall_mem_cons, ← ih]
    constructor
    · rintro ⟨f', hrun, hsame⟩
      rw [List.foldlM_cons] at hrun
      cases hr : checkTenant told f r with
      | error e =>
        rw [hr] at hrun
        cases hrun
      | ok f₁ =>
        rw [hr] at hrun
        -- nothing is dropped on the way, so this turn has found nothing either
        have hfirst : f₁.problems = f.problems :=
          ((checkTenant_extends hr).eq_of_length_le
            (hsame ▸ (checkActive_extends hrun).length_le)).symm
        have hclear := (checkTenant_clear_iff hf).mp ⟨f₁, hr, hfirst⟩
        rw [checkTenant_clear hf hclear] at hr
        cases hr
        exact ⟨hclear, f', hrun, hsame⟩
    · rintro ⟨hclear, f', hrun, hsame⟩
      refine ⟨f', ?_, hsame⟩
      rw [List.foldlM_cons, checkTenant_clear hf hclear]
      exact hrun

/-- The loop over the PENDING tenants ends unless a session cannot be asked for another reason
than a lost connection. -/
theorem checkPending_ok_iff : (checkPending told holders rows).outcome = .ok () ↔
    ∀ r ∈ rows, ∃ state, stuckState told holders r = .ok state := by
  induction rows with
  | nil => exact ⟨fun _ r hr => absurd hr List.not_mem_nil, fun _ => rfl⟩
  | cons r rows ih =>
    rw [List.forall_mem_cons, ← ih, checkPending]
    cases hr : stuckState told holders r with
    | error e => simp
    | ok state =>
      obtain ⟨stuck, why⟩ := state
      cases stuck <;> simp

/-- What the gate asks for, of what it was told. -/
structure Passes (told : Told) (holders : Holders) : Prop where
  notOlder : told.codeOlderThanDb = .ok false
  publicPlan : told.publicPlan = .ok []
  active : ∃ rows, told.tenants none (some .active) = .ok rows ∧
    ∀ r ∈ rows, told.pendingPlan r.pk = .ok (some [])
  pending : ∃ rows, told.tenants none (some .pending) = .ok rows ∧
    ∀ r ∈ rows, ∃ state, stuckState told holders r = .ok state

theorem checkDefault_ok_iff {problems : List String} {active pending : List Row} :
    checkDefault told = .ok (problems, active, pending) ↔ ∃ older plan,
      told.codeOlderThanDb = .ok older ∧ told.publicPlan = .ok plan ∧
      told.tenants none (some .active) = .ok active ∧
      told.tenants none (some .pending) = .ok pending ∧
      problems = defaultProblems older plan := by
  rw [checkDefault]
  cases told.codeOlderThanDb <;> cases told.publicPlan <;> cases told.tenants none (some .active) <;>
    cases told.tenants none (some .pending) <;> simp [bind, Except.bind, pure, Except.pure]
  exact ⟨fun ⟨h₁, h₂, h₃⟩ => ⟨h₂, h₃, h₁.symm⟩, fun ⟨h₁, h₂, h₃⟩ => ⟨h₃.symm, h₁, h₂⟩⟩

/-- The gate passes exactly when nothing is wrong. -/
theorem check_ok_iff : (check told holders).outcome = .ok () ↔ Passes told holders := by
  rw [check]
  split
  · rename_i e he
    refine iff_of_false (by split <;> exact fun h => by cases h) fun hp => ?_
    obtain ⟨active, hactive, _⟩ := hp.active
    obtain ⟨pending, hpending, _⟩ := hp.pending
    have hread := checkDefault_ok_iff.mpr ⟨_, _, hp.notOlder, hp.publicPlan, hactive, hpending, rfl⟩
    rw [he] at hread
    cases hread
  · rename_i problems active pending hread
    obtain ⟨older, plan, holder, hplan, hactive, hpending, hproblems⟩ := checkDefault_ok_iff.mp hread
    have hnone : problems = [] ↔ older = false ∧ plan = [] := by
      rw [hproblems, defaultProblems]
      cases older <;> cases plan <;> simp
    have hpasses : Passes told holders ↔ problems = [] ∧
        (∀ r ∈ active, told.pendingPlan r.pk = .ok (some [])) ∧
        ∀ r ∈ pending, ∃ state, stuckState told holders r = .ok state := by
      rw [hnone]
      constructor
      · rintro ⟨h₁, h₂, ⟨a, ha, hall⟩, b, hb, hend⟩
        rw [holder] at h₁
        rw [hplan] at h₂
        rw [hactive] at ha
        rw [hpending] at hb
        cases h₁
        cases h₂
        cases ha
        cases hb
        exact ⟨⟨rfl, rfl⟩, hall, hend⟩
      · rintro ⟨⟨rfl, rfl⟩, hall, hend⟩
        exact ⟨holder, hplan, ⟨active, hactive, hall⟩, pending, hpending, hend⟩
    rw [hpasses, ← checkPending_ok_iff, ← checkActive_clear_iff (f := ⟨problems, 0, 0, []⟩) rfl]
    cases hrun : active.foldlM (checkTenant told) ⟨problems, 0, 0, []⟩ with
    | error e => simp
    | ok f =>
      have hgrows := checkActive_extends hrun
      dsimp only at hgrows ⊢
      split
      · rename_i e he
        simp [he]
      · rename_i he
        simp only [he, Except.ok.injEq, exists_eq_left', and_true]
        cases hf : f.problems with
        | nil =>
          rw [hf, List.prefix_nil] at hgrows
          simp [hgrows]
        | cons x xs =>
          have hne : ¬ (problems = [] ∧ x :: xs = problems) := by
            rintro ⟨rfl, h⟩
            cases h
          simpa using hne

end Gate

end MtShards.Migrator
