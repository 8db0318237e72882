import MtShards.Core.Solo
import MtShards.Models.Migrator.Operators

/-!
# Which requests each program issues

A run of `migrate_tenant` touches its own tenant row and its own lease only, and inside
`_provision` and `_upgrade` it works on the shard of the row they were given. Programs
that only look, and programs that open no transaction, are told apart by the requests
they issue.
-/

namespace MtShards.Migrator

open MtShards.Core

section Only

variable {α β : Type} {Q : Req → Prop}

/-- A single request of the kind makes only that one. -/
theorem only_call {op : Req} (h : Q op) : (call op).Only Q := ⟨h, fun _ => trivial⟩

/-- A guarded program makes only requests of its body, of what follows it and of its handler. -/
theorem only_guarded {x : Prog α} {k : α → Prog β} {onError : Exn → Prog β} (hx : x.Only Q)
    (hk : ∀ a, (k a).Only Q) (he : ∀ e, (onError e).Only Q) : (guarded onError x k).Only Q := by
  refine hx.attempt.bind fun r => ?_
  cases r with
  | ok a => exact hk a
  | error e =>
    dsimp only
    split
    · trivial
    · exact he e

/-! ### Programs that only look -/

/-- The requests that only look. -/
def Req.looks : Req → Prop
  | .load _ | .leaseHolder _ | .codeOlderThanDb | .shard _ _ | .closeShard _ => True
  | _ => False

/-- The plan of a schema is only looked at. -/
theorem pendingPlan_looks (t : Tenant) : (pendingPlan t).Only Req.looks := by
  refine Program.Only.bind (only_call trivial) fun found => ?_
  cases found with
  | true =>
    refine Program.Only.tryFinally ?_ (only_call trivial)
    exact Program.Only.bind (only_call trivial) fun plan => trivial
  | false => trivial

private theorem failure_looks (e : Exn) (a : Alias) (schema : SchemaName) (c : Target) :
    (failure e a schema c).Only Req.looks := by
  refine Program.Only.bind (only_call trivial) fun _ => ?_
  refine Program.Only.bind ?_ fun indexes => trivial
  exact only_guarded (only_call trivial) (fun _ => trivial) fun _ => trivial

/-- The shortcut for a tenant that is up to date only looks. -/
theorem noopShortcut_looks (t : Tenant) (opts : RunOptions) (c : Target) :
    (noopShortcut t opts c).Only Req.looks := by
  rw [noopShortcut]
  split
  · refine only_guarded (pendingPlan_looks t) (fun plan => ?_) fun e => ?_
    · split <;> trivial
    · split
      · trivial
      · exact (failure_looks e _ _ c).bind fun res => trivial
  · trivial

/-- The reactivation stopper only looks. -/
theorem checkReactivation_looks (t : Tenant) : (checkReactivation t).Only Req.looks := by
  refine only_guarded (only_call trivial) (fun older => ?_) fun e => ?_
  · cases older with
    | true => trivial
    | false =>
      refine only_guarded (pendingPlan_looks t) (fun plan => ?_) fun e => ?_
      · match plan with
        | none => trivial
        | some [] => trivial
        | some (_ :: _) => trivial
      · split <;> trivial
  · split <;> trivial

private theorem cleanMaintenance_looks (pk : Pk) (t : Tenant) :
    (cleanMaintenance pk t).Only Req.looks := by
  refine Program.Only.bind (only_call trivial) fun holder => ?_
  cases holder with
  | none => trivial
  | some h =>
    dsimp only
    split
    · exact Program.Only.bind (only_call trivial) fun busy => trivial
    · trivial

/-- The target check of the admin form only looks. -/
theorem cleanTarget_looks (pk : Pk) (t : Tenant) (old dest : Status) :
    (cleanTarget pk t old dest).Only Req.looks := by
  rw [cleanTarget]
  split
  · exact (checkReactivation_looks t).bind fun b => trivial
  · split
    · exact cleanMaintenance_looks pk t
    · trivial

/-- The admin form only looks while it is cleaned. -/
theorem clean_looks (sub : Submission) (t : Tenant) : (clean sub t).Only Req.looks := by
  rw [clean]
  split
  · trivial
  · split
    · trivial
    · rw [cleanChange]
      split
      · trivial
      · refine (cleanTarget_looks _ _ _ _).bind fun e => ?_
        cases e <;> trivial

/-! ### `migrate_tenant` -/

/-- The requests of a migrator of one tenant, with its shard work at some aliases. -/
def Req.migrates (pk : Pk) (A : Alias → Prop) : Req → Prop
  | .load k | .casLostRow k | .leaseHolder k | .leaseUpsert k | .leaseRelease k
  | .forgetTenant k | .fencedCas k _ _ => k = pk
  | .codeOlderThanDb => True
  | .shard a _ | .shardIdle a | .closeShard a => A a
  | _ => False

/-- Those of them that leave the lease as it is. -/
def Req.works (pk : Pk) (A : Alias → Prop) : Req → Prop
  | .leaseUpsert _ | .leaseRelease _ => False
  | op => op.migrates pk A

/-- What leaves the lease as it is is a request of a migrator. -/
theorem Req.works.migrates {pk : Pk} {A : Alias → Prop} {op : Req} (h : op.works pk A) :
    op.migrates pk A := by
  cases op with
  | leaseUpsert k => exact h.elim
  | leaseRelease k => exact h.elim
  | _ => exact h

/-- A result that names the schema and the shard of the target. -/
def Target.Reports (c : Target) (res : Result) : Prop :=
  res.schema = c.schema ∧ res.shard = c.dbAlias

/-- A result of a target names its schema and its shard. -/
theorem Target.reports_result (c : Target) (kind : Kind) (reason : Reason) (msg : String) :
    c.Reports (c.result kind reason msg) := ⟨rfl, rfl⟩

/-- A lost connection of a target names its schema and its shard. -/
theorem Target.reports_lost (c : Target) (side : Side) (msg : String) :
    c.Reports (c.lost side msg) := ⟨rfl, rfl⟩

/-- A single request of the kind is within it, whatever it answers. -/
theorem call_within {op : Req} (h : Q op) : (call op).Within Q fun _ => True :=
  Program.Only.within (only_call h)

/-- A guarded program is within bounds if its body is, what follows the body and its handler. -/
theorem within_guarded {U : α → Prop} {V : β → Prop} {x : Prog α} {k : α → Prog β}
    {onError : Exn → Prog β} (hx : x.Within Q U) (hk : ∀ a, U a → (k a).Within Q V)
    (he : ∀ e, (onError e).Within Q V) : (guarded onError x k).Within Q V := by
  refine hx.attempt.bind fun r hr => ?_
  cases r with
  | ok a => exact hk a hr
  | error e =>
    dsimp only
    split
    · trivial
    · exact he e

/-- What a `try` block asks: the rest of it from a value, the handler from an `Exception`. -/
theorem ensures_guarded {σ : Type} {sem : Semantics Req Req.Ans Exn σ}
    {R : List (Taken Req Req.Ans Exn σ) → σ → Prop} {l : List (Taken Req Req.Ans Exn σ)} {s : σ}
    {onError : Exn → Prog β} {x : Prog α} {k : α → Prog β}
    {P : List (Taken Req Req.Ans Exn σ) → σ → Except Exn β → Prop}
    (hx : x.Ensures sem R l s fun l' s' => Program.onOutcome (fun v => (k v).Ensures sem R l' s' P)
      fun e => (e.base = true → P l' s' (.error e)) ∧
        (e.base = false → (onError e).Ensures sem R l' s' P)) :
    (guarded onError x k).Ensures sem R l s P := by
  refine Program.ensures_bind.mpr (Program.ensures_attempt.mpr (hx.mono fun l' s' r hr => ?_))
  cases r with
  | ok v => exact hr
  | error e =>
    simp only [Program.onOutcome_ok]
    split
    · rename_i hbase
      exact hr.1 hbase
    · rename_i hbase
      exact hr.2 (eq_false_of_ne_true hbase)

section Migrates

variable {pk : Pk} {A : Alias → Prop} {row : Tenant} {opts : RunOptions} {c : Target}

/-- A lost status write is looked into without touching the lease, and reported for the target. -/
theorem casLost_within : (casLost pk c).Within (Req.works pk A) c.Reports := by
  refine Program.Within.bind (call_within rfl) fun found _ => ?_
  match found with
  | none => exact c.reports_result ..
  | some (status, mine) =>
    dsimp only
    split <;> exact c.reports_result ..

/-- The plan is looked at on the shard of the row. -/
theorem pendingPlan_works (h : A row.shard.dbAlias) :
    (pendingPlan row).Only (Req.works pk A) := by
  refine Program.Only.bind (only_call h) fun found => ?_
  cases found with
  | true =>
    refine Program.Only.tryFinally ?_ (only_call h)
    exact Program.Only.bind (only_call h) fun plan => trivial
  | false => trivial

/-- A failure is reported for the target, after its connection was closed. -/
theorem failure_within {a : Alias} (h : A a) (e : Exn) (schema : SchemaName) (c : Target) :
    (failure e a schema c).Within (Req.works pk A) c.Reports := by
  refine Program.Within.bind (call_within h) fun _ _ => ?_
  refine Program.Within.bind (Program.Only.within ?_) fun indexes _ => ⟨rfl, rfl⟩
  exact only_guarded (only_call h) (fun _ => trivial) fun _ => trivial

/-- The handler of `_provision` leaves the lease as it is and reports for the target. -/
theorem provisionFailed_within (pk : Pk) (c : Target) (h : A row.shard.dbAlias) (side : Side)
    (claimed : Bool) (e : Exn) :
    (provisionFailed pk row c side claimed e).Within (Req.works pk A) c.Reports := by
  rw [provisionFailed]
  split
  · exact c.reports_lost ..
  · refine Program.Within.bind (failure_within h e _ c) fun res hres => ?_
    split
    · refine within_guarded (U := c.Reports) ?_ (fun _ hr => hr) fun e => ?_
      · refine Program.Within.bind (call_within rfl) fun won _ => ?_
        split
        · exact Program.Within.bind (call_within rfl) fun _ _ => hres
        · exact Program.Within.bind casLost_within fun lost hlost => ⟨hlost.1, hlost.2⟩
      · split
        · exact ⟨hres.1, hres.2⟩
        · trivial
    · exact hres

private theorem provisionSchema_works (h : A row.shard.dbAlias) :
    (provisionSchema pk row opts).Only (Req.works pk A) := by
  refine Program.Only.bind (only_call h) fun _ => Program.Only.bind (only_call h) fun _ =>
    Program.Only.bind (only_call h) fun _ => ?_
  refine (pendingPlan_works h).bind fun plan => ?_
  match plan with
  | none => trivial
  | some [] => trivial
  | some (_ :: _) => trivial

private theorem provisionClaimed_within (h : A row.shard.dbAlias) :
    (provisionClaimed pk row opts c).Within (Req.works pk A) c.Reports := by
  have hfailed := provisionFailed_within pk c h
  refine within_guarded (provisionSchema_works h).within (fun _ _ => ?_) (hfailed _ _)
  refine within_guarded (call_within trivial) (fun older _ => ?_) (hfailed _ _)
  split
  · exact c.reports_result ..
  · refine within_guarded (call_within rfl) (fun won _ => ?_) (hfailed _ _)
    split
    · refine within_guarded (call_within rfl) (fun _ _ => ?_) (hfailed _ _)
      split <;> exact c.reports_result ..
    · exact within_guarded casLost_within (fun _ hr => hr) (hfailed _ _)

private theorem provisionClaim_within (h : A row.shard.dbAlias) :
    (provisionClaim pk row opts c).Within (Req.works pk A) c.Reports := by
  have hfailed := provisionFailed_within pk c h
  refine within_guarded (call_within rfl) (fun won _ => ?_) (hfailed _ _)
  split
  · exact provisionClaimed_within h
  · exact within_guarded casLost_within (fun _ hr => hr) (hfailed _ _)

private theorem provision_within (h : A row.shard.dbAlias) :
    (provision pk row opts c).Within (Req.works pk A) c.Reports := by
  have hfailed := provisionFailed_within pk c h
  rw [provision]
  split
  · exact c.reports_result ..
  · refine within_guarded (call_within trivial) (fun older _ => ?_) (hfailed _ _)
    split
    · exact c.reports_result ..
    · refine within_guarded (U := fun _ => True) ?_ (fun foreign _ => ?_) (hfailed _ _)
      · split
        · exact (call_within h)
        · trivial
      · split
        · refine within_guarded (call_within rfl) (fun won _ => ?_) (hfailed _ _)
          split
          · exact within_guarded (call_within rfl) (fun _ _ => c.reports_result ..)
              (hfailed _ _)
          · exact within_guarded casLost_within (fun _ hr => hr) (hfailed _ _)
        · exact provisionClaim_within h

/-- The handler of `_upgrade` leaves the lease as it is and reports for the target. -/
theorem upgradeFailed_within (pk : Pk) (c : Target) (h : A row.shard.dbAlias) (side : Side)
    (e : Exn) :
    (upgradeFailed row c side e).Within (Req.works pk A) c.Reports := by
  rw [upgradeFailed]
  split
  · exact c.reports_lost ..
  · exact failure_within h e _ c

private theorem upgradeMissing_within (h : A row.shard.dbAlias) :
    (upgradeMissing pk row c).Within (Req.works pk A) c.Reports := by
  have hfailed := upgradeFailed_within pk c h
  rw [upgradeMissing]
  split
  · exact c.reports_result ..
  · refine within_guarded (call_within rfl) (fun won _ => ?_) (hfailed _)
    split
    · exact within_guarded (call_within rfl) (fun _ _ => c.reports_result ..) (hfailed _)
    · exact within_guarded casLost_within (fun _ hr => hr) (hfailed _)

private theorem upgradeRun_within (h : A row.shard.dbAlias) (plan : Plan) :
    (upgradeRun pk row opts c plan).Within (Req.works pk A) c.Reports := by
  have hfailed := upgradeFailed_within pk c h
  refine within_guarded (Program.Only.within ?_) (fun _ _ => ?_) (hfailed _)
  · exact Program.Only.bind (only_call h) fun _ => only_call h
  · split
    · exact within_guarded (pendingPlan_works h).within (fun _ _ => c.reports_result ..)
        (hfailed _)
    · exact c.reports_result ..

private theorem upgrade_within (h : A row.shard.dbAlias) :
    (upgrade pk row opts c).Within (Req.works pk A) c.Reports := by
  refine within_guarded (pendingPlan_works h).within (fun plan _ => ?_)
    (upgradeFailed_within pk c h _)
  cases plan with
  | none => exact upgradeMissing_within h
  | some plan =>
    dsimp only
    split
    · exact c.reports_result ..
    · exact upgradeRun_within h plan

/-- The gate reports for the target. -/
theorem gate_reports {res : Result} (h : gate row opts c = some res) : c.Reports res := by
  rw [gate] at h
  split at h
  · obtain rfl := Option.some.inj h
    exact c.reports_result ..
  · split at h
    · obtain rfl := Option.some.inj h
      exact c.reports_result ..
    · cases h

/-- What step 4 does with the row it has re-read. -/
def workOn (pk : Pk) (opts : RunOptions) (c : Target) (t : Tenant) : Prog Result :=
  match gate t opts c with
  | some res => pure res
  | none =>
    if t.status ∈ provisionable then provision pk t opts c
    else if upgradable t opts then upgrade pk t opts c
    else pure (c.result .skipped .statusChanged
      s!"status changed concurrently (now {pyRepr t.status.value})")

/-- The work on a re-read row leaves the lease as it is and reports for the target. -/
theorem workOn_within (h : A row.shard.dbAlias) :
    (workOn pk opts c row).Within (Req.works pk A) c.Reports := by
  rw [workOn]
  split
  · rename_i res hgate
    exact gate_reports hgate
  · split
    · exact provision_within h
    · split
      · exact upgrade_within h
      · exact c.reports_result ..

/-- The clean-up of a leased run makes only requests of a migrator. -/
theorem leasedExit_migrates {a : Alias} (h : A a) (finished : Bool) :
    (leasedExit pk a finished).Only (Req.migrates pk A) := by
  refine Program.Only.bind (only_call h) fun idle => Program.Only.bind (only_call h) fun _ => ?_
  split
  · exact only_guarded (Program.Only.bind (only_call rfl) fun _ => trivial) (fun _ => trivial)
      fun _ => trivial
  · trivial

/-- Acquiring a lease makes only requests of a migrator. -/
theorem leaseAcquire_migrates {a : Alias} (h : A a) :
    (leaseAcquire pk a).Only (Req.migrates pk A) := by
  refine Program.Only.bind ?_ fun busy => ?_
  · refine only_guarded (only_call h) (fun _ => trivial) fun e => ?_
    split <;> trivial
  · cases busy with
    | some busy => exact Program.Only.bind (only_call rfl) fun _ => trivial
    | none =>
      refine Program.Only.bind (only_call rfl) fun won => ?_
      split
      · trivial
      · exact Program.Only.bind (only_call rfl) fun _ => trivial

/-- The body of a leased run leaves the lease as it is and reports for the target. -/
theorem leasedBody_within (hA : ∀ a, A a) :
    (leasedBody pk opts c).Within (Req.works pk A) c.Reports := by
  refine within_guarded (call_within rfl) (fun found _ => ?_) fun e => ?_
  · cases found with
    | none => exact c.reports_result ..
    | some t => exact workOn_within (hA _)
  · split
    · exact c.reports_lost ..
    · exact c.reports_result ..

private theorem underLease_within (hA : ∀ a, A a) :
    (underLease pk opts c).Within (Req.migrates pk A) c.Reports := by
  refine Program.Within.bind ((leasedBody_within hA).widen fun _ h => h.migrates).attempt fun r hr => ?_
  exact Program.Within.bind (Program.Only.within (leasedExit_migrates (hA _) _)) fun _ _ => hr

private theorem withLease_within (hA : ∀ a, A a) :
    (withLease pk opts c).Within (Req.migrates pk A) c.Reports := by
  refine within_guarded (Program.Only.within (leaseAcquire_migrates (hA _))) (fun held _ => ?_)
    fun e => ?_
  · cases held with
    | some msg => exact c.reports_result ..
    | none => exact underLease_within hA
  · split
    · exact c.reports_lost ..
    · split
      · exact c.reports_lost ..
      · trivial

/-- What the first step 2 reports, if it reports at all. -/
def Target.ReportsIf (c : Target) (res : Option Result) : Prop := ∀ r, res = some r → c.Reports r

/-- The shortcut leaves the lease as it is, and reports for the target if at all. -/
theorem noopShortcut_within (h : A row.shard.dbAlias) :
    (noopShortcut row opts c).Within (Req.works pk A) c.ReportsIf := by
  rw [noopShortcut]
  split
  · refine within_guarded (pendingPlan_works h).within (fun plan _ => ?_) fun e => ?_
    · split
      · rintro r ⟨⟩
        exact c.reports_result ..
      · exact nofun
    · split
      · rintro r ⟨⟩
        exact c.reports_lost ..
      · refine Program.Within.bind (failure_within h e _ c) fun res hres => ?_
        rintro r ⟨⟩
        exact hres
  · exact nofun

private theorem migrateLoaded_within (hA : ∀ a, A a) :
    (migrateLoaded pk opts row).Within (Req.migrates pk A)
      (Target.Reports ⟨row.schemaName, row.shard.dbAlias⟩) := by
  rw [migrateLoaded]
  split
  · exact Target.reports_result ..
  · split
    · rename_i res hgate
      exact gate_reports hgate
    · refine Program.Within.bind ((noopShortcut_within (hA _)).widen fun _ h => h.migrates)
        fun first hfirst => ?_
      cases first with
      | some res => exact hfirst res rfl
      | none => exact withLease_within hA

end Migrates

/-- A migrator makes only requests about its tenant. -/
theorem migrateTenant_migrates (pk : Pk) (opts : RunOptions) :
    (migrateTenant pk opts).Only (Req.migrates pk fun _ => True) := by
  refine only_guarded (only_call rfl) (fun found => ?_) fun e => ?_
  · cases found with
    | none => trivial
    | some row => exact (migrateLoaded_within fun _ => trivial).only
  · split <;> trivial

/-! ### The other programs -/

/-- The requests of the console, the admin and the serializer. -/
def Req.edits : Req → Prop
  | .leaseUpsert _ | .leaseRelease _ | .leaseForceRelease _ _ | .fencedCas _ _ _ => False
  | _ => True

/-- What only looks is a request of the console, the admin and the serializer. -/
theorem Req.edits_of_looks {op : Req} (h : op.looks) : op.edits := by
  cases op with
  | leaseUpsert k => exact h.elim
  | leaseRelease k => exact h.elim
  | leaseForceRelease k o => exact h.elim
  | fencedCas pk expected w => exact h.elim
  | _ => trivial

/-- The `UPDATE` of a console transition makes only such requests. -/
theorem transitionUpdate_edits (pk : Pk) (row : Tenant) (source dest : Status) :
    (transitionUpdate pk row source dest).Only Req.edits := by
  refine Program.Only.bind (only_call trivial) fun updated => ?_
  split
  · exact Program.Only.bind (only_call trivial) fun _ => Program.Only.bind (only_call trivial) fun _ => trivial
  · trivial

/-- A console transition makes only such requests. -/
theorem transition_edits (pk : Pk) (source dest : Status) (stopper : Bool) :
    (transition pk source dest stopper).Only Req.edits := by
  refine Program.Only.bind (only_call trivial) fun found => ?_
  cases found with
  | none => trivial
  | some row =>
    dsimp only
    split
    · trivial
    · split
      · trivial
      · split
        · refine ((checkReactivation_looks row).mono fun _ => Req.edits_of_looks).bind fun b => ?_
          cases b with
          | some b => trivial
          | none => exact transitionUpdate_edits pk row source dest
        · exact transitionUpdate_edits pk row source dest

/-- An edit over the API makes only such requests. -/
theorem serializerUpdate_edits (pk : Pk) (ch : World.Changes) :
    (serializerUpdate pk ch).Only Req.edits := by
  refine Program.Only.bind (only_call trivial) fun found => ?_
  cases found with
  | none => trivial
  | some row =>
    dsimp only
    split
    · trivial
    · refine Program.Only.bind (only_call trivial) fun _ => ?_
      refine Program.Only.bind (Program.Only.attempt ?_) fun r => ?_
      · refine Program.Only.bind (only_call trivial) fun found => ?_
        split <;> trivial
      · cases r with
        | ok u => exact Program.Only.bind (only_call trivial) fun _ => only_call trivial
        | error e => exact Program.Only.bind (only_call trivial) fun _ => trivial

private theorem saveModel_edits (sub : Submission) (row : Tenant) (old dest : Status) :
    (saveModel sub row old dest).Only Req.edits := by
  refine Program.Only.bind ?_ fun forgets => ?_
  · rw [saveStatus]
    split
    · refine Program.Only.bind ?_ fun _ => ?_
      · rw [refuseIfMigrating]
        split
        · refine Program.Only.bind ?_ fun holder => ?_
          · exact Program.Only.bind (only_call trivial) fun _ => only_call trivial
          · cases holder <;> trivial
        · trivial
      · refine Program.Only.bind (only_call trivial) fun updated => ?_
        split <;> trivial
    · trivial
  · split
    · trivial
    · refine Program.Only.bind ?_ fun _ => trivial
      refine Program.Only.bind (only_call trivial) fun found => ?_
      split <;> trivial

private theorem adminBody_edits (sub : Submission) : (adminBody sub).Only Req.edits := by
  refine Program.Only.bind (only_call trivial) fun found => ?_
  cases found with
  | none => trivial
  | some row =>
    refine ((clean_looks sub row).mono fun _ => Req.edits_of_looks).bind fun e => ?_
    cases e with
    | some e => trivial
    | none =>
      dsimp only
      split
      · trivial
      · split
        · trivial
        · exact (saveModel_edits sub row _ _).bind fun _ => trivial

/-- The `on_commit` hooks of the admin invalidate, whatever else is asked of them. -/
theorem forgetTimes_only {pk : Pk} (h : Q (.forgetTenant pk)) (n : Nat) : (forgetTimes pk n).Only Q := by
  induction n with
  | zero => trivial
  | succ n ih => exact Program.Only.bind (only_call h) fun _ => ih

/-- A change in the admin makes only such requests. -/
theorem adminChange_edits (sub : Submission) : (adminChange sub).Only Req.edits := by
  refine Program.Only.bind (only_call trivial) fun _ => ?_
  refine (adminBody_edits sub).attempt.bind fun r => ?_
  cases r with
  | ok res =>
    refine Program.Only.bind (only_call trivial) fun _ => ?_
    exact (forgetTimes_only trivial _).bind fun _ => trivial
  | error e =>
    refine Program.Only.bind (only_call trivial) fun _ => ?_
    split <;> trivial

/-- The requests of `migration_lease --release` between its read and its `UPDATE`. -/
def Req.inspects : Req → Prop
  | .shard _ (.sessionActive _) => True
  | _ => False

private theorem firstSession_inspects (k : Pk) (aliases : List Alias) :
    (firstSession k aliases).Only Req.inspects := by
  induction aliases with
  | nil => trivial
  | cons a rest ih =>
    refine Program.Only.bind (only_call trivial) fun busy => ?_
    cases busy with
    | some b => trivial
    | none => exact ih

/-- Between its read and its `UPDATE` the release command only inspects. -/
theorem releaseUnlessForced_inspects (k : Pk) (label : String) (aliases : List Alias)
    (force : Bool) (h : LeaseHolder) :
    (releaseUnlessForced k label aliases force h).Only Req.inspects := by
  rw [releaseUnlessForced]
  split
  · trivial
  · refine Program.Only.bind ?_ fun found => ?_
    · refine only_guarded (firstSession_inspects k aliases) (fun _ => trivial) fun e => ?_
      split <;> trivial
    · cases found with
      | some found => trivial
      | none =>
        dsimp only
        split <;> trivial

/-- `migration_lease --release` asks for the holder, looks for sessions and releases. -/
theorem releaseCommand_only {k : Pk} (label : String) (aliases : List Alias) (force : Bool)
    (holder : Q (.leaseHolder k)) (session : ∀ a k', Q (.shard a (.sessionActive k')))
    (release : ∀ o, Q (.leaseForceRelease k o)) :
    (releaseCommand k label aliases force).Only Q := by
  refine Program.Only.bind (only_call holder) fun found => ?_
  cases found with
  | none => trivial
  | some h =>
    have hchecks : (releaseUnlessForced k label aliases force h).Only Q := by
      refine (releaseUnlessForced_inspects k label aliases force h).mono fun op hop => ?_
      cases op with
      | shard a q =>
        cases q with
        | sessionActive k' => exact session a k'
        | _ => exact hop.elim
      | _ => exact hop.elim
    refine hchecks.bind fun _ => Program.Only.bind (only_call (release h.owner)) fun released => ?_
    split
    · trivial
    · exact Program.Only.bind (only_call holder) fun _ => trivial

end Only

end MtShards.Migrator
