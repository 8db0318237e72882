import MtShards.Models.Migrator.DeployGate
import MtShards.Models.Scheduler.Conservation

/-!
# A run of `migrate_schemas`

The stages of `_run` around the loops: the shared stage, the selection of the targets, the re-check
of `locked` skips, and the exit code. While the command is at work the site changes under the hands
of its workers and of others.
-/

namespace MtShards.Scheduler

open MtShards.Core
open MtShards.Migrator (Kind Reason Result Pk Row RunOptions Prog Plan Site SiteLog Fact Grows Placed
  KeepsSchema siteSem provisionable upgradableStatuses migrateTenant migrateShared publicSchema)

/-! ### The targets -/

/-- A tenant as a target. -/
def rowTarget (r : Row) : Target := ⟨r.tenant.schemaName, r.dbAlias, r.pk, r.tenant.status⟩

/-- Whether `_select_targets` takes a tenant of the `--tenant` stage. -/
def selectable (database : Option Alias) (r : Row) : Bool :=
  decide (r.tenant.status ∈ provisionable ++ upgradableStatuses) && !r.tenant.shard.isDefault &&
    r.shardActive && (r.tenant.schemaName != "public") &&
    database.all fun a => a == "" || a == r.dbAlias

/-- `_select_targets`: the tenant of `-s`, or those of the stage in the order of the query. -/
def selectTargets (tenant : Option Row) (database : Option Alias) (rows : List Row) : List Row :=
  match tenant with
  | some r => [r]
  | none => rows.filter (selectable database)

/-! ### The exit code -/

/-- `e.kind in ("ok", "noop")`. -/
def EntryKind.passes (k : EntryKind) : Bool := k == .of .ok || k == .of .noop

/-- `exit_code`. -/
def exitCode (kinds : List EntryKind) (stopped : Bool) : Nat :=
  if !stopped && kinds.all EntryKind.passes then 0 else 1

/-! ### The re-check of `locked` skips -/

/-- A turn of `_recheck_locked`: whether the tenant is still being provisioned elsewhere, and the new
text; `none` when the skip stands. -/
def recheckLocked (pk : Pk) (before : Status) : Prog (Option (Bool × String)) :=
  Migrator.catching
    (do let row : Option Migrator.Tenant ← Migrator.load pk
        match row with
        | none => pure none
        | some t =>
          if t.status ∈ upgradableStatuses then do
            let plan ← Migrator.pendingPlan t
            if plan = some [] then
              pure (some (false, if before ∈ provisionable then "provisioned by another run"
                else "done by another run"))
            else pure none
          else if t.status = .pending then do
            let h ← Migrator.leaseHolder pk
            match h with
            | some h =>
              if h.expired then pure none
              else pure (some (true, s!"provisioning in progress elsewhere ({h.owner})"))
            | none => pure none
          else pure none)
    fun _ => pure none

/-! ### What the command sees -/

/-- A value that a program has returned in some process, from a site where `f` was known; nothing
was taken away from the schema since. -/
def Earned {α : Type} (known : Plan) (f : Fact) (pk : Pk) (t : Migrator.Tenant) (x : Prog α) (v : α)
    (s : Site) : Prop :=
  ∃ p s₁ l s₂, Placed p pk t s₁ ∧ f.Holds known t s₁ ∧
    Exec (siteSem (KeepsSchema p pk t) known p) x s₁ l (.done (.ok v)) s₂ ∧ Grows t s₂ s

/-- No schema loses what it records. -/
def AllGrow (ts : List Migrator.Tenant) (s s' : Site) : Prop := ∀ t ∈ ts, Grows t s s'

/-- The options of a run that `_run` reads. -/
structure Flags where
  syncPublic : Bool
  syncTenant : Bool
  /-- The tenant of `-s`. -/
  tenant : Option Row
  database : Option Alias
  keepGoing : Bool
  maxFailures : Int
  jobs : Int
  perShard : Int
  opts : RunOptions

/-- The schemas a run is about. -/
def schemasOf (rows : List Row) : List Migrator.Tenant := publicSchema :: rows.map Row.tenant

/-- What may happen while the parent of a parallel run is at work: schemas grow, workers deliver what
`migrate_tenant` has returned, and the re-check finds what it reports. -/
def ParallelAllowed (known : Plan) (opts : RunOptions) (rows : List Row) :
    Parent × Site → Site ⊕ Event → Prop
  | (_, s), .inl s' => AllGrow (schemasOf rows) s s'
  | (_, s), .inr (.delivers i (.result res)) => ∀ r, rows[i]? = some r →
      Earned known .nothing r.pk r.tenant (migrateTenant r.pk opts) res s
  | (_, s), .inr (.recheck i provisioning msg) => ∀ r, rows[i]? = some r →
      Earned known .nothing r.pk r.tenant (recheckLocked r.pk r.tenant.status)
        (some (provisioning, msg)) s
  | _, _ => True

/-- What may happen during the sequential loop. -/
def SequentialAllowed (known : Plan) (opts : RunOptions) (rows : List Row) :
    SeqLoop × Site → Site ⊕ SeqEvent → Prop
  | (_, s), .inl s' => AllGrow (schemasOf rows) s s'
  | (l, s), .inr (.returns res) => ∀ i r, l.pc = .running i → rows[i]? = some r →
      Earned known .nothing r.pk r.tenant (migrateTenant r.pk opts) res s
  | _, _ => True

/-- `_run` after the sequential loop has returned. -/
def SeqLoop.after (l : SeqLoop) (size : Nat) : Parent :=
  { Parent.start size l.sched with
    signals := l.signals, started := l.started, stop := l.sched.stage.stop, pc := .recheck }

/-- The stages of a run up to its end, at a site. -/
structure Ending where
  /-- The kind of the entry of the shared stage. -/
  shared : Option Kind
  entries : List Entry
  stopped : Bool

/-- `exit_code(self.entries, self.stop)`. -/
def Ending.exitCode (e : Ending) : Nat :=
  Scheduler.exitCode (e.shared.toList.map .of ++ e.entries.map Entry.kind) e.stopped

/-- The shared stage was not asked for, or is done. -/
inductive SharedDone (known : Plan) (f : Flags) : Option Kind → Site → Prop
  | skipped {s : Site} : f.syncPublic = false → SharedDone known f none s
  | done {s : Site} {leaseTable : Except Migrator.Exn Bool} {res : Result} : f.syncPublic = true →
      Earned known ⟨True, True, False⟩ 0 publicSchema (migrateShared leaseTable f.opts) res s →
      res.kind = .ok → SharedDone known f (some .ok) s

/-- The entries of a run over some targets. -/
def Sched.report (s : Sched) (size : Nat) : List Entry := (List.range size).map s.entry

/-- How `_run` ends, when it raises nothing, for the tenants that `_select_targets` reads. -/
inductive RunEnds (known : Plan) (f : Flags) (rows : List Row) : Ending → Site → Prop
  | sharedFailed {s : Site} {leaseTable : Except Migrator.Exn Bool} {res : Result} :
      f.syncPublic = true →
      Earned known ⟨True, True, False⟩ 0 publicSchema (migrateShared leaseTable f.opts) res s →
      res.kind ≠ .ok → RunEnds known f rows ⟨some res.kind, [], true⟩ s
  | sharedOnly {k : Option Kind} {s : Site} : f.syncTenant = false → SharedDone known f k s →
      RunEnds known f rows ⟨k, [], false⟩ s
  /-- A signal before the selection, or `default` is lost while selecting. -/
  | unselected {k : Option Kind} {s : Site} : f.syncTenant = true → SharedDone known f k s →
      RunEnds known f rows ⟨k, [], true⟩ s
  | noTargets {k : Option Kind} {s : Site} : f.syncTenant = true → SharedDone known f k s →
      selectTargets f.tenant f.database rows = [] → RunEnds known f rows ⟨k, [], false⟩ s
  | parallel {k : Option Kind} {s₀ s : Site} {p : Parent} : f.syncTenant = true →
      SharedDone known f k s₀ →
      Trace (besides fun p => Parent.step p f.jobs f.perShard)
        (ParallelAllowed known f.opts (selectTargets f.tenant f.database rows))
        (.start (selectTargets f.tenant f.database rows).length
          (.of ((selectTargets f.tenant f.database rows).map rowTarget) f.keepGoing f.maxFailures), s₀)
        (p, s) →
      p.pc = .ended →
      RunEnds known f rows
        ⟨k, p.sched.report (selectTargets f.tenant f.database rows).length, p.stop.isSome⟩ s
  | sequential {k : Option Kind} {s₀ s₁ s : Site} {l : SeqLoop} {p : Parent} : f.syncTenant = true →
      SharedDone known f k s₀ →
      Trace (besides SeqLoop.step)
        (SequentialAllowed known f.opts (selectTargets f.tenant f.database rows))
        (.start (.of ((selectTargets f.tenant f.database rows).map rowTarget) f.keepGoing f.maxFailures),
          s₀) (l, s₁) →
      l.pc = .returned →
      Trace (besides fun p => Parent.step p f.jobs f.perShard)
        (ParallelAllowed known f.opts (selectTargets f.tenant f.database rows))
        (l.after (selectTargets f.tenant f.database rows).length, s₁) (p, s) →
      p.pc = .ended →
      RunEnds known f rows
        ⟨k, p.sched.report (selectTargets f.tenant f.database rows).length, p.stop.isSome⟩ s

end MtShards.Scheduler
