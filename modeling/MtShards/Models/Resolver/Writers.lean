import MtShards.Models.Resolver.Registry

/-!
# Resolvers, writers and runs

The resolver's cache fill, the writers of the registry tables with the hooks that run after
their commit (`tenants.signals`, `Domain.save`, the status writers), and the interleavings of
any number of them.
-/

namespace MtShards.Resolver

open MtShards.Core

/-- `_fill`: the `db_resolver` closure reads the row or raises `not_found`. -/
def fill (cfg : Settings) (hostname : Host) : Prog TenantSnapshot := do
  match ← call (.readRow hostname) with
  | none => do
    storeMiss cfg hostname
    Program.raise (.notFound hostname)
  | some tenant => do
    let _ ← put cfg hostname tenant
    pure tenant

/-- A status writer, once it knows its tenant: a compare-and-set of the status, then
`forget_tenant`. `TenantViewSet._transition`, `TenantAdmin.save_model` and the migrator's fenced
writes differ in what they expect. -/
def changeStatus (cfg : Settings) (pk : Nat) (expected : List Status) (st : Status) :
    Prog Unit := do
  match ← call (.loadTenant pk) with
  | none => pure ()
  | some tenant =>
    if ← call (.updateStatus tenant.id expected st) then forgetTenant cfg tenant

/-- The hooks of `invalidate_domain_saved`, after the commit. -/
def domainSaved (cfg : Settings) (keys : List Key) (domain : Host) : Prog Unit := do
  tombstoneKeys cfg keys
  add cfg domain
  arm cfg
  triggerWarm cfg

/-- The hooks of `invalidate_domain_deleted`, after the commit. -/
def domainDeleted (cfg : Settings) (keys : List Key) (domain : Host) : Prog Unit := do
  tombstoneKeys cfg keys
  remove cfg domain
  arm cfg
  triggerWarm cfg

/-- `Domain.objects.create`. -/
def createDomain (cfg : Settings) (d : Domain) : Prog Unit := do
  let keys ← forgetHost d.domain
  if ← call (.insertDomain d) then domainSaved cfg keys d.domain
  else Program.raise .integrityError

/-- `Domain.delete` of a loaded instance. -/
def deleteDomain (cfg : Settings) (pk : Nat) : Prog Unit := do
  match ← call (.loadDomain pk) with
  | none => pure ()
  | some d => do
    let keys ← forgetHost d.domain
    call (.deleteDomain d)
    domainDeleted cfg keys d.domain

/-- `Domain.save` of a loaded instance that was given the hostname `new`. -/
def saveDomain (cfg : Settings) (pk : Nat) (new : Host) : Prog Unit := do
  match ← call (.loadDomain pk) with
  | none => pure ()
  | some d => do
    let keys ← forgetHost new
    if ← call (.saveDomain d new) then do
      domainSaved cfg keys new
      if d.domain ≠ new then do
        let keys ← forgetHost d.domain
        tombstoneKeys cfg keys
    else Program.raise .integrityError

/-- The kinds of programs a system may run. -/
inductive Kind
  | fill
  | status
  | create
  | delete
  | repoint
  | reconcile
  deriving DecidableEq, Repr

/-- The programs of a kind. -/
inductive Runs (cfg : Config) : Kind → Prog Unit → Prop
  | fill (h) : Runs cfg .fill (fill cfg.toSettings h).void
  | status (pk expected st) : Runs cfg .status (changeStatus cfg.toSettings pk expected st)
  | create (d) : Runs cfg .create (createDomain cfg.toSettings d)
  | delete (pk) : Runs cfg .delete (deleteDomain cfg.toSettings pk)
  | repoint (pk h) : Runs cfg .repoint (saveDomain cfg.toSettings pk h)
  | command : Runs cfg .reconcile (runLocked cfg).void
  | task : Runs cfg .reconcile (reconcileHostRegistryTask cfg)

/-- A process may start a program of one of the kinds. -/
def Starts (cfg : Config) (kinds : Kind → Prop) (_ : Pid) (prog : Prog Unit) : Prop :=
  ∃ k, kinds k ∧ Runs cfg k prog

/-- A step of a trace. -/
abbrev Event := Entry Pid Req Req.Ans Exn World

/-- A run of programs of the given kinds, from a state in which no process runs any. -/
abbrev SysRun (cfg : Config) (kinds : Kind → Prop) (s₀ : World) (t : List Event)
    (c : Core.Config Pid Req Req.Ans Exn World) : Prop :=
  Run (machine cfg.keyspace) (Starts cfg kinds) (.idle s₀) t c

end MtShards.Resolver
