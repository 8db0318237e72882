import MtShards.Models.Migrator.Report

/-!
# Many processes on one site

The interleaving of the system over the shared state together with the schemas of the shards.
A statement whose client is gone may go on in its schema; nothing drops a schema or takes away
what it records. No run has targeted flags, and no save moves a tenant to another shard.
-/

namespace MtShards.Migrator

open MtShards.Core Program

/-- Requests over a site. -/
def siteMachine (known : Plan) : Machine Pid Req Req.Ans Exn Site where
  exec p op s r s' := machine.exec p op s.world r s'.world ∧ op.Finds known s.schemas r ∧
    op.Leaves known (returned r) s.schemas s'.schemas
  inner p op s s' :=
    machine.inner p op s.world s'.world ∧ op.Leaves known false s.schemas s'.schemas
  env s s' := machine.env s.world s'.world ∧ ∀ t, Grows t s s'
  kill p s s' := machine.kill p s.world s'.world ∧ s'.schemas = s.schemas

/-- What a process may be asked to run. -/
inductive InPlace : Prog Unit → Prop
  | migrate (pk : Pk) (opts : RunOptions) (h : opts.targeted = false) :
    InPlace (migrateTenant pk opts).void
  | activate (pk : Pk) : InPlace (activate pk).void
  | deactivate (pk : Pk) : InPlace (deactivate pk).void
  | adminChange (sub : Submission) (h : sub.changes.shard = none) : InPlace (adminChange sub).void
  | serializerUpdate (pk : Pk) (c : World.Changes) (h : c.shard = none) :
    InPlace (serializerUpdate pk c)
  | releaseCommand (k : Pk) (label : String) (aliases : List Alias) (force : Bool) :
    InPlace (releaseCommand k label aliases force).void

/-- The configurations over a site. -/
abbrev SiteConfig := Config Pid Req Req.Ans Exn Site

/-- A step of a trace over a site. -/
abbrev SiteEntry := Entry Pid Req Req.Ans Exn Site

/-- The traces over a site, newest step first. -/
abbrev SiteTrace := List SiteEntry

/-- A run over a site, from one with no open transaction. -/
def SiteRun (known : Plan) (s₀ : Site) (t : SiteTrace) (c : SiteConfig) : Prop :=
  s₀.world.Quiet ∧ Run (siteMachine known) (fun _ => InPlace) (.idle s₀) t c

variable {known : Plan} {s s' : Site} {l : SysLabel}

/-- A run over a site goes on with an answer. -/
theorem site_answer {starts : Pid → Prog Unit → Prop} {c₀ c : SiteConfig} {t : SiteTrace}
    (h : Run (siteMachine known) starts c₀ t c) (p : Pid) (op : Req) (r : Except Exn op.Ans)
    {w : World} {sc : Schemas} {k : Except Exn op.Ans → Prog Unit}
    (he : machine.exec p op c.shared.world r w) (hfinds : op.Finds known c.shared.schemas r)
    (hleaves : op.Leaves known (returned r) c.shared.schemas sc)
    (hp : c.proc p = some (.call op k)) :
    Run (siteMachine known) starts c₀ (⟨.answer p op r, c.shared, ⟨w, sc⟩⟩ :: t)
      ⟨⟨w, sc⟩, Function.update c.proc p (some (k r))⟩ :=
  have hexec : (siteMachine known).exec p op c.shared r ⟨w, sc⟩ := ⟨he, hfinds, hleaves⟩
  h.answer p op r hexec hp

/-- A step over a site is a step of the system over the shared state. -/
theorem site_acts (h : (siteMachine known).Acts l s s') : machine.Acts l s.world s'.world := by
  cases l with
  | start p =>
    obtain rfl : s' = s := h
    rfl
  | inner p op => exact h.1
  | answer p op r => exact h.1
  | env => exact h.1
  | kill p => exact h.1

/-- A step takes nothing away from a schema, where targeted flags are not permitted. -/
theorem grows_of_move {Φ : Type} {P : Protocol Req Req.Ans Exn Φ} {tr : SiteTrace}
    (h : Move (siteMachine known) P tr s l s')
    (hP : ∀ φ a o n, P.permits φ (.shard a (.runMigrations o n)) → o.targeted = false)
    (t : Tenant) : Grows t s s' := by
  cases h with
  | start _ => exact .refl t s
  | inner hp hi => exact grows_of_leaves (fun a o n hop => hP _ a o n (hop ▸ hp)) hi.2
  | answer hp he => exact grows_of_leaves (fun a o n hop => hP _ a o n (hop ▸ hp)) he.2.2
  | env he => exact he.2 t
  | kill hk => exact .of_eq hk.2

end MtShards.Migrator
