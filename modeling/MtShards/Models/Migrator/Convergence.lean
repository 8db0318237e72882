import MtShards.Models.Migrator.Site

/-!
# The migrator brings a tenant up to date

A run of `migrate_tenant` works on one tenant while others work elsewhere. As long as the only
errors are lost connections and interrupts, it leaves the tenant in a state that a further run
takes up, wherever it is cut off: a schema that the migrator itself has begun is never taken for
a foreign one, and a cut-off provisioning is never recorded as FAILED. A run that nothing
hinders ends with every migration of the code recorded.
-/

namespace MtShards.Migrator

open MtShards.Core Program

/-! ### Requests of `p` at a site -/

/-- The requests that leave the tenant rows, the leases and the schemas as they are, and label no
session. -/
def Req.still : Req → Prop
  | .load _ | .casLostRow _ | .leaseHolder _ | .codeOlderThanDb | .forgetTenant _ => True
  | .shardIdle _ | .closeShard _ | .shard _ (.sessionActive _) | .shard _ (.schemaExists _) => True
  | .shard _ (.migrationPlan _) | .shard _ (.schemaHasRelations _) => True
  | .shard _ (.invalidIndexes _) => True
  | _ => False

/-- A lost connection, or an interrupt. -/
def Exn.Cut (e : Exn) : Prop := e.connError = true ∨ e.base = true

/-- The requests of `p` on a site, which fail only by being cut off; the release of the lease
may fail in any way. -/
def cutSem (env : Site → Site → Prop) (known : Plan) (p : Pid) :
    Semantics Req Req.Ans Exn Site := fun op s r s' =>
  siteSem env known p op s r s' ∧ ∀ e, r = .error e → (∃ k, op = .leaseRelease k) ∨ e.Cut

/-- The log of a run at a site, newest request first. -/
abbrev SiteLog := List (Taken Req Req.Ans Exn Site)

/-- A request that raised, or that told the code to be older than the database. -/
def Hinders (z : Taken Req Req.Ans Exn Site) : Prop :=
  z.Raised ∨ (⟨z.op, z.answer, (), ()⟩ : Taken Req Req.Ans Exn Unit) =
    ⟨.codeOlderThanDb, .ok true, (), ()⟩

/-- Something has hindered the run. -/
def Hindered (l : SiteLog) : Prop := ∃ z ∈ l, Hinders z

/-- A log with a hindrance keeps it as it grows. -/
theorem Hindered.cons {l : SiteLog} (h : Hindered l) (z : Taken Req Req.Ans Exn Site) :
    Hindered (z :: l) := by
  obtain ⟨x, hx, hh⟩ := h
  exact ⟨x, List.mem_cons_of_mem _ hx, hh⟩

/-- An exception is a hindrance. -/
theorem hindered_of_error {l : SiteLog} {op : Req} {e : Exn} {s s' : Site} :
    Hindered (⟨op, .error e, s, s'⟩ :: l) := ⟨_, List.mem_cons_self, .inl ⟨e, rfl⟩⟩

/-- What others do besides one tenant, and a condition that they and the run itself keep. -/
structure Beside (env : Site → Site → Prop) (Inv : Site → Prop) (p : Pid) (pk : Pk) (a : Alias)
    (schema : SchemaName) : Prop where
  apart : ∀ s m, env s m → Elsewhere p pk a schema s m
  others : ∀ s m, env s m → Inv s → Inv m
  own : ∀ m s', OwnStep pk a schema m s' → Inv m → Inv s'

/-- Where a tenant and its schema stand. -/
structure At (Inv : Site → Prop) (p : Pid) (pk : Pk) (a : Alias) (schema : SchemaName)
    (row : Tenant) (c : Option Content) (s : Site) : Prop where
  idle : s.world.tx p = none
  row : s.world.tenant pk = some row
  content : s.schemas a schema = c
  inv : Inv s

/-- A lease that stays as it is, and that stays ready to be taken. -/
structure StaysReady (p : Pid) (pk : Pk) (a : Alias) (s s' : Site) : Prop where
  lease : s'.world.lease pk = s.world.lease pk
  ready : s.world.Ready p a pk → s'.world.Ready p a pk

/-- A lease stays as it is while nothing is done. -/
theorem StaysReady.refl (p : Pid) (pk : Pk) (a : Alias) (s : Site) : StaysReady p pk a s s := ⟨rfl, id⟩

/-- A lease that stays as it is twice stays as it is. -/
theorem StaysReady.trans {p : Pid} {pk : Pk} {a : Alias} {s s' s'' : Site}
    (h' : StaysReady p pk a s' s'') (h : StaysReady p pk a s s') : StaysReady p pk a s s'' :=
  ⟨h'.lease.trans h.lease, h'.ready ∘ h.ready⟩

/-- A lease that is held stays with its owner. -/
theorem StaysReady.leaseOwner {p q : Pid} {pk : Pk} {a : Alias} {s s' : Site}
    (h : StaysReady p pk a s s') (ho : s.world.leaseOwner pk = some q) :
    s'.world.leaseOwner pk = some q := by
  rw [World.leaseOwner, h.lease]
  exact ho

section Steps

variable {env : Site → Site → Prop} {Inv : Site → Prop} {known : Plan} {p : Pid} {pk : Pk}
  {a : Alias} {schema : SchemaName} {row : Tenant} {c : Option Content} {s s' m : Site} {op : Req}
  {r : Except Exn op.Ans}

/-- What others do leaves the migrator where it is. -/
theorem At.elsewhere (hb : Beside env Inv p pk a schema) (h : At Inv p pk a schema row c s)
    (hm : env s m) : At Inv p pk a schema row c m := by
  have happart := hb.apart s m hm
  exact ⟨happart.tx.trans h.idle, happart.tenant.trans h.row, happart.content.trans h.content,
    hb.others s m hm h.inv⟩

/-- A process without transaction is without one after a request that opens none. -/
theorem idle_of_exec {w w' : World} (h : w.tx p = none) (hop : op.transacts = false)
    (he : machine.exec p op w r w') : w'.tx p = none := by
  have happly : ((op.apply p w).locks) = w.locks := Req.apply_locks hop
  have hend : ∀ v : World, (v.endTx p).tx p = none := fun v => Function.update_self ..
  rcases exec_locks he with hl | hl | ⟨_, hl | hl⟩
  · rw [(World.locks_eq_iff.mp hl).1, h]
  · rw [(World.locks_eq_iff.mp hl).1, hend]
  · rw [(World.locks_eq_iff.mp (hl.trans happly)).1, h]
  · rw [(World.locks_eq_iff.mp hl).1, hend]

/-- A still request writes no table. -/
theorem Req.still.writes (h : op.still) : op.writes = false := by
  cases op with
  | fencedCas pk expected w => exact h.elim
  | _ => first | rfl | exact h.elim

/-- A still request is none of a transaction. -/
theorem Req.still.transacts (h : op.still) : op.transacts = false := by
  cases op with
  | saveTenant pk c stamp => exact h.elim
  | _ => first | rfl | exact h.elim

/-- A still request leaves the schemas as they are. -/
theorem Req.still.leaves (h : op.still) {done : Bool} {sc sc' : Schemas}
    (hl : op.Leaves known done sc sc') : sc' = sc := by
  cases op with
  | shard b q =>
    cases q with
    | createSchema n => exact h.elim
    | runMigrations o n => exact h.elim
    | _ => exact hl
  | _ => exact hl

/-- A still request labels no session. -/
theorem Req.still.labels (h : op.still) (b : Alias) (k : Pk) : op ≠ .shard b (.openShard k) := by
  rintro rfl
  exact h

/-- A lease that others leave alone stays ready, with time. -/
theorem Elsewhere.ready (h : Elsewhere p pk a schema s m) (hr : s.world.Ready p a pk) :
    m.world.Ready p a pk := by
  refine ⟨?_, h.quiet hr.noSession⟩
  have hclaim := hr.claimable
  rw [World.claimable] at hclaim ⊢
  rw [h.lease]
  split at hclaim
  · exact decide_eq_true (Nat.lt_of_lt_of_le (of_decide_eq_true hclaim) h.clock)
  · rfl

/-- A still request leaves everything where it stands. -/
theorem At.still (hb : Beside env Inv p pk a schema) (h : At Inv p pk a schema row c s)
    (hop : op.still) (hs : siteSem env known p op s r s') :
    At Inv p pk a schema row c s' ∧ StaysReady p pk a s s' := by
  obtain ⟨m, hm, hexec, _, hleaves⟩ := hs
  have hat := h.elsewhere hb hm
  have hcommitted : s'.world.committed = m.world.committed := by
    rcases exec_committed hexec with hkept | ⟨_, happly⟩
    · exact hkept
    · exact happly.trans (Req.apply_committed hop.writes)
  obtain ⟨hlease, htenant, hnow⟩ := World.committed_eq_iff.mp hcommitted
  have hschemas := hop.leaves hleaves
  have hown : OwnStep pk a schema m s' :=
    ⟨fun k _ => congrFun htenant k, fun k _ => congrFun hlease k, fun b n _ => by rw [hschemas]⟩
  have happart := hb.apart s m hm
  refine ⟨⟨idle_of_exec hat.idle hop.transacts hexec, ?_, ?_, hb.own m s' hown hat.inv⟩, ?_, ?_⟩
  · rw [htenant, hat.row]
  · rw [hschemas, hat.content]
  · rw [hlease, happart.lease]
  · intro hready
    have hready' := happart.ready hready
    refine ⟨?_, hready'.noSession.of_exec hop.labels hexec⟩
    rw [World.claimable, hlease, hnow]
    exact hready'.claimable

/-- A request that changes at most the tenant and its lease leaves the rest as it is. -/
theorem At.of_own (hb : Beside env Inv p pk a schema) (h : At Inv p pk a schema row c m)
    {row' : Tenant} (htx : op.transacts = false) (hexec : machine.exec p op m.world r s'.world)
    (hschemas : s'.schemas = m.schemas) (htenant : ∀ k, k ≠ pk → s'.world.tenant k = m.world.tenant k)
    (hlease : ∀ k, k ≠ pk → s'.world.lease k = m.world.lease k)
    (hrow : s'.world.tenant pk = some row') : At Inv p pk a schema row' c s' := by
  have hown : OwnStep pk a schema m s' := ⟨htenant, hlease, fun b n _ => by rw [hschemas]⟩
  refine ⟨idle_of_exec h.idle htx hexec, hrow, ?_, hb.own m s' hown h.inv⟩
  rw [hschemas, h.content]

/-- What a fenced status write that matches does to the tenants. -/
theorem fencedCas_row {w : World} {expected : List Status} {u : World.StatusWrite}
    (hrow : w.tenant pk = some row) (ho : w.leaseOwner pk = some p) (hst : row.status ∈ expected) :
    w.fenceHolds p pk expected = true ∧
      (w.fencedCas p pk expected u).tenant pk = some (u.row w.now row) ∧
      (w.fencedCas p pk expected u).lease = w.lease ∧
      ∀ k, k ≠ pk → (w.fencedCas p pk expected u).tenant k = w.tenant k := by
  have hfence : w.fenceHolds p pk expected = true := by
    rw [World.fenceHolds, hrow]
    simp only [hst, decide_true, ho, Bool.and_self]
  rw [World.fencedCas, if_pos hfence]
  refine ⟨hfence, ?_, rfl, fun k hk => Function.update_of_ne hk ..⟩
  rw [hrow]
  exact Function.update_self ..

/-- A status write of the leaseholder that matches is carried out, or cut off. -/
theorem At.cas (hb : Beside env Inv p pk a schema) (h : At Inv p pk a schema row c s)
    (ho : s.world.leaseOwner pk = some p) {expected : List Status} {u : World.StatusWrite}
    (hst : row.status ∈ expected) {r : Except Exn Bool}
    (hs : siteSem env known p (.fencedCas pk expected u) s r s') :
    s'.world.leaseOwner pk = some p ∧
      ((∃ e, r = .error e ∧ At Inv p pk a schema row c s') ∨
        ((∃ e, r = .error e) ∨ r = .ok true) ∧ ∃ n, At Inv p pk a schema (u.row n row) c s') := by
  obtain ⟨m, hm, hexec, _, hleaves⟩ := hs
  have hat := h.elsewhere hb hm
  have hom : m.world.leaseOwner pk = some p := by
    rw [World.leaseOwner, (hb.apart s m hm).lease]
    exact ho
  obtain ⟨hfence, hnew, hlease, hother⟩ := fencedCas_row (u := u) hat.row hom hst
  have hkept (v : World) (hv : v.committed = m.world.committed) (hvs : s'.world = v) :
      s'.world.leaseOwner pk = some p ∧ At Inv p pk a schema row c s' := by
    obtain ⟨hvl, hvt, _⟩ := World.committed_eq_iff.mp hv
    subst hvs
    refine ⟨by rw [World.leaseOwner, hvl]; exact hom, hat.of_own hb rfl hexec hleaves ?_ ?_ ?_⟩
    · exact fun k _ => congrFun hvt k
    · exact fun k _ => congrFun hvl k
    · rw [hvt, hat.row]
  have hdone (hvs : s'.world.committed = (m.world.fencedCas p pk expected u).committed) :
      s'.world.leaseOwner pk = some p ∧ ∃ n, At Inv p pk a schema (u.row n row) c s' := by
    obtain ⟨hvl, hvt, _⟩ := World.committed_eq_iff.mp hvs
    refine ⟨by rw [World.leaseOwner, hvl, hlease]; exact hom, m.world.now, ?_⟩
    refine hat.of_own hb rfl hexec hleaves (fun k hk => ?_) (fun k _ => ?_) ?_
    · rw [hvt, hother k hk]
    · rw [hvl, hlease]
    · rw [hvt, hnew]
  cases r with
  | ok won =>
    obtain ⟨hans, _, hworld⟩ := hexec
    have hwon : won = true := hans.trans hfence
    obtain ⟨howner, hrow⟩ := hdone (by rw [hworld]; rfl)
    exact ⟨howner, .inr ⟨.inr (by rw [hwon]), hrow⟩⟩
  | error e =>
    rcases hexec.2 with hworld | ⟨_, hworld | ⟨_, hworld⟩⟩
    · obtain ⟨howner, hrow⟩ := hkept m.world rfl hworld
      exact ⟨howner, .inl ⟨e, rfl, hrow⟩⟩
    · obtain ⟨howner, hrow⟩ := hkept (m.world.endTx p) rfl hworld
      exact ⟨howner, .inl ⟨e, rfl, hrow⟩⟩
    · obtain ⟨howner, hrow⟩ := hdone (by rw [hworld]; rfl)
      exact ⟨howner, .inr ⟨.inl ⟨e, rfl⟩, hrow⟩⟩

/-- The upsert of a lease leaves the tenant where it stands; whoever wins holds the lease, and a
lease that can be taken is taken. -/
theorem At.upsert (hb : Beside env Inv p pk a schema) (h : At Inv p pk a schema row c s)
    {r : Except Exn Bool} (hs : siteSem env known p (.leaseUpsert pk) s r s') :
    At Inv p pk a schema row c s' ∧ (r = .ok true → s'.world.leaseOwner pk = some p) ∧
      (s.world.Ready p a pk → r ≠ .ok false) := by
  obtain ⟨m, hm, hexec, _, hleaves⟩ := hs
  have hat := h.elsewhere hb hm
  have happart := hb.apart s m hm
  have hsplit : s'.world.committed = m.world.committed ∨
      s'.world.committed = (m.world.upsertLease p pk).committed := by
    rcases exec_committed hexec with hkept | ⟨_, happly⟩
    · exact .inl hkept
    · exact .inr happly
  have hlease : ∀ k, k ≠ pk → (m.world.upsertLease p pk).lease k = m.world.lease k := by
    intro k hk
    rw [World.upsertLease]
    split
    · exact Function.update_of_ne hk ..
    · rfl
  have htenant : (m.world.upsertLease p pk).tenant = m.world.tenant := by
    rw [World.upsertLease]
    split <;> rfl
  refine ⟨?_, fun hr => ?_, fun hc hr => ?_⟩
  · rcases hsplit with hv | hv <;> obtain ⟨hvl, hvt, _⟩ := World.committed_eq_iff.mp hv
    · refine hat.of_own hb rfl hexec hleaves (fun k _ => congrFun hvt k) (fun k _ => congrFun hvl k) ?_
      rw [hvt, hat.row]
    · refine hat.of_own hb rfl hexec hleaves (fun k _ => ?_) (fun k hk => ?_) ?_
      · rw [hvt, htenant]
      · rw [hvl, hlease k hk]
      · rw [hvt, htenant, hat.row]
  · subst hr
    obtain ⟨hans, _, hworld⟩ := hexec
    have hc : m.world.claimable pk = true := hans.symm
    rw [hworld, Req.apply, World.upsertLease, if_pos hc, World.leaseOwner]
    simp only [Function.update_self, Option.join_some, Option.map_some]
  · subst hr
    obtain ⟨hans, _⟩ := hexec
    cases hans.trans (happart.ready hc).claimable

/-- The release of the lease leaves the tenant where it stands. -/
theorem At.release (hb : Beside env Inv p pk a schema) (h : At Inv p pk a schema row c s)
    {r : Except Exn Bool} (hs : siteSem env known p (.leaseRelease pk) s r s') :
    At Inv p pk a schema row c s' := by
  obtain ⟨m, hm, hexec, _, hleaves⟩ := hs
  have hat := h.elsewhere hb hm
  have hlease : ∀ k, k ≠ pk → (m.world.freeLease pk p).lease k = m.world.lease k := by
    intro k hk
    rw [World.freeLease]
    split
    · exact Function.update_of_ne hk ..
    · rfl
  have htenant : (m.world.freeLease pk p).tenant = m.world.tenant := by
    rw [World.freeLease]
    split <;> rfl
  rcases exec_committed hexec with hv | ⟨_, hv⟩ <;>
    obtain ⟨hvl, hvt, _⟩ := World.committed_eq_iff.mp hv
  · refine hat.of_own hb rfl hexec hleaves (fun k _ => congrFun hvt k) (fun k _ => congrFun hvl k) ?_
    rw [hvt, hat.row]
  · refine hat.of_own hb rfl hexec hleaves (fun k _ => ?_) (fun k hk => ?_) ?_
    · exact congrFun (hvt.trans htenant) k
    · exact (congrFun hvl k).trans (hlease k hk)
    · rw [hvt]
      exact (congrFun htenant pk).trans hat.row

/-- A shard statement of `p` leaves what is committed on `default`. -/
theorem At.of_shard (hb : Beside env Inv p pk a schema) (h : At Inv p pk a schema row c m)
    {q : ShardReq} {d : Option Content} {r : Except Exn q.Ans}
    (hexec : machine.exec p (.shard a q) m.world r s'.world)
    (hschemas : s'.schemas = m.schemas.put a schema d) :
    At Inv p pk a schema row d s' ∧ s'.world.lease pk = m.world.lease pk := by
  have hcommitted : s'.world.committed = m.world.committed := by
    rcases exec_committed hexec with hkept | ⟨_, happly⟩
    · exact hkept
    · exact happly.trans (Req.apply_committed rfl)
  obtain ⟨hlease, htenant, _⟩ := World.committed_eq_iff.mp hcommitted
  have hown : OwnStep pk a schema m s' := ⟨fun k _ => congrFun htenant k,
    fun k _ => congrFun hlease k, fun b n hne => by rw [hschemas, Schemas.put_of_ne hne]⟩
  refine ⟨⟨idle_of_exec h.idle rfl hexec, ?_, ?_, hb.own m s' hown h.inv⟩, congrFun hlease pk⟩
  · rw [htenant, h.row]
  · rw [hschemas, Schemas.put_self]

/-- `_open_shard`. -/
theorem At.openShard (hb : Beside env Inv p pk a schema) (h : At Inv p pk a schema row c s)
    {k : Pk} {r : Except Exn Unit} (hs : siteSem env known p (.shard a (.openShard k)) s r s') :
    At Inv p pk a schema row c s' ∧ s'.world.lease pk = s.world.lease pk := by
  obtain ⟨m, hm, hexec, _, hleaves⟩ := hs
  have hat := h.elsewhere hb hm
  have hkept : s'.schemas = m.schemas.put a schema c := by
    rw [← hat.content, Schemas.put_same]
    exact hleaves
  have hafter := hat.of_shard hb hexec hkept
  exact ⟨hafter.1, hafter.2.trans (hb.apart s m hm).lease⟩

/-- `CREATE SCHEMA IF NOT EXISTS`. -/
theorem At.create (hb : Beside env Inv p pk a schema) (h : At Inv p pk a schema row c s)
    {r : Except Exn Unit} (hs : siteSem env known p (.shard a (.createSchema schema)) s r s') :
    s'.world.lease pk = s.world.lease pk ∧ (At Inv p pk a schema row (some (c.getD .empty)) s' ∨
      ((∃ e, r = .error e) ∧ At Inv p pk a schema row c s')) := by
  obtain ⟨m, hm, hexec, _, hleaves⟩ := hs
  have hat := h.elsewhere hb hm
  have hlease := (hb.apart s m hm).lease
  rcases hleaves with hsc | ⟨hfailed, hsc⟩
  · rw [hat.content] at hsc
    have hafter := hat.of_shard hb hexec hsc
    exact ⟨hafter.2.trans hlease, .inl hafter.1⟩
  · have hafter := hat.of_shard (d := c) hb hexec (by rw [hsc, ← hat.content, Schemas.put_same])
    refine ⟨hafter.2.trans hlease, .inr ⟨?_, hafter.1⟩⟩
    cases r with
    | ok u => cases hfailed
    | error e => exact ⟨e, rfl⟩

/-- `run_migrations` without targeted flags. -/
theorem At.migrate (hb : Beside env Inv p pk a schema) (h : At Inv p pk a schema row c s)
    {o : UpstreamOptions} (ho : o.targeted = false) {r : Except Exn Unit}
    (hs : siteSem env known p (.shard a (.runMigrations o schema)) s r s') :
    s'.world.lease pk = s.world.lease pk ∧
      ∃ n rel, At Inv p pk a schema row (c.map fun x => x.advance known n rel) s' ∧
        (r = .ok () → known.length ≤ n) := by
  obtain ⟨m, hm, hexec, _, hleaves⟩ := hs
  have hat := h.elsewhere hb hm
  rw [Req.Leaves, ShardReq.Leaves, ho] at hleaves
  obtain ⟨n, rel, hsc, hn⟩ := hleaves
  rw [hat.content] at hsc
  have hafter := hat.of_shard hb hexec hsc
  refine ⟨hafter.2.trans (hb.apart s m hm).lease, n, rel, hafter.1, ?_⟩
  rintro rfl
  exact hn rfl

end Steps

/-! ### Where a run may be taken up -/

/-- The status that a run is to leave. -/
def reachedStatus : Status → Status
  | .new | .pending => .active
  | s => s

/-- A row of the same tenant: its schema and its shard do not change. -/
structure SameSchema (t row : Tenant) : Prop where
  schemaName : row.schemaName = t.schemaName
  shard : row.shard = t.shard

/-- A tenant that a run with these options can take up: provisioned in part or not at all, its
schema not a foreign one, or upgradable with its schema in place. -/
structure Resumable (t : Tenant) (opts : RunOptions) (row : Tenant) (c : Option Content) : Prop where
  same : SameSchema t row
  reached : reachedStatus row.status = reachedStatus t.status
  stage : (row.status = .new ∧
      (row.previousStatus ≠ .failed → (c.map Content.relations).getD false = false)) ∨
    row.status = .pending ∨ (upgradable row opts = true ∧ c.isSome = true)

/-- The tenant stands where a run can take it up. -/
def Recoverable (Inv : Site → Prop) (p : Pid) (pk : Pk) (t : Tenant) (opts : RunOptions)
    (s : Site) : Prop :=
  ∃ row c, Resumable t opts row c ∧ At Inv p pk t.shard.dbAlias t.schemaName row c s

/-- The tenant is up to date: it has the status a run is to leave, and its schema records every
migration of the code. -/
def UpToDate (known : Plan) (pk : Pk) (t : Tenant) (s : Site) : Prop :=
  ∃ row c, s.world.tenant pk = some row ∧ SameSchema t row ∧ row.status = reachedStatus t.status ∧
    s.schemas t.shard.dbAlias t.schemaName = some c ∧ c.Complete known

/-- A run reports that the tenant is up to date, and it is. -/
def Done (known : Plan) (pk : Pk) (t : Tenant) (s : Site) (r : Except Exn Result) : Prop :=
  ∃ res, r = .ok res ∧ (res.kind = .ok ∨ res.kind = .noop) ∧ UpToDate known pk t s

/-- What a run leaves: a tenant that can be taken up, and under `F` one that is up to date unless
something has hindered the run. -/
def Goal (Inv : Site → Prop) (known : Plan) (p : Pid) (pk : Pk) (t : Tenant) (opts : RunOptions)
    (F : Prop) (l : SiteLog) (s : Site) (r : Except Exn Result) : Prop :=
  Recoverable Inv p pk t opts s ∧ (F → Done known pk t s r ∨ Hindered l)

section Runs

variable {env : Site → Site → Prop} {Inv : Site → Prop} {known : Plan} {p : Pid} {pk : Pk}
  {t row : Tenant} {opts : RunOptions} {c : Option Content} {F : Prop} {l : SiteLog} {s : Site}
  {α β : Type}

/-- A program that leaves the tenant where it stands, and ends early only if it is cut off. -/
def Observes (env : Site → Site → Prop) (Inv : Site → Prop) (known : Plan) (p : Pid) (pk : Pk)
    (t : Tenant) (opts : RunOptions) (row : Tenant) (c : Option Content)
    (V : SiteLog → α → Prop) (x : Prog α) : Prop :=
  ∀ l s, At Inv p pk t.shard.dbAlias t.schemaName row c s →
    x.Ensures (cutSem env known p) (fun _ => Recoverable Inv p pk t opts) l s fun l' s' r =>
      At Inv p pk t.shard.dbAlias t.schemaName row c s' ∧ StaysReady p pk t.shard.dbAlias s s' ∧
        (Hindered l → Hindered l') ∧ onOutcome (V l') (fun e => e.Cut ∧ Hindered l') r

/-- Returning a value observes nothing. -/
theorem observes_pure {V : SiteLog → α → Prop} {v : α} (hv : ∀ l, V l v) :
    Observes env Inv known p pk t opts row c V (Pure.pure v) :=
  fun l s h => ⟨h, .refl p pk _ s, id, hv l⟩

/-- A sequence observes what its second part does, for the values that the first part can have. -/
theorem Observes.bind {V : SiteLog → α → Prop} {W : SiteLog → β → Prop} {x : Prog α}
    {f : α → Prog β} (hx : Observes env Inv known p pk t opts row c V x)
    (hf : ∀ v, (∃ l, V l v) → Observes env Inv known p pk t opts row c W (f v)) :
    Observes env Inv known p pk t opts row c W (x >>= f) := by
  intro l s h
  refine ensures_bind.mpr ((hx l s h).mono fun l₁ s₁ r₁ hr₁ => ?_)
  obtain ⟨h₁, hlease₁, hmono₁, hout₁⟩ := hr₁
  cases r₁ with
  | error e => exact ⟨h₁, hlease₁, hmono₁, hout₁⟩
  | ok v =>
    refine (hf v ⟨l₁, hout₁⟩ l₁ s₁ h₁).mono fun l₂ s₂ r₂ hr₂ => ?_
    obtain ⟨h₂, hlease₂, hmono₂, hout₂⟩ := hr₂
    exact ⟨h₂, hlease₂.trans hlease₁, hmono₂ ∘ hmono₁, hout₂⟩

/-- A clean-up that observes. -/
theorem Observes.tryFinally {V : α → Prop} {x : Prog α} {clean : Prog Unit}
    (hx : Observes env Inv known p pk t opts row c (fun _ => V) x)
    (hc : Observes env Inv known p pk t opts row c (fun _ _ => True) clean) :
    Observes env Inv known p pk t opts row c (fun _ => V) (tryFinally x clean) := by
  intro l s h
  refine ensures_tryFinally.mpr ((hx l s h).mono fun l₁ s₁ r₁ hr₁ => ?_)
  obtain ⟨h₁, hlease₁, hmono₁, hout₁⟩ := hr₁
  refine (hc l₁ s₁ h₁).mono fun l₂ s₂ r₂ hr₂ => ?_
  obtain ⟨h₂, hlease₂, hmono₂, hout₂⟩ := hr₂
  have hlease := hlease₂.trans hlease₁
  have hmono := hmono₂ ∘ hmono₁
  cases r₂ with
  | error e => exact ⟨h₂, hlease, hmono, hout₂⟩
  | ok u =>
    cases r₁ with
    | ok v => exact ⟨h₂, hlease, hmono, hout₁⟩
    | error e => exact ⟨h₂, hlease, hmono, hout₁.1, hmono₂ hout₁.2⟩

section Calls

variable (hb : Beside env Inv p pk t.shard.dbAlias t.schemaName) (hres : Resumable t opts row c)
include hb hres

/-- A still request observes; `hV` says what its answer tells. -/
theorem observes_call {op : Req} {V : SiteLog → op.Ans → Prop} (hop : op.still)
    (hV : ∀ l s s' v, At Inv p pk t.shard.dbAlias t.schemaName row c s →
      siteSem env known p op s (.ok v) s' → V (⟨op, .ok v, s, s'⟩ :: l) v) :
    Observes env Inv known p pk t opts row c V (call op) := by
  intro l s h r s' hs
  obtain ⟨hat, hlease⟩ := h.still hb hop hs.1
  refine ⟨⟨row, c, hres, hat⟩, hat, hlease, fun hh => hh.cons _, ?_⟩
  cases r with
  | ok v => exact hV l s s' v h hs.1
  | error e =>
    refine ⟨(hs.2 e rfl).resolve_left ?_, hindered_of_error⟩
    rintro ⟨k, rfl⟩
    exact hop

/-- Closing a shard connection changes nothing that is observed. -/
theorem closeShard_observes : Observes env Inv known p pk t opts row c (fun _ _ => True)
    (closeShard t.shard.dbAlias) :=
  observes_call hb hres trivial fun _ _ _ _ _ _ => trivial

/-- The code is found older than the database only where something hinders. -/
theorem codeOlder_observes : Observes env Inv known p pk t opts row c
    (fun l older => older = true → Hindered l) codeOlderThanDb := by
  refine observes_call hb hres trivial fun l s s' v _ _ => ?_
  rintro rfl
  exact ⟨_, List.mem_cons_self, .inr rfl⟩

/-- Loading the tenant finds its row. -/
theorem load_observes : Observes env Inv known p pk t opts row c (fun _ found => found = some row)
    (load pk) := by
  refine observes_call hb hres trivial fun l s s' v h hs => ?_
  obtain ⟨m, hm, hexec, _⟩ := hs
  have hat := h.elsewhere hb hm
  have hans : v = m.world.tenantRow p pk := hexec.1
  rw [hans, World.tenantRow, hat.idle]
  exact hat.row

private theorem relations_observes {u : Tenant} (hu : SameSchema t u) :
    Observes env Inv known p pk t opts row c
      (fun _ found => found = (c.map Content.relations).getD false)
      (schemaHasRelations u.shard.dbAlias u.schemaName) := by
  rw [hu.shard, hu.schemaName]
  refine observes_call hb hres trivial fun l s s' v h hs => ?_
  obtain ⟨m, hm, _, hfinds, _⟩ := hs
  exact hfinds.trans (by rw [(h.elsewhere hb hm).content])

/-- `pending_plan` answers what the schema does not record. -/
theorem pendingPlan_observes {u : Tenant} (hu : SameSchema t u) :
    Observes env Inv known p pk t opts row c
      (fun _ plan => plan = c.map fun x => x.unapplied known) (pendingPlan u) := by
  rw [pendingPlan, hu.shard, hu.schemaName]
  refine Observes.bind (V := fun _ found => found = c.isSome) ?_ fun found hfound => ?_
  · refine observes_call hb hres trivial fun l s s' v h hs => ?_
    obtain ⟨m, hm, _, hfinds, _⟩ := hs
    exact hfinds.trans (by rw [(h.elsewhere hb hm).content])
  obtain ⟨_, rfl⟩ := hfound
  cases hc : c with
  | none => exact observes_pure fun _ => rfl
  | some x =>
    subst hc
    refine Observes.tryFinally ?_ (closeShard_observes hb hres)
    refine Observes.bind (V := fun _ plan => plan = x.unapplied known) ?_ fun plan hplan => ?_
    · refine observes_call hb hres trivial fun l s s' v h hs => ?_
      obtain ⟨m, hm, _, hfinds, _⟩ := hs
      exact hfinds x (h.elsewhere hb hm).content
    · obtain ⟨_, rfl⟩ := hplan
      exact observes_pure fun _ => rfl

end Calls

/-- What a `try` block asks when it is only ever left by being cut off. -/
theorem ensures_attempted {onError : Exn → Prog Result} {x : Prog α} {k : α → Prog Result}
    (hconn : ∀ e, e.connError = true → ∃ res, onError e = Pure.pure res)
    (h : x.Ensures (cutSem env known p) (fun _ => Recoverable Inv p pk t opts) l s fun l' s' r =>
      onOutcome (fun v => (k v).Ensures (cutSem env known p) (fun _ => Recoverable Inv p pk t opts)
          l' s' (Goal Inv known p pk t opts F))
        (fun e => (e.Cut ∧ Hindered l') ∧ Recoverable Inv p pk t opts s') r) :
    (guarded onError x k).Ensures (cutSem env known p) (fun _ => Recoverable Inv p pk t opts) l s
      (Goal Inv known p pk t opts F) := by
  refine ensures_guarded (h.mono fun l' s' r hr => ?_)
  cases r with
  | ok v => exact hr
  | error e =>
    obtain ⟨⟨hcut, hhind⟩, hrec⟩ := hr
    refine ⟨fun _ => ⟨hrec, fun _ => .inr hhind⟩, fun hbase => ?_⟩
    have hlost : e.connError = true := by
      rcases hcut with hc | hc
      · exact hc
      · rw [hbase] at hc
        cases hc
    obtain ⟨res, hpure⟩ := hconn e hlost
    rw [hpure]
    exact ⟨hrec, fun _ => .inr hhind⟩

/-- The same, for a block that observes. -/
theorem Observes.attempted {V : SiteLog → α → Prop} {onError : Exn → Prog Result} {x : Prog α}
    {k : α → Prog Result} (hx : Observes env Inv known p pk t opts row c V x)
    (hres : Resumable t opts row c) (hconn : ∀ e, e.connError = true → ∃ res, onError e = Pure.pure res)
    (h : At Inv p pk t.shard.dbAlias t.schemaName row c s)
    (hk : ∀ l' s' v, At Inv p pk t.shard.dbAlias t.schemaName row c s' →
      StaysReady p pk t.shard.dbAlias s s' → V l' v →
      (k v).Ensures (cutSem env known p) (fun _ => Recoverable Inv p pk t opts) l' s'
        (Goal Inv known p pk t opts F)) :
    (guarded onError x k).Ensures (cutSem env known p) (fun _ => Recoverable Inv p pk t opts) l s
      (Goal Inv known p pk t opts F) := by
  refine ensures_attempted hconn ((hx l s h).mono fun l' s' r hr => ?_)
  obtain ⟨hat, hlease, _, hout⟩ := hr
  cases r with
  | ok v => exact hk l' s' v hat hlease hout
  | error e => exact ⟨hout, row, c, hres, hat⟩

/-- A run that stops because it was told that its code is older. -/
theorem goal_hindered {r : Except Exn Result} (hres : Resumable t opts row c)
    (h : At Inv p pk t.shard.dbAlias t.schemaName row c s) (hh : Hindered l) :
    Goal Inv known p pk t opts F l s r := ⟨⟨row, c, hres, h⟩, fun _ => .inr hh⟩

/-- A success over a complete schema is the goal. -/
theorem goal_done {res : Result} {x : Content} (hres : Resumable t opts row (some x))
    (h : At Inv p pk t.shard.dbAlias t.schemaName row (some x) s) (hx : x.Complete known)
    (hst : row.status = reachedStatus t.status) (hkind : res.kind = .ok ∨ res.kind = .noop) :
    Goal Inv known p pk t opts F l s (.ok res) :=
  ⟨⟨row, some x, hres, h⟩,
    fun _ => .inl ⟨res, rfl, hkind, row, x, h.row, hres.same, hst, h.content, hx⟩⟩

/-! ### `_provision` -/

/-- After a connection error the handler of `_provision` makes no request. -/
theorem provisionFailed_conn (pk : Pk) (u : Tenant) (b : Target) (side : Side) (claimed : Bool) (e : Exn)
    (he : e.connError = true) : ∃ res, provisionFailed pk u b side claimed e = Pure.pure res := by
  rw [provisionFailed, if_pos he]
  exact ⟨_, rfl⟩

private theorem upgradeFailed_conn (u : Tenant) (b : Target) (side : Side) (e : Exn)
    (he : e.connError = true) : ∃ res, upgradeFailed u b side e = Pure.pure res := by
  rw [upgradeFailed, if_pos he]
  exact ⟨_, rfl⟩

/-- A PENDING tenant can be taken up whatever its schema holds. -/
theorem Resumable.of_pending (hsame : SameSchema t row)
    (hreached : reachedStatus t.status = .active) (hst : row.status = .pending)
    (c' : Option Content) : Resumable t opts row c' :=
  ⟨hsame, by rw [hst, hreached]; rfl, .inr (.inl hst)⟩

/-- A tenant that is left to upgrade has its status and its schema. -/
theorem Resumable.of_upgradable (hres : Resumable t opts row c) (hup : upgradable row opts = true) :
    row.status = reachedStatus t.status ∧ ∃ x, c = some x := by
  have hst : row.status ≠ .new ∧ row.status ≠ .pending := by
    constructor <;> intro heq <;> rw [upgradable, heq] at hup <;> cases hup
  constructor
  · rw [← hres.reached]
    cases hs : row.status with
    | new => exact absurd hs hst.1
    | pending => exact absurd hs hst.2
    | _ => rfl
  · rcases hres.stage with ⟨hnew, _⟩ | hpending | ⟨_, hsome⟩
    · exact absurd hnew hst.1
    · exact absurd hpending hst.2
    · exact Option.isSome_iff_exists.mp hsome

section Provision

variable (hb : Beside env Inv p pk t.shard.dbAlias t.schemaName) (ht : opts.targeted = false)
include hb ht

/-- The shard work of a provisioning ends with every migration recorded, or is cut off. -/
theorem provisionSchema_ensures {u : Tenant} (hu : SameSchema t u) (hsame : SameSchema t row)
    (hreached : reachedStatus t.status = .active) (hst : row.status = .pending)
    (h : At Inv p pk t.shard.dbAlias t.schemaName row c s) :
    (provisionSchema pk u opts).Ensures (cutSem env known p)
      (fun _ => Recoverable Inv p pk t opts) l s fun l' s' r =>
        s'.world.lease pk = s.world.lease pk ∧ onOutcome
          (fun _ => ∃ x : Content, At Inv p pk t.shard.dbAlias t.schemaName row (some x) s' ∧
            x.Complete known)
          (fun e => (e.Cut ∧ Hindered l') ∧ Recoverable Inv p pk t opts s') r := by
  have hres (c' : Option Content) : Resumable t opts row c' := .of_pending hsame hreached hst c'
  have hrec {c' : Option Content} {s' : Site}
      (hat : At Inv p pk t.shard.dbAlias t.schemaName row c' s') : Recoverable Inv p pk t opts s' :=
    ⟨row, c', hres c', hat⟩
  have hcut {q : ShardReq} {e : Exn} {s₁ s₂ : Site}
      (hs : cutSem env known p (.shard t.shard.dbAlias q) s₁ (.error e) s₂) : e.Cut := by
    refine (hs.2 e rfl).resolve_left ?_
    rintro ⟨k, hk⟩
    cases hk
  rw [provisionSchema, hu.shard, hu.schemaName]
  refine ensures_bind.mpr fun r₁ s₁ hs₁ => ?_
  obtain ⟨hlease₁, hcreated⟩ := h.create hb hs₁.1
  cases r₁ with
  | error e =>
    have hrec₁ : Recoverable Inv p pk t opts s₁ := by
      rcases hcreated with hat | ⟨_, hat⟩ <;> exact hrec hat
    exact ⟨hrec₁, hlease₁, ⟨hcut hs₁, hindered_of_error⟩, hrec₁⟩
  | ok _ =>
  have h₁ : At Inv p pk t.shard.dbAlias t.schemaName row (some (c.getD .empty)) s₁ := by
    rcases hcreated with hat | ⟨⟨e, he⟩, _⟩
    · exact hat
    · cases he
  refine ⟨hrec h₁, ensures_bind.mpr fun r₂ s₂ hs₂ => ?_⟩
  obtain ⟨h₂, hlease₂⟩ := h₁.openShard hb hs₂.1
  refine ⟨hrec h₂, ?_⟩
  cases r₂ with
  | error e => exact ⟨hlease₂.trans hlease₁, ⟨hcut hs₂, hindered_of_error⟩, hrec h₂⟩
  | ok _ =>
  refine ensures_bind.mpr fun r₃ s₃ hs₃ => ?_
  obtain ⟨hlease₃, n, rel, h₃, hall⟩ := h₂.migrate hb (o := opts.upstream t.shard.dbAlias) ht hs₃.1
  refine ⟨hrec h₃, ?_⟩
  have hlease := hlease₃.trans (hlease₂.trans hlease₁)
  cases r₃ with
  | error e => exact ⟨hlease, ⟨hcut hs₃, hindered_of_error⟩, hrec h₃⟩
  | ok _ =>
  have hcomplete : ((c.getD .empty).advance known n rel).Complete known :=
    Content.advance_complete (hall rfl)
  refine ensures_bind.mpr ((pendingPlan_observes hb (hres _) hu _ s₃ h₃).mono fun l₄ s₄ r₄ hr₄ => ?_)
  obtain ⟨h₄, hlease₄, _, hout⟩ := hr₄
  cases r₄ with
  | error e => exact ⟨hlease₄.lease.trans hlease, hout, hrec h₄⟩
  | ok plan =>
    obtain rfl : plan = some [] := by
      rw [show plan = _ from hout, Option.map_map, Option.map_some, Function.comp_apply,
        Content.unapplied_eq_nil_iff.mpr hcomplete]
    exact ⟨hlease₄.lease.trans hlease, _, h₄, hcomplete⟩

omit ht in
/-- A status write of the leaseholder that matches is carried out, or cut off. -/
theorem fencedCas_ensures {expected : List Status} {w : World.StatusWrite}
    (hres : Resumable t opts row c) (hafter : ∀ n, Resumable t opts (w.row n row) c)
    (h : At Inv p pk t.shard.dbAlias t.schemaName row c s)
    (ho : s.world.leaseOwner pk = some p) (hst : row.status ∈ expected) :
    (fencedCas pk expected w).Ensures (cutSem env known p) (fun _ => Recoverable Inv p pk t opts)
      l s fun l' s' r => onOutcome
        (fun won => won = true ∧ s'.world.leaseOwner pk = some p ∧
          ∃ n, At Inv p pk t.shard.dbAlias t.schemaName (w.row n row) c s')
        (fun e => (e.Cut ∧ Hindered l') ∧ Recoverable Inv p pk t opts s') r := by
  intro r s' hs
  obtain ⟨howner, hcas⟩ := h.cas hb ho hst hs.1
  have hrec : Recoverable Inv p pk t opts s' := by
    rcases hcas with ⟨_, _, hat⟩ | ⟨_, n, hat⟩
    · exact ⟨row, c, hres, hat⟩
    · exact ⟨_, c, hafter n, hat⟩
  refine ⟨hrec, ?_⟩
  cases r with
  | error e =>
    refine ⟨⟨(hs.2 e rfl).resolve_left ?_, hindered_of_error⟩, hrec⟩
    rintro ⟨k, hk⟩
    cases hk
  | ok won =>
    rcases hcas with ⟨e, he, _⟩ | ⟨⟨e, he⟩ | hwon, hrow⟩
    · cases he
    · cases he
    · exact ⟨Except.ok.inj hwon, howner, hrow⟩

/-- `_provision` after the claim. -/
theorem provisionClaimed_ensures {u : Tenant} {b : Target} (hu : SameSchema t u)
    (hsame : SameSchema t row) (hreached : reachedStatus t.status = .active)
    (hst : row.status = .pending) (h : At Inv p pk t.shard.dbAlias t.schemaName row c s)
    (ho : s.world.leaseOwner pk = some p) :
    (provisionClaimed pk u opts b).Ensures (cutSem env known p)
      (fun _ => Recoverable Inv p pk t opts) l s (Goal Inv known p pk t opts F) := by
  have hconn := provisionFailed_conn pk u b
  refine ensures_attempted (hconn _ _)
    ((provisionSchema_ensures hb ht hu hsame hreached hst h).mono fun l₁ s₁ r₁ hr₁ => ?_)
  obtain ⟨hlease₁, hout₁⟩ := hr₁
  cases r₁ with
  | error e => exact hout₁
  | ok _ =>
  obtain ⟨x, h₁, hx⟩ := hout₁
  have hres : Resumable t opts row (some x) := .of_pending hsame hreached hst _
  refine (codeOlder_observes hb hres).attempted hres (hconn _ _) h₁ fun l₂ s₂ older h₂ hlease₂ hold => ?_
  cases older with
  | true => exact goal_hindered hres h₂ (hold rfl)
  | false =>
  have ho₂ : s₂.world.leaseOwner pk = some p := by
    refine hlease₂.leaseOwner ?_
    rw [World.leaseOwner, hlease₁]
    exact ho
  have hactive (n : Nat) :
      Resumable t opts (World.StatusWrite.row ⟨.active, .pending, ""⟩ n row) (some x) :=
    ⟨⟨hsame.schemaName, hsame.shard⟩, hreached.symm, .inr (.inr ⟨rfl, rfl⟩)⟩
  refine ensures_attempted (hconn _ _)
    ((fencedCas_ensures hb hres hactive h₂ ho₂ (by simp [hst])).mono fun l₃ s₃ r₃ hr₃ => ?_)
  cases r₃ with
  | error e => exact hr₃
  | ok won =>
  obtain ⟨rfl, _, n, h₃⟩ := hr₃
  refine (observes_call hb (hactive n) (by exact trivial) fun _ _ _ _ _ _ => trivial).attempted
    (hactive n) (hconn _ _) h₃ fun l₄ s₄ _ h₄ _ (_ : True) => ?_
  split <;> exact goal_done (hactive n) h₄ hx hreached.symm (.inl rfl)

/-- `_provision` of a tenant that can be taken up. -/
theorem provision_ensures {b : Target} (hres : Resumable t opts row c)
    (hst : row.status ∈ provisionable) (h : At Inv p pk t.shard.dbAlias t.schemaName row c s)
    (ho : s.world.leaseOwner pk = some p) :
    (provision pk row opts b).Ensures (cutSem env known p) (fun _ => Recoverable Inv p pk t opts)
      l s (Goal Inv known p pk t opts F) := by
  have hconn := provisionFailed_conn pk row b
  have hreached : reachedStatus t.status = .active := by
    rw [← hres.reached]
    rcases List.mem_cons.mp hst with hnew | hpending
    · rw [hnew]
      rfl
    · rw [List.mem_singleton.mp hpending]
      rfl
  rw [provision, if_neg (by rw [ht]; exact Bool.false_ne_true)]
  refine (codeOlder_observes hb hres).attempted hres (hconn _ _) h fun l₁ s₁ older h₁ hlease₁ hold => ?_
  cases older with
  | true => exact goal_hindered hres h₁ (hold rfl)
  | false =>
  have hforeign : Observes env Inv known p pk t opts row c (fun _ foreign => foreign = false)
      (if row.status = .new ∧ row.previousStatus ≠ .failed then
        schemaHasRelations row.shard.dbAlias row.schemaName else Pure.pure false) := by
    split
    · rename_i hnew
      have hown : (c.map Content.relations).getD false = false := by
        rcases hres.stage with ⟨_, hown⟩ | hpending | ⟨hup, _⟩
        · exact hown hnew.2
        · rw [hnew.1] at hpending
          cases hpending
        · rw [upgradable, hnew.1] at hup
          cases hup
      refine hown ▸ relations_observes hb hres hres.same
    · exact observes_pure fun _ => rfl
  refine hforeign.attempted hres (hconn _ _) h₁ fun l₂ s₂ foreign h₂ hlease₂ hf => ?_
  subst hf
  have hclaimed (n : Nat) :
      Resumable t opts (World.StatusWrite.row ⟨.pending, .new, ""⟩ n row) c :=
    ⟨⟨hres.same.schemaName, hres.same.shard⟩, hreached.symm, .inr (.inl rfl)⟩
  refine ensures_attempted (hconn _ _)
    ((fencedCas_ensures hb hres hclaimed h₂ ((hlease₂.trans hlease₁).leaseOwner ho) hst).mono
      fun l₃ s₃ r₃ hr₃ => ?_)
  cases r₃ with
  | error e => exact hr₃
  | ok won =>
  obtain ⟨rfl, ho₃, n, h₃⟩ := hr₃
  exact provisionClaimed_ensures hb ht hres.same (hclaimed n).same hreached rfl h₃ ho₃

end Provision

/-! ### `_upgrade` -/

section Upgrade

variable (hb : Beside env Inv p pk t.shard.dbAlias t.schemaName) (ht : opts.targeted = false)
include hb ht

/-- `_upgrade` of a tenant that can be taken up. -/
theorem upgrade_ensures {b : Target} (hres : Resumable t opts row c)
    (hup : upgradable row opts = true) (h : At Inv p pk t.shard.dbAlias t.schemaName row c s) :
    (upgrade pk row opts b).Ensures (cutSem env known p) (fun _ => Recoverable Inv p pk t opts)
      l s (Goal Inv known p pk t opts F) := by
  have hconn := upgradeFailed_conn row b
  obtain ⟨hreached, x, rfl⟩ := hres.of_upgradable hup
  have hstill (y : Content) : Resumable t opts row (some y) :=
    ⟨hres.same, hres.reached, .inr (.inr ⟨hup, rfl⟩)⟩
  refine (pendingPlan_observes hb hres hres.same).attempted hres (hconn _) h
    fun l₁ s₁ plan h₁ _ hplan => ?_
  obtain rfl : plan = some (x.unapplied known) := hplan
  dsimp only
  split
  · rename_i hempty
    have hnil : x.unapplied known = [] := by
      rw [ht, Bool.not_false, Bool.and_true] at hempty
      exact List.isEmpty_iff.mp hempty
    exact goal_done hres h₁ (Content.unapplied_eq_nil_iff.mp hnil) hreached (.inr rfl)
  refine ensures_attempted (hconn _) ?_
  rw [hres.same.shard, hres.same.schemaName]
  refine ensures_bind.mpr fun r₂ s₂ hs₂ => ?_
  obtain ⟨h₂, _⟩ := h₁.openShard hb hs₂.1
  have hcut {q : ShardReq} {e : Exn} {s₁ s₂ : Site}
      (hs : cutSem env known p (.shard t.shard.dbAlias q) s₁ (.error e) s₂) : e.Cut := by
    refine (hs.2 e rfl).resolve_left ?_
    rintro ⟨k, hk⟩
    cases hk
  refine ⟨⟨row, _, hres, h₂⟩, ?_⟩
  cases r₂ with
  | error e => exact ⟨⟨hcut hs₂, hindered_of_error⟩, row, _, hres, h₂⟩
  | ok _ =>
  intro r₃ s₃ hs₃
  obtain ⟨_, n, rel, h₃, hall⟩ := h₂.migrate hb (o := opts.upstream t.shard.dbAlias) ht hs₃.1
  have hrec : Recoverable Inv p pk t opts s₃ := ⟨row, _, hstill _, h₃⟩
  refine ⟨hrec, ?_⟩
  cases r₃ with
  | error e => exact ⟨⟨hcut hs₃, hindered_of_error⟩, hrec⟩
  | ok _ =>
  simp only [ensures_done, onOutcome_ok, ht, Bool.false_eq_true, if_false]
  exact goal_done (hstill _) h₃ (Content.advance_complete (hall rfl)) hreached (.inl rfl)

end Upgrade

end Runs

end MtShards.Migrator
