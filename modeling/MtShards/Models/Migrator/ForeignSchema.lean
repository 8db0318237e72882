import MtShards.Models.Migrator.StagedRows
import MtShards.Models.Migrator.Vetting

/-!
# A schema that belongs to someone else

The schema of a tenant may exist on a shard and hold relations that no run of the migrator for
this tenant has created there. Before such a schema is migrated, somebody has to take
responsibility: an admin brings the tenant from FAILED to NEW with `confirm_schema`, after it
was last pointed at that shard. The code keeps to that as long as the tenant is pointed at such
a shard only while it is fresh or FAILED and no run is at work on a row it has read before, and
as long as FAILED is not left for MAINTENANCE over such a schema.
-/

namespace MtShards.Migrator

open MtShards.Core Program

variable {k pk : Pk} {p q : Pid} {t : SysTrace} {s s' : World} {l : SysLabel} {a : Alias}
  {row found : Tenant} {e : SysEntry}

/-! ### FAILED to NEW -/

section Confirm

variable {sub : Submission}

/-- A request that takes a tenant from FAILED to NEW was confirmed. -/
def Submission.Confirms (sub : Submission) (pk : Pk) (op : Req) : Prop :=
  op = .adminUpdate pk .failed .new → sub.pk = pk ∧ sub.confirmSchema = true

private theorem confirm_of_cleanConfirm (h : cleanConfirm sub .failed .new = none) :
    sub.confirmSchema = true := by
  by_contra hnot
  rw [cleanConfirm, if_pos (by simp [eq_false_of_ne_true hnot])] at h
  cases h

private theorem looks_confirms {α : Type} {x : Prog α} (hx : x.Only Req.looks) :
    x.Only (sub.Confirms pk) := by
  refine hx.mono fun op hop heq => ?_
  subst heq
  exact hop.elim

/-- The form lets a status change pass only after its last check. -/
theorem clean_confirms (sub : Submission) (row : Tenant) :
    (clean sub row).Within (sub.Confirms pk) fun e => e = none →
      ∀ dest, sub.newStatus (sub.oldStatus row) = some dest → dest ≠ sub.oldStatus row →
        cleanConfirm sub (sub.oldStatus row) dest = none := by
  rw [clean]
  split
  · rename_i hnone
    intro _ dest hto
    rw [hnone] at hto
    cases hto
  · rename_i dest hto
    split
    · rename_i hsame
      intro _ to' hto' hne
      obtain rfl := Option.some.inj (hto.symm.trans hto')
      exact absurd hsame hne
    · rw [cleanChange]
      split
      · intro hnone
        cases hnone
      · refine Within.bind (looks_confirms (cleanTarget_looks ..)).within fun e _ => ?_
        cases e with
        | some e =>
          intro hnone
          cases hnone
        | none =>
          intro hnone to' hto' _
          obtain rfl := Option.some.inj (hto.symm.trans hto')
          exact hnone

private theorem saveModel_confirms {old dest : Status}
    (h : dest ≠ old → cleanConfirm sub old dest = none) :
    (saveModel sub row old dest).Only (sub.Confirms pk) := by
  refine Only.bind ?_ fun forgets => ?_
  · rw [saveStatus]
    split
    · rename_i hne
      refine Only.bind ?_ fun _ => Only.bind (only_call ?_) fun updated => ?_
      · rw [refuseIfMigrating]
        split
        · refine Only.bind (Only.bind (only_call fun h => by cases h) fun _ => only_call fun h => ?_)
            fun h => ?_
          · cases h
          · cases h <;> trivial
        · trivial
      · intro heq
        cases heq
        exact ⟨rfl, confirm_of_cleanConfirm (h hne)⟩
      · split <;> trivial
    · trivial
  · split
    · trivial
    · refine Only.bind (Only.bind (only_call fun h => by cases h) fun found => ?_) fun _ => trivial
      split <;> trivial

private theorem adminBody_confirms : (adminBody sub).Only (sub.Confirms pk) := by
  refine Only.bind (only_call nofun) fun found => ?_
  cases found with
  | none => trivial
  | some row =>
    refine Within.only (V := fun _ => True) (Within.bind (clean_confirms sub row) fun e he => ?_)
    cases e with
    | some e => trivial
    | none =>
      dsimp only
      split
      · trivial
      · split
        · trivial
        · rename_i dest hto
          refine Only.within (Only.bind (saveModel_confirms ?_) fun _ => trivial)
          exact he rfl dest hto

private theorem adminChange_confirms (sub : Submission) (pk : Pk) :
    (adminChange sub).Only (sub.Confirms pk) := by
  refine Only.bind (only_call nofun) fun _ => adminBody_confirms.attempt.bind fun r => ?_
  cases r with
  | ok outcome =>
    exact Only.bind (only_call nofun) fun _ => (forgetTimes_only nofun _).bind fun _ => trivial
  | error e =>
    refine Only.bind (only_call nofun) fun _ => ?_
    split <;> trivial

private theorem serializerUpdate_saves (pk k : Pk) (ch : World.Changes) :
    (serializerUpdate pk ch).Only fun op => op ≠ .adminUpdate k .failed .new := by
  refine Only.bind (only_call nofun) fun found => ?_
  cases found with
  | none => trivial
  | some row =>
    dsimp only
    split
    · trivial
    · refine Only.bind (only_call nofun) fun _ => Only.bind (Only.attempt ?_) fun r => ?_
      · refine Only.bind (only_call nofun) fun saved => ?_
        split <;> trivial
      · cases r with
        | ok _ => exact Only.bind (only_call nofun) fun _ => only_call nofun
        | error e => exact Only.bind (only_call nofun) fun _ => trivial

/-- A process that has taken a tenant from FAILED to NEW runs an admin save of the tenant with
`confirm_schema`. -/
theorem confirmed_of_update {prog y : Prog Unit} {log : List (Taken Req Req.Ans Exn Unit)}
    (hstart : Starts true prog) (h : Exec anyAnswer prog () log y ())
    (hlog : ∃ z ∈ log, z.op = .adminUpdate pk .failed .new) :
    ∃ sub, prog = (adminChange sub).void ∧ sub.pk = pk ∧ sub.confirmSchema = true := by
  obtain ⟨z, hz, hop⟩ := hlog
  have hsingle : ∀ {α : Type} {x : Prog α}, x.Only Req.single → prog = x.void → False := by
    rintro α x hx rfl
    have hz' : Req.single z.op := (h.only (hx.bind fun _ => trivial)).1 z hz
    rw [hop] at hz'
    exact Bool.noConfusion hz'
  cases hstart with
  | migrate k opts _ => exact (hsingle (migrateTenant_single k opts) rfl).elim
  | activate k => exact (hsingle (transition_single _ _ _) rfl).elim
  | deactivate k => exact (hsingle (transition_single _ _ _) rfl).elim
  | releaseCommand k label aliases force =>
    exact (hsingle (releaseCommand_single label aliases force) rfl).elim
  | serializerUpdate k ch =>
    exact absurd hop ((h.only (serializerUpdate_saves k pk ch)).1 z hz)
  | adminChange sub =>
    have hsub := (h.only ((adminChange_confirms sub pk).bind fun _ => trivial)).1 z hz hop
    exact ⟨sub, rfl, hsub⟩

end Confirm

/-- A move that is written was written by the admin's `UPDATE`. -/
theorem update_of_written {s₀ : World} {c : SysConfig} (h : SysRun s₀ t c) (q : Pid)
    {old dest : Status} (hw : phaseAt (protocol true) q t = .written pk (some (old, dest))) :
    ∃ z ∈ takenBy q t, z.op = .adminUpdate pk old dest := by
  refine Run.invariant system_follows (fun t _ => ∀ q pk old dest,
    phaseAt (protocol true) q t = .written pk (some (old, dest)) →
      ∃ z ∈ takenBy q t, z.op = .adminUpdate pk old dest) ?_ ?_ h.2 q pk old dest hw
  · intro q pk old dest hw
    cases hw
  intro t s l s' ih hm q pk old dest hw
  rcases phaseAt_takenBy_cases (protocol true) q l s s' t with
    ⟨hphase, hlog⟩ | ⟨hphase, _⟩ | ⟨op, r, rfl, hphase, hlog⟩
  · rw [hlog]
    exact ih q pk old dest (hphase.symm.trans hw)
  · cases hphase.symm.trans hw
  · have hnext := Phase.next_cases (r := r) q hm.permits
    rw [hphase] at hw
    change Phase.next _ op r = _ at hw
    rw [hw] at hnext
    rw [hlog]
    cases hnext with
    | plain h => cases h
    | moved _ _ _ _ => exact ⟨_, List.mem_cons_self, rfl⟩
    | saved _ _ hwritten =>
      obtain ⟨z, hz, hop⟩ := ih q pk old dest hwritten
      exact ⟨z, List.mem_cons_of_mem _ hz, hop⟩

/-! ### What is to be kept -/

/-- The step points the tenant at the shard. -/
def PointsAt (pk : Pk) (a : Alias) (e : SysEntry) : Prop :=
  ∃ found row, e.pre.tenant pk = some found ∧ e.post.tenant pk = some row ∧
    found.shard.dbAlias ≠ a ∧ row.shard.dbAlias = a

/-- `q` was started with some program, and whatever that was, it is an admin save of the tenant
with `confirm_schema`. -/
structure SavesConfirmed (q : Pid) (pk : Pk) (t : SysTrace) : Prop where
  started : ∃ prog y, Starts true prog ∧ Exec anyAnswer prog () (answers (takenBy q t)) y ()
  confirmed : ∀ prog y, Starts true prog → Exec anyAnswer prog () (answers (takenBy q t)) y () →
    ∃ sub, prog = (adminChange sub).void ∧ sub.pk = pk ∧ sub.confirmSchema = true

/-- The step commits the move of the tenant from FAILED to NEW by a save with
`confirm_schema`. -/
def Confirms (pk : Pk) (t : SysTrace) (e : SysEntry) : Prop :=
  ∃ q r, e.label = .answer q .commit r ∧ e.pre.status pk = some .failed ∧
    e.post.status pk = some .new ∧ SavesConfirmed q pk t

/-- The tenant was confirmed, and was not pointed at the shard at that step or since. -/
def ConfirmedSince (pk : Pk) (a : Alias) (t : SysTrace) : Prop :=
  ∃ later e earlier, t = later ++ e :: earlier ∧ Confirms pk earlier e ∧
    ∀ x ∈ later ++ [e], ¬ PointsAt pk a x

/-- The current run of `q` has acquired the lease of the tenant. -/
def HasAcquired (q : Pid) (pk : Pk) (t : SysTrace) : Prop :=
  ∃ s s', ⟨.leaseUpsert pk, .ok true, s, s'⟩ ∈ takenBy q t

/-- The current run of `q` has acquired the lease of the tenant, has read its row again and has
not come to its clean-up. -/
def HasReread (q : Pid) (pk : Pk) (t : SysTrace) : Prop :=
  ∃ newer older row s s', takenBy q t = newer ++ ⟨.load pk, .ok (some row), s, s'⟩ :: older ∧
    (∃ s s', ⟨.leaseUpsert pk, .ok true, s, s'⟩ ∈ older) ∧ ∀ x ∈ newer, ∀ a, x.op ≠ .shardIdle a

/-- The step is part of a request of a run for the tenant to migrate a schema on the shard. -/
def Migrates (q : Pid) (pk : Pk) (a : Alias) (t : SysTrace) (e : SysEntry) : Prop :=
  HasAcquired q pk t ∧ ∃ o schema,
    (∃ r, e.label = .answer q (.shard a (.runMigrations o schema)) r) ∨
      e.label = .inner q (.shard a (.runMigrations o schema))

/-- On some shards the schema holds relations that no run for its tenant has created there; a
look at the schema says so. -/
def LooksTruthful (foreign : Alias → Prop) (schema : SchemaName) (e : SysEntry) : Prop :=
  ∀ q a, e.label = .answer q (.shard a (.schemaHasRelations schema)) (.ok false) → ¬ foreign a

/-- The tenant is pointed at a shard with a foreign schema only while it is fresh and the run
that owns its lease has not read its row again, or while it is FAILED, stays so, and no run at
all has; and it leaves FAILED for MAINTENANCE over such a schema only if it was confirmed. -/
structure Guarded (foreign : Alias → Prop) (pk : Pk) (t : SysTrace) (e : SysEntry) : Prop where
  pointed : ∀ found row, e.pre.tenant pk = some found → e.post.tenant pk = some row →
    row.shard.dbAlias ≠ found.shard.dbAlias → foreign row.shard.dbAlias →
      (Fresh found ∧ ∀ q, e.pre.leaseOwner pk = some q → ¬ HasReread q pk t) ∨
        (found.status = .failed ∧ row.status = .failed ∧ ∀ q, ¬ HasReread q pk t)
  maintained : ∀ found row, e.pre.tenant pk = some found → e.post.tenant pk = some row →
    found.status = .failed → row.status = .maintenance → foreign found.shard.dbAlias →
      ConfirmedSince pk found.shard.dbAlias t

/-! ### Phases and logs -/

private theorem acquired_of_leased {σ : Type} (log : List (Taken Req Req.Ans Exn σ))
    (h : phaseOf vetting .out log = .leased k) :
    ∃ s s', ⟨.leaseUpsert k, .ok true, s, s'⟩ ∈ log := by
  induction log with
  | nil => cases h
  | cons x log ih =>
    rcases Vetting.next_leased h with hbefore | ⟨_, s, s', rfl⟩
    · obtain ⟨s, s', hmem⟩ := ih hbefore
      exact ⟨s, s', List.mem_cons_of_mem _ hmem⟩
    · exact ⟨s, s', List.mem_cons_self⟩

private theorem reread_of_holds {σ : Type} (log : List (Taken Req Req.Ans Exn σ))
    (h : (phaseOf vetting .out log).Holds k row) : ∃ newer older s s',
      log = newer ++ ⟨.load k, .ok (some row), s, s'⟩ :: older ∧
        (∃ s s', ⟨.leaseUpsert k, .ok true, s, s'⟩ ∈ older) ∧
        ∀ x ∈ newer, ∀ a, x.op ≠ .shardIdle a := by
  induction log with
  | nil => rcases h with h | h <;> cases h
  | cons x log ih =>
    rcases Vetting.next_holds h with ⟨hbefore, hends⟩ | ⟨hleased, s, s', rfl⟩
    · obtain ⟨newer, older, s, s', rfl, hacquired, hnewer⟩ := ih hbefore
      refine ⟨x :: newer, older, s, s', rfl, hacquired, fun y hy a hop => ?_⟩
      rcases List.mem_cons.mp hy with rfl | hy
      · rw [hop] at hends
        exact hends trivial
      · exact hnewer y hy a hop
    · exact ⟨[], log, s, s', rfl, acquired_of_leased log hleased, fun y hy => by cases hy⟩

/-- A process that holds a row has re-read it. -/
theorem hasReread_of_holds (h : (phaseAt vetting q t).Holds pk row) : HasReread q pk t := by
  rw [phaseAt_eq_phaseOf] at h
  obtain ⟨newer, older, s, s', hlog, hacquired, hnewer⟩ := reread_of_holds _ h
  exact ⟨newer, older, row, s, s', hlog, hacquired, hnewer⟩

/-- A run that has acquired the lease of the tenant acquires no other. -/
theorem of_hasAcquired {s₀ : World} {c : SysConfig} (h : SysRun s₀ t c) (hq : HasAcquired q pk t) :
    (phaseAt vetting q t).Of pk := by
  refine Run.invariant system_vetting (fun t _ => ∀ q, HasAcquired q pk t →
    (phaseAt vetting q t).Of pk) ?_ ?_ h.2 q hq
  · rintro q ⟨s, s', hmem⟩
    cases hmem
  intro t s l s' ih hm q hq
  obtain ⟨s₁, s₂, hmem⟩ := hq
  rcases phaseAt_takenBy_cases vetting q l s s' t with
    ⟨hphase, hlog⟩ | ⟨_, hlog⟩ | ⟨op, r, rfl, hphase, hlog⟩
  · rw [hphase]
    exact ih q ⟨s₁, s₂, hlog ▸ hmem⟩
  · rw [hlog] at hmem
    cases hmem
  · rw [hlog] at hmem
    rw [hphase]
    rcases List.mem_cons.mp hmem with heq | hmem
    · cases heq
      rw [Vetting.of_permits_upsert hm.permits]
      exact .inl rfl
    · exact (ih q ⟨s₁, s₂, hmem⟩).next r

/-! ### What one step does to the row -/

section Rows

variable {maint : Bool}

/-- No step changes the name of a schema. -/
theorem RowStep.schemaName_eq (h : RowStep maint t pk s l found row) :
    row.schemaName = found.schemaName := by
  cases h with
  | kept same => rw [same]
  | fenced p expected w r seen label allowed expects owner after => rw [after]; rfl
  | console p source dest r label move expects after => rw [after]; rfl
  | saved p r label after => exact after.schemaName
  | moved p r dest label phase move after => exact after.schemaName

/-- No step makes a tenant fresh. -/
theorem RowStep.fresh_before (h : RowStep maint t pk s l found row) (hrow : Fresh row) :
    Fresh found := by
  cases h with
  | kept same => exact same ▸ hrow
  | fenced p expected w r seen label allowed expects owner after =>
    have hnew : w.status = .new := by
      rw [after] at hrow
      exact hrow.1
    rw [hnew] at allowed
    cases allowed
  | console p source dest r label move expects after =>
    have hnew : dest = .new := by
      rw [after] at hrow
      exact hrow.1
    subst hnew
    cases move
  | saved p r label after =>
    exact ⟨after.status.symm.trans hrow.1, fun hprev => hrow.2 (after.previousStatus.trans hprev)⟩
  | moved p r dest label phase move after =>
    have hnew : dest = .new := after.status.symm.trans hrow.1
    have hprev : row.previousStatus = found.status := after.previousStatus
    subst hnew
    refine absurd ?_ hrow.2
    rw [hprev]
    obtain ⟨hmem, hne⟩ := move
    cases hst : found.status with
    | failed => rfl
    | new => exact absurd hst.symm hne
    | _ => simp [hst, statusTransitions] at hmem

/-- How a tenant comes to be worked on without a look: it was so before, or it is claimed, or
an admin takes it out of FAILED. -/
theorem RowStep.vetted_before (h : RowStep maint t pk s l found row) (hrow : Vetted row) :
    Vetted found ∨
    (Fresh found ∧ ∃ p expected w r, l = .answer p (.fencedCas pk expected w) r ∧
      w.status = .pending ∧ s.leaseOwner pk = some p ∧ row.shard = found.shard) ∨
    (found.status = .failed ∧ row.status = .new ∧ ∃ p r, l = .answer p .commit r ∧
      phaseAt (protocol maint) p t = .written pk (some (.failed, .new))) ∨
    (found.status = .failed ∧ row.status = .maintenance) := by
  have hvetted : ∀ st, found.status = st → st ≠ .failed → st ≠ .new → Vetted found := by
    rintro st rfl hfailed hnew
    exact ⟨hfailed, fun hfresh => hnew hfresh.1⟩
  cases h with
  | kept same => exact .inl (same ▸ hrow)
  | fenced p expected w r seen label allowed expects owner after =>
    have hstatus : row.status = w.status := by rw [after]; rfl
    generalize hw : w.status = st at allowed
    cases allowed with
    | foreignSchema => exact absurd (hstatus.trans hw) hrow.1
    | provisionFailed _ => exact absurd (hstatus.trans hw) hrow.1
    | schemaMissing _ => exact absurd (hstatus.trans hw) hrow.1
    | provisioned => exact .inl (hvetted _ (List.mem_singleton.mp expects) (by decide) (by decide))
    | claim hs =>
      by_cases hfresh : Fresh found
      · refine .inr (.inl ⟨hfresh, p, _, w, r, label, hw, owner, ?_⟩)
        rw [after]
        rfl
      · refine .inl ⟨fun hfailed => ?_, hfresh⟩
        simp [hfailed, provisionable] at expects
  | console p source dest r label move expects after =>
    cases move with
    | deactivate => exact .inl (hvetted _ expects (by decide) (by decide))
    | activate => exact .inl (hvetted _ expects (by decide) (by decide))
  | saved p r label after =>
    refine .inl ⟨fun hfailed => hrow.1 (after.status.trans hfailed), fun hfresh => hrow.2 ?_⟩
    exact ⟨after.status.trans hfresh.1, fun hprev => hfresh.2 (after.previousStatus.symm.trans hprev)⟩
  | moved p r dest label phase move after =>
    have hstatus : row.status = dest := after.status
    obtain ⟨hmem, hne⟩ := move
    cases hst : found.status with
    | new =>
      rw [hst] at hmem hne
      exact absurd (List.mem_singleton.mp hmem) hne
    | pending => exact .inl (hvetted _ hst (by decide) (by decide))
    | active => exact .inl (hvetted _ hst (by decide) (by decide))
    | deactivated => exact .inl (hvetted _ hst (by decide) (by decide))
    | maintenance => exact .inl (hvetted _ hst (by decide) (by decide))
    | failed =>
      rw [hst] at hmem hne phase
      simp only [statusTransitions, List.mem_cons, List.not_mem_nil, or_false] at hmem
      rcases hmem with hto | hto | hto
      · exact absurd hto hne
      · rw [hto] at phase hstatus
        exact .inr (.inr (.inl ⟨rfl, hstatus, p, r, label, phase⟩))
      · exact .inr (.inr (.inr ⟨rfl, hstatus.trans hto⟩))

end Rows

/-! ### The invariant -/

/-- If the schema on the shard is foreign, the tenant was confirmed for it. -/
def Answered (foreign : Alias → Prop) (pk : Pk) (a : Alias) (t : SysTrace) : Prop :=
  foreign a → ConfirmedSince pk a t

/-- A tenant that is worked on without a look, and a row that a run works on, are on a shard
they are covered for. -/
structure AdoptionOk (foreign : Alias → Prop) (schema : SchemaName) (pk : Pk) (t : SysTrace)
    (s : World) : Prop where
  schemaName : ∀ row, s.tenant pk = some row → row.schemaName = schema
  vetted : ∀ row, s.tenant pk = some row → Vetted row → Answered foreign pk row.shard.dbAlias t
  /-- Once confirmed, never fresh again. -/
  confirmed : ∀ a row, ConfirmedSince pk a t → s.tenant pk = some row → ¬ Fresh row
  read : ∀ q row, (phaseAt vetting q t).Holds pk row → row.schemaName = schema ∧
    (Vetted row → Answered foreign pk row.shard.dbAlias t)
  cleared : ∀ q row, phaseAt vetting q t = .cleared pk row →
    Answered foreign pk row.shard.dbAlias t
  /-- While the row is fresh, the one that owns its lease has read it on the same shard. -/
  held : ∀ q row, (phaseAt vetting q t).Holds pk row → s.leaseOwner pk = some q →
    ∀ found, s.tenant pk = some found → Fresh found →
      Fresh row ∧ (foreign found.shard.dbAlias → found.shard.dbAlias = row.shard.dbAlias)

section Invariant

variable {foreign : Alias → Prop} {schema : SchemaName}

/-- A confirmation counts as long as the tenant is not pointed at the shard anew. -/
theorem ConfirmedSince.cons (h : ConfirmedSince pk a t) (he : ¬ PointsAt pk a e) :
    ConfirmedSince pk a (e :: t) := by
  obtain ⟨later, c, earlier, rfl, hconfirms, hlater⟩ := h
  refine ⟨e :: later, c, earlier, rfl, hconfirms, fun x hx => ?_⟩
  rcases List.mem_cons.mp hx with rfl | hx
  · exact he
  · exact hlater x hx

/-- A foreign schema stays answered for as long as the tenant is not pointed at its shard anew. -/
theorem Answered.cons (h : Answered foreign pk a t) (he : foreign a → ¬ PointsAt pk a e) :
    Answered foreign pk a (e :: t) := fun hforeign => (h hforeign).cons (he hforeign)

/-- No step points the tenant at the shard that it is on. -/
theorem not_pointsAt_own (hfound : s.tenant pk = some found) :
    ¬ PointsAt pk found.shard.dbAlias ⟨l, s, s'⟩ := by
  rintro ⟨found', row', hfound', _, hne, _⟩
  obtain rfl := Option.some.inj (hfound.symm.trans hfound')
  exact hne rfl

/-- While a run is at work on the row it has read, a tenant that was confirmed for a shard is
not pointed at it. -/
theorem AdoptionOk.answered_held (hinv : AdoptionOk foreign schema pk t s)
    (hguard : Guarded foreign pk t ⟨l, s, s'⟩) (hheld : (phaseAt vetting q t).Holds pk row)
    (h : Answered foreign pk a t) : Answered foreign pk a (⟨l, s, s'⟩ :: t) := by
  intro hforeign
  have hconfirmed := h hforeign
  refine hconfirmed.cons ?_
  rintro ⟨found, row, hfound, hrow, hne, rfl⟩
  rcases hguard.pointed found row hfound hrow (Ne.symm hne) hforeign with
    ⟨hfresh, _⟩ | ⟨_, _, hnone⟩
  · exact hinv.confirmed _ found hconfirmed hfound hfresh
  · exact hnone q (hasReread_of_holds hheld)

/-- How a process comes to have the row, along a step. -/
theorem holds_of_cons (h : (phaseAt vetting q (⟨l, s, s'⟩ :: t)).Holds pk row) :
    (phaseAt vetting q t).Holds pk row ∨ l = .answer q (.load pk) (.ok (some row)) := by
  rcases phaseAt_takenBy_cases vetting q l s s' t with
    ⟨hphase, _⟩ | ⟨hphase, _⟩ | ⟨op, r, rfl, hphase, _⟩
  · exact .inl (hphase ▸ h)
  · rw [hphase] at h
    rcases h with h | h <;> cases h
  · rw [hphase] at h
    rcases Vetting.next_holds (x := ⟨op, r, s, s'⟩) h with ⟨hbefore, _⟩ | ⟨_, _, _, heq⟩
    · exact .inl hbefore
    · cases heq
      exact .inr rfl

/-- How a process comes to have looked, along a step. -/
theorem cleared_of_cons (h : phaseAt vetting q (⟨l, s, s'⟩ :: t) = .cleared pk row) :
    phaseAt vetting q t = .cleared pk row ∨ (phaseAt vetting q t = .read pk row ∧ l = .answer q
      (.shard row.shard.dbAlias (.schemaHasRelations row.schemaName)) (.ok false)) := by
  rcases phaseAt_takenBy_cases vetting q l s s' t with
    ⟨hphase, _⟩ | ⟨hphase, _⟩ | ⟨op, r, rfl, hphase, _⟩
  · exact .inl (hphase.symm.trans h)
  · cases hphase.symm.trans h
  · rcases Vetting.next_cleared (x := ⟨op, r, s, s'⟩) (hphase.symm.trans h) with
      hbefore | ⟨hread, _, _, heq⟩
    · exact .inl hbefore
    · cases heq
      exact .inr ⟨hread, rfl⟩

/-- Outside of a transaction that has written, the committed row is read. -/
theorem load_reads {φ : Phase} {maint : Bool} (hok : PhaseOk q s φ)
    (hp : φ.permits maint (.load pk)) (h : machine.exec q (.load pk) s (.ok (some row)) s') :
    s.tenant pk = some row := by
  have hread : some row = s.tenantRow q pk := h.1
  have hidle : Idle q s → s.tenant pk = some row := by
    intro hidle
    rw [World.tenantRow, hidle.tx] at hread
    exact hread.symm
  cases φ with
  | out => exact hidle hok
  | leased k seen => exact hidle hok
  | tx =>
    obtain ⟨x, hx⟩ := hok
    rw [World.tenantRow_of_tx hx.tx hx.staged] at hread
    exact hread.symm
  | checked k b => cases hp
  | bystander => exact Bool.noConfusion hp
  | lost => rcases hp with hp | hp <;> cases hp
  | inserted k => rcases hp with hp | hp <;> cases hp
  | free k => rcases hp with hp | ⟨old, hp, _⟩ <;> cases hp
  | written k move => rcases hp with hp | hp | ⟨c, hp⟩ <;> cases hp
  | doomed => cases hp

/-- A step of a run that meets the condition, seen through both protocols. -/
structure Advances (foreign : Alias → Prop) (schema : SchemaName) (pk : Pk) (t : SysTrace)
    (s : World) (l : SysLabel) (s' : World) : Prop where
  move : Move machine (protocol true) t s l s'
  vets : Move machine vetting t s l s'
  phases : ∀ p, PhaseOk p s (phaseAt (protocol true) p t)
  staged : ∀ p, StagedOk p s (phaseAt (protocol true) p t)
  saves : ∀ q r, l = .answer q .commit r →
    phaseAt (protocol true) q t = .written pk (some (.failed, .new)) → SavesConfirmed q pk t
  guarded : Guarded foreign pk t ⟨l, s, s'⟩
  truthful : LooksTruthful foreign schema ⟨l, s, s'⟩

variable (hadv : Advances foreign schema pk t s l s') (hinv : AdoptionOk foreign schema pk t s)

include hadv in
/-- A row after a step comes from one before it. -/
theorem Advances.rowStep (hrow : s'.tenant pk = some row) :
    ∃ found, s.tenant pk = some found ∧ RowStep true t pk s l found row :=
  rowStep_of_move hadv.move hadv.phases hadv.staged hrow

include hadv hinv

/-- The claim of a fresh tenant is made by a run that has looked at the schema of the row it
has read, on the shard that the tenant is on. -/
theorem AdoptionOk.claimed {p : Pid} {expected : List Status} {w : World.StatusWrite}
    {r : Except Exn Bool} (hl : l = .answer p (.fencedCas pk expected w) r)
    (hw : w.status = .pending) (howner : s.leaseOwner pk = some p)
    (hfound : s.tenant pk = some found) (hfresh : Fresh found) :
    Answered foreign pk found.shard.dbAlias t := by
  subst hl
  have hpermits : Vetting.permits (phaseAt vetting p t) (.fencedCas pk expected w) :=
    hadv.vets.permits
  intro hforeign
  cases hφ : phaseAt vetting p t with
  | out =>
    rw [hφ] at hpermits
    exact absurd rfl (hpermits pk expected w)
  | leased k =>
    rw [hφ] at hpermits
    rcases hpermits with hload | hends | hplain
    · cases hload
    · exact hends.elim
    · exact hplain.elim
  | ended k =>
    rw [hφ] at hpermits
    exact hpermits.elim
  | read k row =>
    rw [hφ] at hpermits
    obtain ⟨rfl, hvetted⟩ := hpermits.resolve_left id
    have hrow := (hinv.held p row (.inl hφ) howner found hfound hfresh).1
    exact absurd hrow (hvetted hw).2
  | cleared k row =>
    rw [hφ] at hpermits
    obtain ⟨rfl, _⟩ := hpermits.resolve_left id
    have halias := (hinv.held p row (.inr hφ) howner found hfound hfresh).2 hforeign
    rw [halias] at hforeign ⊢
    exact hinv.cleared p row hφ hforeign

/-- After a step a vetted row on a foreign shard was answered for. -/
theorem AdoptionOk.vetted_step (hrow : s'.tenant pk = some row) (hvetted : Vetted row) :
    Answered foreign pk row.shard.dbAlias (⟨l, s, s'⟩ :: t) := by
  obtain ⟨found, hfound, hstep⟩ := hadv.rowStep hrow
  by_cases halias : row.shard.dbAlias = found.shard.dbAlias
  · have hnot : ¬ PointsAt pk found.shard.dbAlias ⟨l, s, s'⟩ := not_pointsAt_own hfound
    rcases hstep.vetted_before hvetted with hbefore | ⟨hfresh, p, expected, w, r, hl, hw, howner, _⟩ |
      ⟨hfailed, hnew, p, r, hl, hwritten⟩ | ⟨hfailed, hmaint⟩
    · rw [halias]
      exact (hinv.vetted found hfound hbefore).cons fun _ => hnot
    · rw [halias]
      exact (hinv.claimed hadv hl hw howner hfound hfresh).cons fun _ => hnot
    · -- The step itself is the confirmation.
      intro _
      refine ⟨[], ⟨l, s, s'⟩, t, rfl, ⟨p, r, hl, ?_, ?_, hadv.saves p r hl hwritten⟩, ?_⟩
      · rw [World.status_eq_some hfound, hfailed]
      · rw [World.status_eq_some hrow, hnew]
      · intro x hx
        obtain rfl := List.mem_singleton.mp hx
        rw [halias]
        exact hnot
    · rw [halias]
      refine Answered.cons (fun hforeign => ?_) fun _ => hnot
      exact hadv.guarded.maintained found row hfound hrow hfailed hmaint hforeign
  · -- A tenant that is pointed at a foreign schema is fresh or FAILED, and stays so in that step.
    intro hforeign
    have hfresh : Fresh found := by
      rcases hadv.guarded.pointed found row hfound hrow halias hforeign with ⟨h, _⟩ | ⟨_, h, _⟩
      · exact h
      · exact absurd h hvetted.1
    rcases hstep.vetted_before hvetted with hbefore | ⟨_, p, expected, w, r, _, _, _, hshard⟩ |
      ⟨hfailed, _⟩ | ⟨hfailed, _⟩
    · exact absurd hfresh hbefore.2
    · exact absurd (congrArg Shard.dbAlias hshard) halias
    · cases hfailed.symm.trans hfresh.1
    · cases hfailed.symm.trans hfresh.1

/-- After a step a tenant that was confirmed is no longer fresh. -/
theorem AdoptionOk.confirmed_step (hconfirmed : ConfirmedSince pk a (⟨l, s, s'⟩ :: t))
    (hrow : s'.tenant pk = some row) : ¬ Fresh row := by
  intro hfresh
  obtain ⟨found, hfound, hstep⟩ := hadv.rowStep hrow
  have hbefore := hstep.fresh_before hfresh
  obtain ⟨later, e, earlier, heq, hconfirms, hlater⟩ := hconfirmed
  cases later with
  | nil =>
    cases heq
    obtain ⟨_, _, _, hfailed, _, _⟩ := hconfirms
    rw [World.status_eq_some hfound, hbefore.1] at hfailed
    cases hfailed
  | cons x later =>
    cases heq
    refine hinv.confirmed a found ⟨later, e, earlier, rfl, hconfirms, fun y hy => ?_⟩ hfound hbefore
    exact hlater y (List.mem_cons_of_mem _ hy)

omit hinv in
/-- A row that was loaded is there before and after. -/
theorem Advances.loaded {r : Except Exn (Option Tenant)} (hr : r = .ok (some row))
    (hl : l = .answer q (.load pk) r) : s.tenant pk = some row ∧ s'.tenant pk = some row := by
  subst hr hl
  have hread := load_reads (hadv.phases q) hadv.move.permits hadv.move.acts
  refine ⟨hread, ?_⟩
  rcases exec_committed hadv.move.acts with hkept | ⟨_, happly⟩
  · rw [(World.committed_eq_iff.mp hkept).2.1]
    exact hread
  · rw [(World.committed_eq_iff.mp happly).2.1]
    exact hread

/-- After a step a row that is held is of the schema, and answered for if it is vetted. -/
theorem AdoptionOk.read_step (h : (phaseAt vetting q (⟨l, s, s'⟩ :: t)).Holds pk row) :
    row.schemaName = schema ∧
      (Vetted row → Answered foreign pk row.shard.dbAlias (⟨l, s, s'⟩ :: t)) := by
  rcases holds_of_cons h with hbefore | hl
  · obtain ⟨hschema, hanswered⟩ := hinv.read q row hbefore
    exact ⟨hschema, fun hvetted => hinv.answered_held hadv.guarded hbefore (hanswered hvetted)⟩
  · have hread := (hadv.loaded rfl hl).1
    exact ⟨hinv.schemaName row hread, fun hvetted =>
      (hinv.vetted row hread hvetted).cons fun _ => not_pointsAt_own hread⟩

/-- After a step a cleared row was answered for. -/
theorem AdoptionOk.cleared_step (h : phaseAt vetting q (⟨l, s, s'⟩ :: t) = .cleared pk row) :
    Answered foreign pk row.shard.dbAlias (⟨l, s, s'⟩ :: t) := by
  rcases cleared_of_cons h with hbefore | ⟨hread, hl⟩
  · exact hinv.answered_held hadv.guarded (.inr hbefore) (hinv.cleared q row hbefore)
  · intro hforeign
    have hschema := (hinv.read q row (.inl hread)).1
    rw [hschema] at hl
    exact absurd hforeign (hadv.truthful q _ hl)

omit hinv in
/-- Who owns the lease and has the row has owned the lease before the step. -/
theorem Advances.owner_before (h : (phaseAt vetting q t).Holds pk row)
    (howner : s'.leaseOwner pk = some q) : s.leaseOwner pk = some q := by
  cases acts_leaseChange pk hadv.move.acts with
  | kept hkept =>
    rw [World.leaseOwner, hkept] at howner
    exact howner
  | taken p r label _ _ hrow =>
    rw [World.leaseOwner, hrow] at howner
    obtain rfl : p = q := Option.some.inj howner
    subst label
    have hout := Vetting.of_permits_upsert hadv.vets.permits
    rw [hout] at h
    rcases h with h | h <;> cases h
  | released p o _ _ _ hrow =>
    rw [World.leaseOwner, hrow] at howner
    cases howner
  | inserted p x _ _ _ hrow =>
    rw [World.leaseOwner, hrow] at howner
    cases howner

/-- After a step a fresh tenant whose lease is held was fresh when it was read, and on the same
foreign shard. -/
theorem AdoptionOk.held_step (h : (phaseAt vetting q (⟨l, s, s'⟩ :: t)).Holds pk row)
    (howner : s'.leaseOwner pk = some q) {after : Tenant} (hafter : s'.tenant pk = some after)
    (hfresh : Fresh after) :
    Fresh row ∧ (foreign after.shard.dbAlias → after.shard.dbAlias = row.shard.dbAlias) := by
  rcases holds_of_cons h with hbefore | hl
  · have howned := hadv.owner_before hbefore howner
    obtain ⟨found, hfound, hstep⟩ := hadv.rowStep hafter
    obtain ⟨hrow, halias⟩ := hinv.held q row hbefore howned found hfound (hstep.fresh_before hfresh)
    refine ⟨hrow, fun hforeign => ?_⟩
    by_cases hsame : after.shard.dbAlias = found.shard.dbAlias
    · rw [hsame] at hforeign ⊢
      exact halias hforeign
    · rcases hadv.guarded.pointed found after hfound hafter hsame hforeign with
        ⟨_, hnone⟩ | ⟨_, hfailed, _⟩
      · exact absurd (hasReread_of_holds hbefore) (hnone q howned)
      · cases hfailed.symm.trans hfresh.1
  · obtain rfl := Option.some.inj ((hadv.loaded rfl hl).2.symm.trans hafter)
    exact ⟨hfresh, fun _ => rfl⟩

/-- The invariant is kept by every step that meets the condition. -/
theorem AdoptionOk.step : AdoptionOk foreign schema pk (⟨l, s, s'⟩ :: t) s' where
  schemaName row hrow := by
    obtain ⟨found, hfound, hstep⟩ := hadv.rowStep hrow
    exact hstep.schemaName_eq.trans (hinv.schemaName found hfound)
  vetted _ hrow hvetted := hinv.vetted_step hadv hrow hvetted
  confirmed _ _ hconfirmed hrow := hinv.confirmed_step hadv hconfirmed hrow
  read _ _ h := hinv.read_step hadv h
  cleared _ _ h := hinv.cleared_step hadv h
  held _ _ h howner _ hafter hfresh := hinv.held_step hadv h howner hafter hfresh

end Invariant

/-! ### Runs -/

section Runs

variable {foreign : Alias → Prop} {s₀ : World} {row₀ : Tenant} {c c' : SysConfig}

/-- A process that commits the move from FAILED to NEW runs a confirmed save. -/
theorem savesConfirmed_of_step (hrun : SysRun s₀ t c) {r : Except Exn Unit}
    (hs : Step machine (fun _ => Starts true) c (.answer q .commit r) c')
    (hwritten : phaseAt (protocol true) q t = .written pk (some (.failed, .new))) :
    SavesConfirmed q pk t := by
  obtain ⟨z, hz, hop⟩ := update_of_written hrun q hwritten
  have hlog : ∃ y ∈ answers (takenBy q t), y.op = .adminUpdate pk .failed .new :=
    ⟨⟨z.op, z.answer, (), ()⟩, List.mem_map.mpr ⟨z, hz, rfl⟩, hop⟩
  refine ⟨?_, fun prog y hstart hexec => confirmed_of_update hstart hexec hlog⟩
  cases hs with
  | answer hcall _ =>
    rcases hrun.2.exec q hcall with hdone | ⟨prog, hstart, hexec⟩
    · cases hdone
    · exact ⟨prog, _, hstart, hexec⟩

private theorem adoptionOk_init (hrow : s₀.tenant pk = some row₀) (hfresh : Fresh row₀) :
    AdoptionOk foreign row₀.schemaName pk [] s₀ where
  schemaName row h := by rw [Option.some.inj (hrow.symm.trans h)]
  vetted row h hvetted := by
    obtain rfl := Option.some.inj (hrow.symm.trans h)
    exact absurd hfresh hvetted.2
  confirmed a row h _ := by
    obtain ⟨later, e, earlier, heq, _⟩ := h
    cases later <;> cases heq
  read q row h := by rcases h with h | h <;> cases h
  cleared q row h := by cases h
  held q row h := by rcases h with h | h <;> cases h

private theorem adoptionOk_of_run (h : SysRun s₀ t c) (hrow : s₀.tenant pk = some row₀)
    (hfresh : Fresh row₀) (htruth : ∀ e ∈ t, LooksTruthful foreign row₀.schemaName e)
    (hguard : Throughout (Guarded foreign pk) t) :
    AdoptionOk foreign row₀.schemaName pk t c.shared := by
  obtain ⟨hquiet, hrun⟩ := h
  induction hrun with
  | nil => exact adoptionOk_init hrow hfresh
  | @cons t c l c' hr hs ih =>
    have hinv := ih (fun e he => htruth e (List.mem_cons_of_mem _ he)) hguard.2
    refine hinv.step ⟨hr.move system_follows hs, hr.move system_vetting hs,
      Run.phaseOk system_follows hquiet hr, Run.stagedOk system_follows hquiet hr, ?_, hguard.1,
      htruth _ List.mem_cons_self⟩
    rintro q r rfl hwritten
    exact savesConfirmed_of_step ⟨hquiet, hr⟩ hs hwritten

/-- What a run that may migrate a schema has made sure of. -/
theorem AdoptionOk.answered {schema : SchemaName} (hinv : AdoptionOk foreign schema pk t s)
    (o : UpstreamOptions) (name : SchemaName) (hof : (phaseAt vetting q t).Of pk)
    (hpermits : Vetting.permits (phaseAt vetting q t) (.shard a (.runMigrations o name))) :
    Answered foreign pk a t := by
  rcases hof with hleased | ⟨row, hread | hcleared⟩ | hover
  · rw [hleased] at hpermits
    rcases hpermits with hload | hends | hplain
    · cases hload
    · exact hends.elim
    · exact hplain.elim
  · rw [hread] at hpermits
    obtain ⟨hvetted, rfl, _⟩ := hpermits.resolve_left id
    exact (hinv.read q row (.inl hread)).2 hvetted
  · rw [hcleared] at hpermits
    obtain ⟨_, rfl, _⟩ := hpermits.resolve_left id
    exact hinv.cleared q row hcleared
  · rw [hover] at hpermits
    exact hpermits.elim

/-- From the creation of a tenant on, in every run of migrators, admins and consoles whose steps
all meet the condition: when a migrator works on the tenant's schema on a shard where it is
foreign, an admin has brought the tenant from FAILED to NEW with `confirm_schema` since it was
last pointed at that shard. -/
theorem foreign_schema_confirmed (h : SysRun s₀ t c) (hrow : s₀.tenant pk = some row₀)
    (hfresh : Fresh row₀) (htruth : ∀ e ∈ t, LooksTruthful foreign row₀.schemaName e)
    (hguard : Throughout (Guarded foreign pk) t) {later earlier : SysTrace}
    (ht : t = later ++ e :: earlier) (he : Migrates q pk a earlier e) (hforeign : foreign a) :
    ConfirmedSince pk a earlier := by
  subst ht
  obtain ⟨c₁, c₂, hrun, hs, hpre, _⟩ := h.2.split
  have hinv := adoptionOk_of_run ⟨h.1, hrun⟩ hrow hfresh
    (fun x hx => htruth x (by simp [hx])) hguard.split.2
  obtain ⟨hacquired, o, name, hlabel⟩ := he
  have hof := of_hasAcquired ⟨h.1, hrun⟩ hacquired
  refine hinv.answered o name hof ?_ hforeign
  have hmove := hrun.move system_vetting hs
  rcases hlabel with ⟨r, hlabel⟩ | hlabel
  · rw [hlabel] at hmove
    exact hmove.permits
  · rw [hlabel] at hmove
    cases hmove with
    | inner hpermits _ => exact hpermits

end Runs

/-! ### Two histories -/

/-- The tenant stays on its shard and out of MAINTENANCE in the step. -/
def RemainsOn (a : Alias) (pk : Pk) (e : SysEntry) : Prop :=
  (e.pre.tenant pk).map (·.shard.dbAlias) = some a ∧
    (e.post.tenant pk).map (·.shard.dbAlias) = some a ∧ e.post.status pk ≠ some .maintenance

/-- A step that leaves the tenant on its shard meets the condition. -/
theorem RemainsOn.guarded {foreign : Alias → Prop} (h : RemainsOn a pk e) : Guarded foreign pk t e := by
  obtain ⟨hpre, hpost, hstatus⟩ := h
  constructor
  · intro found row hfound hrow hne _
    rw [hfound] at hpre
    rw [hrow] at hpost
    exact absurd ((Option.some.inj hpost).trans (Option.some.inj hpre).symm) hne
  · intro found row _ hrow _ hmaint
    rw [World.status_eq_some hrow, hmaint] at hstatus
    exact absurd rfl hstatus

/-- Steps that leave the tenant on its shard meet the condition throughout. -/
theorem RemainsOn.throughout {foreign : Alias → Prop} (h : ∀ e ∈ t, RemainsOn a pk e) :
    Throughout (Guarded foreign pk) t := by
  induction t with
  | nil => trivial
  | cons e t ih =>
    exact ⟨(h e List.mem_cons_self).guarded, ih fun x hx => h x (List.mem_cons_of_mem _ hx)⟩

/-- What holds of every backend, attached or not, holds after a connection is closed. -/
theorem World.closeConn_backends {Q : Backend → Prop} (hQ : ∀ b, Q b → Q { b with attached := false })
    (h : ∀ i b, s.backends i = some b → Q b) :
    ∀ i b, (s.closeConn p a).backends i = some b → Q b := by
  intro i b hb
  obtain ⟨c, hc, hclosed⟩ := Option.bind_eq_some_iff.mp hb
  split at hclosed
  · split at hclosed
    · obtain rfl := Option.some.inj hclosed
      exact hQ c (h i c hc)
    · cases hclosed
  · obtain rfl := Option.some.inj hclosed
    exact h i c hc

/-- `acme` after the migrator has found relations in its schema. -/
def acmeRefused : Tenant :=
  { acme with status := .failed, lastError := schemaExistsMsg "shard1" "acme" }

/-- `acme` after an admin has brought it from FAILED to NEW. -/
def acmeConfirmed : Tenant := { acme with previousStatus := .failed }

/-- The change form that asks to try again, with `confirm_schema`. -/
def tryAgain : Submission :=
  ⟨1, some "failed", some "new", true, ⟨none, none, none, none⟩, false⟩

/-- The migrator finds relations in the schema on `shard1` and refuses it, an admin confirms the
schema, and the next run of the migrator adopts it. -/
theorem confirmed_run : ∃ e earlier c, SysRun (oneTenant acme) ([] ++ e :: earlier) c ∧
    (∀ x ∈ e :: earlier, LooksTruthful (· = "shard1") "acme" x) ∧
    (∀ x ∈ e :: earlier, RemainsOn "shard1" 1 x) ∧ Migrates "app-1:4312" 1 "shard1" earlier e := by
  have r0 : Run machine (fun _ => Starts true) (.idle (oneTenant acme)) [] (.idle (oneTenant acme)) :=
    .nil
  have r1 := r0.start "app-1:4312" (.migrate 1 .defaults nofun) rfl
  have r2 := r1.answer "app-1:4312" (.load 1) (.ok (some acme)) ⟨rfl, rfl, rfl⟩ rfl
  have r3 := r2.answer "app-1:4312" (.shard "shard1" (.sessionActive 1)) (.ok none)
    ⟨⟨nofun, fun h => absurd h oneTenant_not_busy⟩, .idle, nofun, .inr ⟨nofun, 0, rfl, rfl⟩⟩ rfl
  have r4 := r3.answer "app-1:4312" (.leaseUpsert 1) (.ok true) ⟨rfl, rfl, rfl⟩ rfl
  have r5 := r4.answer "app-1:4312" (.load 1) (.ok (some acme)) ⟨rfl, rfl, rfl⟩ rfl
  have r6 := r5.answer "app-1:4312" .codeOlderThanDb (.ok false) ⟨trivial, rfl, rfl⟩ rfl
  have r7 := r6.answer "app-1:4312" (.shard "shard1" (.schemaHasRelations "acme")) (.ok true)
    ⟨trivial, .idle, nofun, .inl ⟨0, _, rfl, rfl, rfl⟩⟩ rfl
  have r8 := r7.answer "app-1:4312"
    (.fencedCas 1 [.new] ⟨.failed, .new, schemaExistsMsg "shard1" "acme"⟩) (.ok true)
    ⟨rfl, rfl, rfl⟩ rfl
  have r9 := r8.answer "app-1:4312" (.forgetTenant 1) (.ok ()) ⟨trivial, rfl, rfl⟩ rfl
  have r10 := r9.answer "app-1:4312" (.shardIdle "shard1") (.ok true)
    ⟨⟨fun _ => forall_backends_update (fun _ => nofun)
      (forall_backends_update (fun _ => nofun) nofun), fun _ => rfl⟩, rfl, rfl⟩ rfl
  have r11 := r10.answer "app-1:4312" (.closeShard "shard1") (.ok ()) ⟨trivial, rfl, rfl⟩ rfl
  have r12 := r11.answer "app-1:4312" (.leaseRelease 1) (.ok true) ⟨rfl, rfl, rfl⟩ rfl
  have r13 := r12.start "web-1:80" (.adminChange tryAgain) rfl
  have r14 := r13.answer "web-1:80" .begin (.ok ()) ⟨trivial, rfl, rfl⟩ rfl
  have r15 := r14.answer "web-1:80" (.load 1) (.ok (some acmeRefused)) ⟨rfl, rfl, rfl⟩ rfl
  have r16 := r15.answer "web-1:80" (.adminUpdate 1 .failed .new) (.ok true) ⟨rfl, rfl, rfl⟩ rfl
  have r17 := r16.answer "web-1:80" .commit (.ok ()) ⟨trivial, rfl, rfl⟩ rfl
  have r18 := r17.start "app-1:4312" (.migrate 1 .defaults nofun) rfl
  have r19 := r18.answer "app-1:4312" (.load 1) (.ok (some acmeConfirmed)) ⟨rfl, rfl, rfl⟩ rfl
  have r20 := r19.answer "app-1:4312" (.shard "shard1" (.sessionActive 1)) (.ok none)
    ⟨⟨nofun, fun h => absurd h ?_⟩, .idle, nofun,
      .inr ⟨World.closeConn_not_connected, 0, rfl, rfl⟩⟩ rfl
  rotate_left
  · refine World.not_busy_of_unlabelled (World.closeConn_backends (fun _ => id) ?_)
    exact forall_backends_update nofun (forall_backends_update nofun nofun)
  have r21 := r20.answer "app-1:4312" (.leaseUpsert 1) (.ok true) ⟨rfl, rfl, rfl⟩ rfl
  have r22 := r21.answer "app-1:4312" (.load 1) (.ok (some acmeConfirmed)) ⟨rfl, rfl, rfl⟩ rfl
  have r23 := r22.answer "app-1:4312" .codeOlderThanDb (.ok false) ⟨trivial, rfl, rfl⟩ rfl
  have r24 := r23.answer "app-1:4312" (.fencedCas 1 provisionable ⟨.pending, .new, ""⟩) (.ok true)
    ⟨rfl, rfl, rfl⟩ rfl
  have r25 := r24.answer "app-1:4312" (.shard "shard1" (.createSchema "acme")) (.ok ())
    ⟨trivial, .idle, nofun, .inl ⟨0, _, rfl, rfl, rfl⟩⟩ rfl
  have r26 := r25.answer "app-1:4312" (.shard "shard1" (.openShard 1)) (.ok ())
    ⟨trivial, .idle, nofun, .inl ⟨0, _, rfl, rfl, rfl⟩⟩ rfl
  have r27 := r26.answer "app-1:4312"
    (.shard "shard1" (.runMigrations (RunOptions.defaults.upstream "shard1") "acme")) (.ok ())
    ⟨trivial, .idle, nofun, .inl ⟨0, _, rfl, rfl, rfl⟩⟩ rfl
  refine ⟨_, _, _, ⟨oneTenant_quiet acme, r27⟩, ?_, ?_, ?_⟩
  · intro x hx q a hl
    simp only [List.mem_cons, List.not_mem_nil, or_false] at hx
    repeat' (rcases hx with rfl | hx)
    all_goals cases hl
  · intro x hx
    simp only [List.mem_cons, List.not_mem_nil, or_false] at hx
    repeat' (rcases hx with rfl | hx)
    all_goals exact ⟨rfl, rfl, nofun⟩
  · exact ⟨⟨_, _, List.mem_iff_append.mpr ⟨[_, _, _, _, _], _, rfl⟩⟩, _, _, .inl ⟨_, rfl⟩⟩

/-- The second run has adopted a schema that was confirmed. -/
theorem foreign_schema_tried_again : ∃ e earlier c,
    SysRun (oneTenant acme) ([] ++ e :: earlier) c ∧ Migrates "app-1:4312" 1 "shard1" earlier e ∧
      ConfirmedSince 1 "shard1" earlier := by
  obtain ⟨e, earlier, c, hrun, htruth, hstays, hmigrates⟩ := confirmed_run
  have hrow : (oneTenant acme).tenant 1 = some acme := rfl
  exact ⟨e, earlier, c, hrun, hmigrates, foreign_schema_confirmed hrun hrow ⟨rfl, nofun⟩ htruth
    (RemainsOn.throughout hstays) rfl hmigrates rfl⟩

/-- `acme` after a claim. -/
def acmePending : Tenant := { acme with status := .pending }

/-- `acme` after the claim, on another shard. -/
def acmeElsewhere : Tenant := { acmePending with shard := ⟨"shard2", false⟩ }

/-- The change form of a PENDING tenant with another shard and nothing else. -/
def pendingToShard2 : Submission :=
  ⟨1, some "pending", none, false, ⟨none, none, none, some ⟨"shard2", false⟩⟩, false⟩

/-- The migrator claims the tenant on `shard1` and loses its connection before it has created
anything; an admin points the tenant at `shard2`; the next run resumes, which it does without a
look at the schema, and migrates what somebody else has on `shard2`. -/
theorem resumed_over_foreign : ∃ e earlier c, SysRun (oneTenant acme) ([] ++ e :: earlier) c ∧
    (oneTenant acme).tenant 1 = some acme ∧ Fresh acme ∧
    (∀ x ∈ e :: earlier, LooksTruthful (· = "shard2") "acme" x) ∧
    Migrates "app-1:4312" 1 "shard2" earlier e ∧ ¬ ConfirmedSince 1 "shard2" earlier := by
  have r0 : Run machine (fun _ => Starts true) (.idle (oneTenant acme)) [] (.idle (oneTenant acme)) :=
    .nil
  have r1 := r0.start "app-1:4312" (.migrate 1 .defaults nofun) rfl
  have r2 := r1.answer "app-1:4312" (.load 1) (.ok (some acme)) ⟨rfl, rfl, rfl⟩ rfl
  have r3 := r2.answer "app-1:4312" (.shard "shard1" (.sessionActive 1)) (.ok none)
    ⟨⟨nofun, fun h => absurd h oneTenant_not_busy⟩, .idle, nofun, .inr ⟨nofun, 0, rfl, rfl⟩⟩ rfl
  have r4 := r3.answer "app-1:4312" (.leaseUpsert 1) (.ok true) ⟨rfl, rfl, rfl⟩ rfl
  have r5 := r4.answer "app-1:4312" (.load 1) (.ok (some acme)) ⟨rfl, rfl, rfl⟩ rfl
  have r6 := r5.answer "app-1:4312" .codeOlderThanDb (.ok false) ⟨trivial, rfl, rfl⟩ rfl
  have r7 := r6.answer "app-1:4312" (.shard "shard1" (.schemaHasRelations "acme")) (.ok false)
    ⟨trivial, .idle, nofun, .inl ⟨0, _, rfl, rfl, rfl⟩⟩ rfl
  have r8 := r7.answer "app-1:4312" (.fencedCas 1 provisionable ⟨.pending, .new, ""⟩) (.ok true)
    ⟨rfl, rfl, rfl⟩ rfl
  have r9 := r8.answer "app-1:4312" (.shard "shard1" (.createSchema "acme")) (.error serverClosed)
    ⟨⟨_, rfl⟩, .inl ⟨.idle, nofun, .inl ⟨0, _, rfl, rfl, rfl⟩⟩⟩ rfl
  have r10 := r9.answer "app-1:4312" (.shardIdle "shard1") (.ok true)
    ⟨⟨fun _ => forall_backends_update (fun _ => nofun) (forall_backends_update (fun _ => nofun)
      (forall_backends_update (fun _ => nofun) nofun)), fun _ => rfl⟩, rfl, rfl⟩ rfl
  have r11 := r10.answer "app-1:4312" (.closeShard "shard1") (.ok ()) ⟨trivial, rfl, rfl⟩ rfl
  have r12 := r11.answer "app-1:4312" (.leaseRelease 1) (.ok true) ⟨rfl, rfl, rfl⟩ rfl
  have r13 := r12.start "web-1:80" (.adminChange pendingToShard2) rfl
  have r14 := r13.answer "web-1:80" .begin (.ok ()) ⟨trivial, rfl, rfl⟩ rfl
  have r15 := r14.answer "web-1:80" (.load 1) (.ok (some acmePending)) ⟨rfl, rfl, rfl⟩ rfl
  have r16 := r15.answer "web-1:80" (.saveTenant 1 pendingToShard2.changes false) (.ok true)
    ⟨rfl, rfl, rfl⟩ rfl
  have r17 := r16.answer "web-1:80" .commit (.ok ()) ⟨trivial, rfl, rfl⟩ rfl
  have r18 := r17.start "app-1:4312" (.migrate 1 .defaults nofun) rfl
  have r19 := r18.answer "app-1:4312" (.load 1) (.ok (some acmeElsewhere)) ⟨rfl, rfl, rfl⟩ rfl
  have r20 := r19.answer "app-1:4312" (.shard "shard2" (.sessionActive 1)) (.ok none)
    ⟨⟨nofun, fun h => absurd h ?_⟩, .idle, nofun, .inr ⟨?_, 0, rfl, rfl⟩⟩ rfl
  rotate_left
  · refine World.not_busy_of_unlabelled (World.closeConn_backends (fun _ => id) ?_)
    exact forall_backends_update nofun (forall_backends_update nofun
      (forall_backends_update nofun nofun))
  · refine World.closeConn_backends (fun _ _ => rfl) ?_
    exact forall_backends_update rfl (forall_backends_update rfl (forall_backends_update rfl nofun))
  have r21 := r20.answer "app-1:4312" (.leaseUpsert 1) (.ok true) ⟨rfl, rfl, rfl⟩ rfl
  have r22 := r21.answer "app-1:4312" (.load 1) (.ok (some acmeElsewhere)) ⟨rfl, rfl, rfl⟩ rfl
  have r23 := r22.answer "app-1:4312" .codeOlderThanDb (.ok false) ⟨trivial, rfl, rfl⟩ rfl
  have r24 := r23.answer "app-1:4312" (.fencedCas 1 provisionable ⟨.pending, .new, ""⟩) (.ok true)
    ⟨rfl, rfl, rfl⟩ rfl
  have r25 := r24.answer "app-1:4312" (.shard "shard2" (.createSchema "acme")) (.ok ())
    ⟨trivial, .idle, nofun, .inl ⟨0, _, rfl, rfl, rfl⟩⟩ rfl
  have r26 := r25.answer "app-1:4312" (.shard "shard2" (.openShard 1)) (.ok ())
    ⟨trivial, .idle, nofun, .inl ⟨0, _, rfl, rfl, rfl⟩⟩ rfl
  have r27 := r26.answer "app-1:4312"
    (.shard "shard2" (.runMigrations (RunOptions.defaults.upstream "shard2") "acme")) (.ok ())
    ⟨trivial, .idle, nofun, .inl ⟨0, _, rfl, rfl, rfl⟩⟩ rfl
  refine ⟨_, _, _, ⟨oneTenant_quiet acme, r27⟩, rfl, ⟨rfl, nofun⟩, ?_,
    ⟨⟨_, _, List.mem_iff_append.mpr ⟨[_, _, _, _, _], _, rfl⟩⟩, _, _, .inl ⟨_, rfl⟩⟩, ?_⟩
  · intro x hx q a hl
    simp only [List.mem_cons, List.not_mem_nil, or_false] at hx
    repeat' (rcases hx with rfl | hx)
    all_goals cases hl
    exact nofun
  · -- The tenant is never FAILED, so nothing was confirmed.
    rintro ⟨later, x, old, ht, ⟨_, _, _, hfailed, _⟩, _⟩
    have hx : x ∈ later ++ x :: old := by simp
    rw [← ht] at hx
    simp only [List.mem_cons, List.not_mem_nil, or_false] at hx
    repeat' (rcases hx with rfl | hx)
    all_goals cases hfailed

end MtShards.Migrator
