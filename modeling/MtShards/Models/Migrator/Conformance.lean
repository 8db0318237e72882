import MtShards.Models.Migrator.Protocol

/-!
# Every program keeps to the protocol

One lemma per function of the source: from which phases it may be called and in which
phases it leaves. A handler of `_provision` is entered with the phase that the step before it
has left, so its lemma asks only for what every such step provides.
-/

namespace MtShards.Migrator

open MtShards.Core Program

variable {maint : Bool} {φ : Phase} {α β : Type}

/-- The protocol permits what its phase permits. -/
@[simp] theorem protocol_permits (φ : Phase) (op : Req) :
    (protocol maint).permits φ op = φ.permits maint op := rfl

/-- The protocol moves on as its phase does. -/
@[simp] theorem protocol_next (φ : Phase) (op : Req) (r : Except Exn op.Ans) :
    (protocol maint).next φ op r = φ.next op r := rfl

/-- A process starts out of every lease and transaction. -/
@[simp] theorem protocol_init : (protocol maint).init = Phase.out := rfl

/-- A single request follows the protocol if it is permitted and its answers are allowed. -/
@[simp] theorem follows_req {op : Req} {Q : Phase → Except Exn op.Ans → Prop} :
    (call op).Follows (protocol maint) φ Q ↔ φ.permits maint op ∧ ∀ r, Q (φ.next op r) r := Iff.rfl

/-- A guarded step: the rest follows from its value, the handler from its exception. -/
theorem follows_guarded {Φ : Type} {P : Protocol Req Req.Ans Exn Φ} {φ : Φ}
    {onError : Exn → Prog β} {x : Prog α} {k : α → Prog β} {Q : Φ → Except Exn β → Prop}
    (hx : x.Follows P φ fun φ' => onOutcome (fun a => (k a).Follows P φ' Q)
      (fun e => (e.base = true → Q φ' (.error e)) ∧
        (e.base = false → (onError e).Follows P φ' Q))) :
    (guarded onError x k).Follows P φ Q := by
  rw [guarded, follows_bind, follows_attempt]
  refine hx.mono fun φ' r hr => ?_
  cases r with
  | ok a => exact hr
  | error e =>
    simp only [onOutcome_ok]
    cases hb : e.base with
    | true => simpa only [hb, if_true, follows_raise] using hr.1 hb
    | false => simpa only [hb, Bool.false_eq_true, if_false] using hr.2 hb

/-- A phase that permits a request and that no answer to it leaves. -/
def StaysOn (maint : Bool) (φ : Phase) (op : Req) : Prop :=
  φ.permits maint op ∧ ∀ r, φ.next op r = φ

/-- A phase that quiet requests do not leave. -/
def Calm (maint : Bool) (φ : Phase) : Prop := ∀ op : Req, op.quiet = true → StaysOn maint φ op

/-- A phase that quiet uses of a shard connection do not leave. -/
def ShardCalm (maint : Bool) (φ : Phase) : Prop :=
  ∀ a, StaysOn maint φ (.closeShard a) ∧
    ∀ q : ShardReq, (Req.shard a q).quiet = true → StaysOn maint φ (.shard a q)

/-- A calm phase is calm on the shards too. -/
theorem Calm.shardCalm (h : Calm maint φ) : ShardCalm maint φ :=
  fun a => ⟨h (.closeShard a) rfl, fun q hq => h (.shard a q) hq⟩

/-- Quiet requests do not leave the phase outside. -/
theorem calm_out : Calm maint .out := by
  intro op hq
  cases op with
  | shard a q => cases q <;> first | exact absurd hq Bool.false_ne_true | exact ⟨rfl, fun r => rfl⟩
  | _ => first | exact absurd hq Bool.false_ne_true | exact ⟨rfl, fun r => rfl⟩

/-- Quiet requests do not leave the phase of a bystander. -/
theorem calm_bystander : Calm maint .bystander := by
  intro op hq
  cases op with
  | shard a q => cases q <;> first | exact absurd hq Bool.false_ne_true | exact ⟨rfl, fun r => rfl⟩
  | _ => first | exact absurd hq Bool.false_ne_true | exact ⟨rfl, fun r => rfl⟩

/-- Quiet requests do not leave the phase of a lease under which work is allowed. -/
theorem calm_leased {k : Pk} {seen : Seen} (hw : seen.works maint) :
    Calm maint (.leased k seen) := by
  intro op hq
  cases op with
  | closeShard a => exact ⟨trivial, fun r => rfl⟩
  | shard a q =>
    cases q <;> first | exact absurd hq Bool.false_ne_true | exact ⟨⟨rfl, hw⟩, fun r => rfl⟩
  | _ => first | exact absurd hq Bool.false_ne_true | exact ⟨⟨rfl, hw⟩, fun r => rfl⟩

private theorem shardCalm_tx : ShardCalm maint .tx :=
  fun _ => ⟨⟨trivial, fun _ => rfl⟩, fun _ _ => ⟨trivial, fun _ => rfl⟩⟩

/-- A request that does not leave the phase. -/
theorem StaysOn.follows {op : Req} (h : StaysOn maint φ op) :
    (call op).Follows (protocol maint) φ fun φ' _ => φ' = φ := h

/-- A sequence whose first part does not leave the phase. -/
theorem follows_bind_of_stays {x : Prog α} {f : α → Prog β} {Q : Phase → Except Exn β → Prop}
    (hx : x.Follows (protocol maint) φ fun φ' _ => φ' = φ)
    (hf : ∀ a, (f a).Follows (protocol maint) φ Q) (he : ∀ e, Q φ (.error e)) :
    (x >>= f).Follows (protocol maint) φ Q := by
  rw [follows_bind]
  refine hx.mono fun φ' r hr => ?_
  subst hr
  cases r with
  | ok a => exact hf a
  | error e => exact he e

/-- A guarded step that does not leave the phase. -/
theorem follows_guarded_of_stays {onError : Exn → Prog β} {x : Prog α} {k : α → Prog β}
    {Q : Phase → Except Exn β → Prop}
    (hx : x.Follows (protocol maint) φ fun φ' _ => φ' = φ)
    (hk : ∀ a, (k a).Follows (protocol maint) φ Q) (he : ∀ e, Q φ (.error e))
    (hh : ∀ e, (onError e).Follows (protocol maint) φ Q) :
    (guarded onError x k).Follows (protocol maint) φ Q := by
  refine follows_guarded (hx.mono fun φ' r hr => ?_)
  subst hr
  cases r with
  | ok a => exact hk a
  | error e => exact ⟨fun _ => he e, fun _ => hh e⟩

/-! ### Functions that do not leave a calm phase -/

/-- Closing a shard connection leaves the phase. -/
theorem closeShard_stays (h : ShardCalm maint φ) (a : Alias) :
    (closeShard a).Follows (protocol maint) φ fun φ' _ => φ' = φ := (h a).1.follows

/-- Forgetting a tenant leaves the phase. -/
theorem forget_stays (h : Calm maint φ) (pk : Pk) :
    (forget pk).Follows (protocol maint) φ fun φ' _ => φ' = φ :=
  (h (.forgetTenant pk) rfl).follows

/-- Comparing the code with the database leaves the phase. -/
theorem codeOlderThanDb_stays (h : Calm maint φ) :
    codeOlderThanDb.Follows (protocol maint) φ fun φ' _ => φ' = φ :=
  (h .codeOlderThanDb rfl).follows

private theorem schemaHasRelations_stays (h : ShardCalm maint φ) (a : Alias) (schema : SchemaName) :
    (schemaHasRelations a schema).Follows (protocol maint) φ fun φ' _ => φ' = φ :=
  ((h a).2 (.schemaHasRelations schema) rfl).follows

/-- Reading the plan of a schema leaves the phase. -/
theorem pendingPlan_stays (h : ShardCalm maint φ) (t : Tenant) :
    (pendingPlan t).Follows (protocol maint) φ fun φ' _ => φ' = φ := by
  have hexists := (h t.shard.dbAlias).2 (.schemaExists t.schemaName) rfl
  have hplan := (h t.shard.dbAlias).2 (.migrationPlan t.schemaName) rfl
  refine follows_bind_of_stays hexists.follows (fun found => ?_) fun _ => rfl
  cases found with
  | false => rfl
  | true =>
    have hbody : Follows (protocol maint) (do
        let plan : Plan ← call (.shard t.shard.dbAlias (.migrationPlan t.schemaName))
        Pure.pure (some plan)) φ fun φ' (_ : Except Exn (Option Plan)) => φ' = φ :=
      follows_bind_of_stays hplan.follows (fun _ => rfl) fun _ => rfl
    rw [if_pos rfl, follows_tryFinally]
    refine hbody.mono fun φ' r hr => ?_
    subst hr
    refine (closeShard_stays h t.shard.dbAlias).mono fun φ'' r' hr' => ?_
    cases r' <;> exact hr'

private theorem invalidIndexes_stays (h : ShardCalm maint φ) (a : Alias) (schema : SchemaName) :
    (invalidIndexes a schema).Follows (protocol maint) φ fun φ' _ => φ' = φ :=
  follows_guarded_of_stays ((h a).2 (.invalidIndexes schema) rfl).follows (fun _ => rfl)
    (fun _ => rfl) fun _ => rfl

/-- Reporting a failure leaves the phase. -/
theorem failure_stays (h : ShardCalm maint φ) (e : Exn) (a : Alias) (schema : SchemaName)
    (c : Target) : (failure e a schema c).Follows (protocol maint) φ fun φ' _ => φ' = φ :=
  follows_bind_of_stays (closeShard_stays h a)
    (fun _ => follows_bind_of_stays (invalidIndexes_stays h a schema) (fun _ => rfl) fun _ => rfl)
    fun _ => rfl

/-- Looking into a lost status write leaves the phase. -/
theorem casLost_stays (h : Calm maint φ) (pk : Pk) (c : Target) :
    (casLost pk c).Follows (protocol maint) φ fun φ' _ => φ' = φ := by
  refine follows_bind_of_stays (h (.casLostRow pk) rfl).follows (fun row => ?_) fun _ => rfl
  match row with
  | none => rfl
  | some (status, true) => rfl
  | some (status, false) => rfl

private theorem provisionSchema_stays (h : ShardCalm maint φ) (pk : Pk) (t : Tenant) (opts : RunOptions) :
    (provisionSchema pk t opts).Follows (protocol maint) φ fun φ' _ => φ' = φ := by
  have hreq := (h t.shard.dbAlias).2
  refine follows_bind_of_stays (hreq (.createSchema t.schemaName) rfl).follows (fun _ => ?_)
    fun _ => rfl
  refine follows_bind_of_stays (hreq (.openShard pk) rfl).follows (fun _ => ?_) fun _ => rfl
  refine follows_bind_of_stays (hreq (.runMigrations _ t.schemaName) rfl).follows (fun _ => ?_)
    fun _ => rfl
  refine follows_bind_of_stays (pendingPlan_stays h t) (fun plan => ?_) fun _ => rfl
  match plan with
  | none => rfl
  | some [] => rfl
  | some (_ :: _) => rfl

/-! ### The migrator under its lease -/

/-- The lease is still held. -/
def Phase.Leased (k : Pk) (φ : Phase) : Prop := ∃ seen, φ = .leased k seen

/-- The phase of a run that works on the status it has seen. -/
theorem calm_read {k : Pk} {s : Status} (hs : s ≠ .maintenance) :
    Calm maint (.leased k (.read s)) := calm_leased fun h => absurd h hs

/-- What the steps of `_provision` provide to its handler: after a connection error nothing,
else a status that it has seen, PENDING or ACTIVE once the claim was made. -/
def HandlerReady (k : Pk) (claimed : Bool) (e : Exn) (φ : Phase) : Prop :=
  φ.Leased k ∧ (e.connError = false → ∃ s, φ = .leased k (.read s) ∧ s ≠ .maintenance ∧
    (claimed = true → s = .pending ∨ s = .active))

/-- An allowed status write follows the protocol: won, the new status is known; after a connection
error none is. -/
theorem fencedCas_follows {pk : Pk} {s : Status} {expected : List Status} {w : World.StatusWrite}
    (h : CasAllowed s expected w.status) :
    (fencedCas pk expected w).Follows (protocol maint) (.leased pk (.read s)) fun φ' =>
      onOutcome (fun won => φ' = .leased pk (.read (if won then w.status else s)))
        (fun e => φ' = if e.connError then .leased pk .unknown else .leased pk (.read s)) := by
  refine ⟨⟨rfl, s, rfl, h⟩, fun r => ?_⟩
  match r with
  | .ok true => rfl
  | .ok false => rfl
  | .error e => rfl

/-- The handler of `_provision` follows the protocol and keeps the lease. -/
theorem provisionFailed_follows {pk : Pk} {t : Tenant} {c : Target} {side : Side} {claimed : Bool}
    {e : Exn} (h : HandlerReady pk claimed e φ) :
    (provisionFailed pk t c side claimed e).Follows (protocol maint) φ fun φ' _ =>
      φ'.Leased pk := by
  obtain ⟨hl, hready⟩ := h
  rw [provisionFailed]
  cases hc : e.connError with
  | true => exact hl
  | false =>
    obtain ⟨s, rfl, hs, hclaim⟩ := hready hc
    have hcalm : Calm maint (.leased pk (.read s)) := calm_read hs
    have hleased : (Phase.leased pk (.read s)).Leased pk := ⟨_, rfl⟩
    rw [if_neg Bool.false_ne_true]
    refine follows_bind_of_stays (failure_stays hcalm.shardCalm e _ _ c) (fun res => ?_)
      fun _ => hleased
    cases claimed with
    | false => exact hleased
    | true =>
      have hraise : ∀ (φ' : Phase) (e2 : Exn), φ'.Leased pk →
          (if e2.connError then
            Pure.pure { res with reason := Reason.connError, connError := some Side.default }
          else Program.raise e2 : Prog Result).Follows (protocol maint) φ' fun φ'' _ =>
            φ''.Leased pk := by
        intro φ' e2 h'
        split <;> exact h'
      rw [if_pos rfl]
      refine follows_guarded ?_
      rw [follows_bind]
      refine (fencedCas_follows (.provisionFailed (hclaim rfl))).mono fun φ' r hr => ?_
      match r with
      | .error e2 =>
        have hφ' : φ'.Leased pk := by
          rw [onOutcome_error] at hr
          rw [hr]
          split <;> exact ⟨_, rfl⟩
        exact ⟨fun _ => hφ', fun _ => hraise φ' e2 hφ'⟩
      | .ok true =>
        obtain rfl : φ' = .leased pk (.read .failed) := hr
        have hfailed : Calm maint (.leased pk (.read .failed)) := calm_read (by decide)
        exact follows_bind_of_stays (forget_stays hfailed pk) (fun _ => ⟨_, rfl⟩)
          fun e2 => ⟨fun _ => ⟨_, rfl⟩, fun _ => hraise _ e2 ⟨_, rfl⟩⟩
      | .ok false =>
        obtain rfl : φ' = .leased pk (.read s) := hr
        exact follows_bind_of_stays (casLost_stays hcalm pk c) (fun _ => hleased)
          fun e2 => ⟨fun _ => hleased, fun _ => hraise _ e2 hleased⟩

section Provision

variable {pk : Pk} {t : Tenant} {c : Target} {opts : RunOptions} {side : Side} {claimed : Bool}
  {s : Status}

/-- A step of `_provision` that does not leave the phase. -/
theorem provisionStep_follows {x : Prog α} {k : α → Prog Result} (hs : s ≠ .maintenance)
    (hclaim : claimed = true → s = .pending ∨ s = .active)
    (hx : x.Follows (protocol maint) (.leased pk (.read s)) fun φ' _ =>
      φ' = .leased pk (.read s))
    (hk : ∀ a, (k a).Follows (protocol maint) (.leased pk (.read s)) fun φ' _ => φ'.Leased pk) :
    (guarded (provisionFailed pk t c side claimed) x k).Follows (protocol maint)
      (.leased pk (.read s)) fun φ' _ => φ'.Leased pk :=
  follows_guarded_of_stays hx hk (fun _ => ⟨_, rfl⟩) fun _ =>
    provisionFailed_follows ⟨⟨_, rfl⟩, fun _ => ⟨s, rfl, hs, hclaim⟩⟩

/-- A fenced status write of `_provision`. -/
theorem provisionCas_follows {expected : List Status} {w : World.StatusWrite}
    {k : Bool → Prog Result} (h : CasAllowed s expected w.status) (hs : s ≠ .maintenance)
    (hclaim : claimed = true → s = .pending ∨ s = .active)
    (hwon : (k true).Follows (protocol maint) (.leased pk (.read w.status)) fun φ' _ =>
      φ'.Leased pk)
    (hlost : (k false).Follows (protocol maint) (.leased pk (.read s)) fun φ' _ =>
      φ'.Leased pk) :
    (guarded (provisionFailed pk t c side claimed) (fencedCas pk expected w) k).Follows
      (protocol maint) (.leased pk (.read s)) fun φ' _ => φ'.Leased pk := by
  refine follows_guarded ((fencedCas_follows h).mono fun φ' r hr => ?_)
  match r with
  | .ok true =>
    obtain rfl : φ' = .leased pk (.read w.status) := hr
    exact hwon
  | .ok false =>
    obtain rfl : φ' = .leased pk (.read s) := hr
    exact hlost
  | .error e =>
    rw [onOutcome_error] at hr
    cases hc : e.connError with
    | true =>
      obtain rfl : φ' = .leased pk .unknown := by simpa only [hc, if_true] using hr
      exact ⟨fun _ => ⟨_, rfl⟩, fun _ => provisionFailed_follows
        ⟨⟨_, rfl⟩, fun h' => absurd (hc.symm.trans h') (by decide)⟩⟩
    | false =>
      obtain rfl : φ' = .leased pk (.read s) := by
        simpa only [hc, Bool.false_eq_true, if_false] using hr
      exact ⟨fun _ => ⟨_, rfl⟩, fun _ => provisionFailed_follows
        ⟨⟨_, rfl⟩, fun _ => ⟨s, rfl, hs, hclaim⟩⟩⟩

private theorem provisionClaimed_follows :
    (provisionClaimed pk t opts c).Follows (protocol maint) (.leased pk (.read .pending))
      fun φ' _ => φ'.Leased pk := by
  have hpending : Calm maint (.leased pk (.read .pending)) := calm_read (by decide)
  have hactive : Calm maint (.leased pk (.read .active)) := calm_read (by decide)
  refine provisionStep_follows (by decide) (fun _ => .inl rfl)
    (provisionSchema_stays hpending.shardCalm pk t opts) fun _ => ?_
  refine provisionStep_follows (by decide) (fun _ => .inl rfl) (codeOlderThanDb_stays hpending)
    fun older => ?_
  cases older with
  | true => exact ⟨_, rfl⟩
  | false =>
    refine provisionCas_follows .provisioned (by decide) (fun _ => .inl rfl) ?_ ?_
    · refine provisionStep_follows (by decide) (fun _ => .inr rfl) (forget_stays hactive pk)
        fun _ => ?_
      split <;> exact ⟨_, rfl⟩
    · exact provisionStep_follows (by decide) (fun _ => .inl rfl) (casLost_stays hpending pk c)
        fun _ => ⟨_, rfl⟩

/-- A provisioning follows the protocol from its claim on, and keeps the lease. -/
theorem provisionClaim_follows (hs : s ∈ provisionable) :
    (provisionClaim pk t opts c).Follows (protocol maint) (.leased pk (.read s))
      fun φ' _ => φ'.Leased pk := by
  have hne : s ≠ .maintenance := by
    rintro rfl
    exact absurd hs (by decide)
  refine provisionCas_follows (.claim hs) hne nofun provisionClaimed_follows ?_
  exact provisionStep_follows hne nofun (casLost_stays (calm_read hne) pk c) fun _ => ⟨_, rfl⟩

private theorem provision_follows (hs : t.status ∈ provisionable) :
    (provision pk t opts c).Follows (protocol maint) (.leased pk (.read t.status))
      fun φ' _ => φ'.Leased pk := by
  have hne : t.status ≠ .maintenance := by
    intro h
    rw [h] at hs
    exact absurd hs (by decide)
  have hcalm : Calm maint (.leased pk (.read t.status)) := calm_read hne
  rw [provision]
  split
  · exact ⟨_, rfl⟩
  refine provisionStep_follows hne nofun (codeOlderThanDb_stays hcalm) fun older => ?_
  cases older with
  | true => exact ⟨_, rfl⟩
  | false =>
    by_cases hnew : t.status = .new ∧ t.previousStatus ≠ .failed
    · rw [if_neg Bool.false_ne_true, if_pos hnew]
      refine provisionStep_follows hne nofun
        (schemaHasRelations_stays hcalm.shardCalm _ _) fun foreign => ?_
      cases foreign with
      | false => exact provisionClaim_follows hs
      | true =>
        rw [hnew.1] at hcalm hne ⊢
        have hfailed : Calm maint (.leased pk (.read .failed)) := calm_read (by decide)
        refine provisionCas_follows .foreignSchema hne nofun ?_ ?_
        · have hne' : Status.failed ≠ .maintenance := by decide
          exact provisionStep_follows hne' nofun (forget_stays hfailed pk) fun _ => ⟨_, rfl⟩
        · exact provisionStep_follows hne nofun (casLost_stays hcalm pk c) fun _ => ⟨_, rfl⟩
    · rw [if_neg Bool.false_ne_true, if_neg hnew]
      exact provisionClaim_follows hs

end Provision

section Upgrade

variable {pk : Pk} {t : Tenant} {c : Target} {opts : RunOptions} {side : Side}

/-- The handler of `_upgrade` follows the protocol and keeps the lease. -/
theorem upgradeFailed_follows {e : Exn} (hl : φ.Leased pk)
    (hcalm : e.connError = false → ShardCalm maint φ) :
    (upgradeFailed t c side e).Follows (protocol maint) φ fun φ' _ => φ'.Leased pk := by
  rw [upgradeFailed]
  cases hc : e.connError with
  | true => exact hl
  | false =>
    rw [if_neg Bool.false_ne_true]
    refine (failure_stays (hcalm hc) e _ _ c).mono fun φ' _ hφ' => ?_
    rwa [hφ']

/-- A step of `_upgrade` that does not leave the phase. -/
theorem upgradeStep_follows {x : Prog α} {k : α → Prog Result} {seen : Seen}
    (hw : seen.works maint)
    (hx : x.Follows (protocol maint) (.leased pk seen) fun φ' _ => φ' = .leased pk seen)
    (hk : ∀ a, (k a).Follows (protocol maint) (.leased pk seen) fun φ' _ => φ'.Leased pk) :
    (guarded (upgradeFailed t c side) x k).Follows (protocol maint) (.leased pk seen)
      fun φ' _ => φ'.Leased pk :=
  follows_guarded_of_stays hx hk (fun _ => ⟨_, rfl⟩) fun _ =>
    upgradeFailed_follows ⟨_, rfl⟩ fun _ => (calm_leased hw).shardCalm

private theorem upgradeMissing_follows (hs : t.status ∈ upgradableStatuses ∨ t.status = .maintenance) :
    (upgradeMissing pk t c).Follows (protocol maint) (.leased pk (.read t.status))
      fun φ' _ => φ'.Leased pk := by
  by_cases hm : t.status = .maintenance
  · simp only [upgradeMissing, if_pos hm]
    exact ⟨_, rfl⟩
  have hw : (Seen.read t.status).works maint := fun h => absurd h hm
  have hwf : (Seen.read Status.failed).works maint := nofun
  simp only [upgradeMissing, if_neg hm]
  refine follows_guarded ((fencedCas_follows (.schemaMissing (hs.resolve_right hm))).mono
    fun φ' r hr => ?_)
  match r with
  | .ok true =>
    obtain rfl : φ' = .leased pk (.read .failed) := hr
    exact upgradeStep_follows hwf (forget_stays (calm_leased hwf) pk) fun _ => ⟨_, rfl⟩
  | .ok false =>
    obtain rfl : φ' = .leased pk (.read t.status) := hr
    exact upgradeStep_follows hw (casLost_stays (calm_leased hw) pk c) fun _ => ⟨_, rfl⟩
  | .error e =>
    rw [onOutcome_error] at hr
    have hl : φ'.Leased pk := by
      rw [hr]
      split <;> exact ⟨_, rfl⟩
    refine ⟨fun _ => hl, fun _ => upgradeFailed_follows hl fun hc => ?_⟩
    rw [hr, if_neg (by rw [hc]; exact Bool.false_ne_true)]
    exact (calm_leased hw).shardCalm

private theorem upgradeRun_follows {plan : Plan} {seen : Seen} (hw : seen.works maint) :
    (upgradeRun pk t opts c plan).Follows (protocol maint) (.leased pk seen)
      fun φ' _ => φ'.Leased pk := by
  have hcalm := (calm_leased (k := pk) hw).shardCalm
  have hreq := (hcalm t.shard.dbAlias).2
  refine upgradeStep_follows hw ?_ fun _ => ?_
  · exact follows_bind_of_stays (hreq (.openShard pk) rfl).follows
      (fun _ => (hreq (.runMigrations _ t.schemaName) rfl).follows) fun _ => rfl
  · split
    · exact upgradeStep_follows hw (pendingPlan_stays hcalm t) fun _ => ⟨_, rfl⟩
    · exact ⟨_, rfl⟩

private theorem upgrade_follows (hs : t.status ∈ upgradableStatuses ∨ t.status = .maintenance)
    (hw : (Seen.read t.status).works maint) :
    (upgrade pk t opts c).Follows (protocol maint) (.leased pk (.read t.status))
      fun φ' _ => φ'.Leased pk := by
  refine upgradeStep_follows hw (pendingPlan_stays (calm_leased hw).shardCalm t) fun plan => ?_
  match plan with
  | none => exact upgradeMissing_follows hs
  | some plan =>
    dsimp only
    split
    · exact ⟨_, rfl⟩
    · exact upgradeRun_follows hw

end Upgrade

/-! ### `migrate_tenant` -/

section Migrate

variable {pk : Pk} {t : Tenant} {c : Target} {opts : RunOptions}

private theorem leasedBody_follows (hm : opts.maintenance = true → maint = true) :
    (leasedBody pk opts c).Follows (protocol maint) (.leased pk .unread)
      fun φ' _ => φ'.Leased pk := by
  refine follows_guarded ⟨⟨rfl, rfl⟩, fun r => ?_⟩
  rcases r with e | _ | t
  · refine ⟨fun _ => ⟨_, rfl⟩, fun _ => ?_⟩
    split <;> exact ⟨_, rfl⟩
  · exact ⟨_, rfl⟩
  · simp only [Program.follows_done, onOutcome_ok]
    change Follows (protocol maint) _ (Phase.leased pk (.read t.status)) _
    cases hg : gate t opts c with
    | some res => exact ⟨_, rfl⟩
    | none =>
      have hwork : (Seen.read t.status).works maint := by
        intro h
        refine hm ?_
        by_contra hno
        simp [gate, h, hno] at hg
      change Follows (protocol maint) (if _ then _ else _) _ _
      split
      · rename_i hp
        exact provision_follows hp
      · split
        · rename_i hu
          refine upgrade_follows ?_ hwork
          simp only [upgradable, Bool.or_eq_true, decide_eq_true_eq, Bool.and_eq_true] at hu
          exact hu.imp_right And.left
        · exact ⟨_, rfl⟩

private theorem leasedExit_follows {seen : Seen} {a : Alias} (finished : Bool) :
    (leasedExit pk a finished).Follows (protocol maint) (.leased pk seen)
      fun φ' _ => φ'.isIdle = true := by
  refine ⟨trivial, fun r => ?_⟩
  cases r with
  | error e => rfl
  | ok idle =>
    refine ⟨trivial, fun r' => ?_⟩
    cases r' with
    | error e => rfl
    | ok _ =>
      change Follows (protocol maint) (if (finished || idle) = true then _ else _)
        (Phase.leased pk seen) _
      split
      · refine follows_guarded ⟨rfl, fun r'' => ?_⟩
        cases r'' with
        | error e => exact ⟨fun _ => rfl, fun _ => rfl⟩
        | ok _ => rfl
      · rfl

private theorem underLease_follows (hm : opts.maintenance = true → maint = true) :
    (underLease pk opts c).Follows (protocol maint) (.leased pk .unread)
      fun φ' _ => φ'.isIdle = true := by
  rw [underLease, follows_bind, follows_attempt]
  refine (leasedBody_follows hm).mono fun φ' r hφ' => ?_
  obtain ⟨seen, rfl⟩ := hφ'
  rw [onOutcome_ok, follows_bind]
  refine (leasedExit_follows _).mono fun φ'' r' hφ'' => ?_
  cases r' <;> exact hφ''

/-- `lease_acquire` returns nothing only with the lease. -/
theorem leaseAcquire_follows {k : Pk} {a : Alias} :
    (leaseAcquire k a).Follows (protocol maint) .out fun φ' =>
      onOutcome (fun held => φ'.isIdle = true ∧ (held = none → φ' = .leased k .unread))
        fun _ => φ'.isIdle = true := by
  rw [leaseAcquire, follows_bind]
  refine follows_guarded ⟨trivial, fun r => ?_⟩
  match r with
  | .error e =>
    refine ⟨fun _ => rfl, fun _ => ?_⟩
    split <;> rfl
  | .ok (some busy) =>
    refine ⟨trivial, fun r' => ?_⟩
    match r' with
    | .error e => rfl
    | .ok h => exact ⟨rfl, nofun⟩
  | .ok none =>
    refine ⟨rfl, fun r' => ?_⟩
    match r' with
    | .error e => rfl
    | .ok true => exact ⟨rfl, fun _ => rfl⟩
    | .ok false =>
      refine ⟨trivial, fun r'' => ?_⟩
      match r'' with
      | .error e => rfl
      | .ok h => exact ⟨rfl, nofun⟩

private theorem withLease_follows (hm : opts.maintenance = true → maint = true) :
    (withLease pk opts c).Follows (protocol maint) .out fun φ' _ => φ'.isIdle = true := by
  refine follows_guarded (leaseAcquire_follows.mono fun φ' r hr => ?_)
  match r with
  | .error e =>
    refine ⟨fun _ => hr, fun _ => ?_⟩
    split
    · exact hr
    · split <;> exact hr
  | .ok (some msg) => exact hr.1
  | .ok none =>
    obtain rfl : φ' = .leased pk .unread := hr.2 rfl
    exact underLease_follows hm

private theorem noopShortcut_stays :
    (noopShortcut t opts c).Follows (protocol maint) .out fun φ' _ => φ' = .out := by
  rw [noopShortcut]
  split
  · refine follows_guarded_of_stays (pendingPlan_stays calm_out.shardCalm t) (fun plan => ?_)
      (fun _ => rfl) fun e => ?_
    · split <;> rfl
    · split
      · rfl
      · exact follows_bind_of_stays (failure_stays calm_out.shardCalm e _ _ c) (fun _ => rfl)
          fun _ => rfl
  · rfl

private theorem migrateTenant_follows (hm : opts.maintenance = true → maint = true) :
    (migrateTenant pk opts).Follows (protocol maint) .out fun φ' _ => φ'.isIdle = true := by
  refine follows_guarded ⟨trivial, fun r => ?_⟩
  match r with
  | .error e =>
    refine ⟨fun _ => rfl, fun _ => ?_⟩
    split <;> rfl
  | .ok none => rfl
  | .ok (some t) =>
    change Follows (protocol maint) (migrateLoaded pk opts t) Phase.out _
    rw [migrateLoaded]
    dsimp only
    split
    · rfl
    · split
      · rfl
      · refine follows_bind_of_stays noopShortcut_stays (fun res => ?_) fun _ => rfl
        cases res with
        | some res => rfl
        | none => exact withLease_follows hm

end Migrate

/-! ### The other programs -/

/-- `check_reactivation` outside of a transaction. -/
theorem checkReactivation_stays (h : Calm maint φ) (t : Tenant) :
    (checkReactivation t).Follows (protocol maint) φ fun φ' _ => φ' = φ := by
  refine follows_guarded_of_stays (codeOlderThanDb_stays h) (fun older => ?_) (fun _ => rfl)
    fun e => ?_
  · cases older with
    | true => rfl
    | false =>
      refine follows_guarded_of_stays (pendingPlan_stays h.shardCalm t) (fun plan => ?_)
        (fun _ => rfl) fun e => ?_
      · match plan with
        | none => rfl
        | some [] => rfl
        | some (_ :: _) => rfl
      · split <;> rfl
  · split <;> rfl

/-- The `UPDATE` of a console transition follows the protocol and leaves no transaction open. -/
theorem transitionUpdate_follows {pk : Pk} {t : Tenant} {source dest : Status}
    (h : ConsoleMove source dest) :
    (transitionUpdate pk t source dest).Follows (protocol maint) .out
      fun φ' _ => φ'.isIdle = true := by
  refine ⟨h, fun r => ?_⟩
  match r with
  | .error e => rfl
  | .ok false => rfl
  | .ok true =>
    change Follows (protocol maint) (forget pk >>= fun _ => _) Phase.out _
    refine follows_bind_of_stays (forget_stays calm_out pk) (fun _ => ?_) fun _ => rfl
    refine ⟨trivial, fun r' => ?_⟩
    cases r' <;> rfl

/-- A console transition follows the protocol and leaves no transaction open. -/
theorem transition_follows {pk : Pk} {source dest : Status} {stopper : Bool}
    (h : ConsoleMove source dest) :
    (transition pk source dest stopper).Follows (protocol maint) .out
      fun φ' _ => φ'.isIdle = true := by
  refine ⟨trivial, fun r => ?_⟩
  match r with
  | .error e => rfl
  | .ok none => rfl
  | .ok (some t) =>
    change Follows (protocol maint) (if _ then _ else if _ then _ else if _ then _ else _)
      Phase.out _
    split
    · rfl
    · split
      · rfl
      · split
        · refine follows_bind_of_stays (checkReactivation_stays calm_out t) (fun b => ?_)
            fun _ => rfl
          cases b with
          | some b => rfl
          | none => exact transitionUpdate_follows h
        · exact transitionUpdate_follows h

/-! #### The admin -/

/-- Phases from which the admin's transaction may be committed as it stands. -/
def Phase.Committable (φ : Phase) : Prop := φ = .tx ∨ φ = .lost ∨ ∃ pk move, φ = .written pk move

/-- Phases of an open transaction. -/
def Phase.Open (φ : Phase) : Prop :=
  φ.Committable ∨ φ = .doomed ∨ (∃ k, φ = .inserted k) ∨ ∃ k, φ = .free k

/-- An open transaction may be rolled back. -/
theorem Phase.Open.permits_rollback (h : φ.Open) : φ.permits maint .rollback := by
  rcases h with (rfl | rfl | ⟨pk, move, rfl⟩) | rfl | ⟨k, rfl⟩ | ⟨k, rfl⟩
  · trivial
  · exact .inr rfl
  · exact .inr (.inl rfl)
  · rfl
  · exact .inr rfl
  · exact .inl rfl

/-- A transaction that was rolled back leaves a bystander. -/
theorem Phase.Open.next_rollback (h : φ.Open) (r : Except Exn Unit) :
    φ.next .rollback r = .bystander := by
  rcases h with (rfl | rfl | ⟨pk, move, rfl⟩) | rfl | ⟨k, rfl⟩ | ⟨k, rfl⟩ <;> rfl

/-- A transaction that stands may be committed. -/
theorem Phase.Committable.permits_commit (h : φ.Committable) : φ.permits maint .commit := by
  rcases h with rfl | rfl | ⟨pk, move, rfl⟩
  · trivial
  · exact .inl rfl
  · exact .inl rfl

/-- A transaction that was committed leaves a bystander. -/
theorem Phase.Committable.next_commit (h : φ.Committable) (r : Except Exn Unit) :
    φ.next .commit r = .bystander := by
  rcases h with rfl | rfl | ⟨pk, move, rfl⟩ <;> rfl

/-- After a commit only invalidations follow. -/
theorem commit_follows {f : Unit → Prog β} (h : φ.Committable)
    (hf : ∀ a, (f a).Follows (protocol maint) .bystander fun φ' _ => φ'.isIdle = true) :
    (call .commit >>= f).Follows (protocol maint) φ fun φ' _ => φ'.isIdle = true := by
  rw [follows_bind]
  refine ⟨h.permits_commit, fun r => ?_⟩
  rw [protocol_next, h.next_commit r]
  cases r with
  | error e => rfl
  | ok a => exact hf a

/-- Rolling back an open transaction follows the protocol, if what follows it does. -/
theorem rollback_follows {f : Unit → Prog β} (h : φ.Open)
    (hf : ∀ a, (f a).Follows (protocol maint) .bystander fun φ' _ => φ'.isIdle = true) :
    (call .rollback >>= f).Follows (protocol maint) φ fun φ' _ => φ'.isIdle = true := by
  rw [follows_bind]
  refine ⟨h.permits_rollback, fun r => ?_⟩
  rw [protocol_next, h.next_rollback r]
  cases r with
  | error e => rfl
  | ok a => exact hf a

private theorem serializerUpdate_follows {pk : Pk} {ch : World.Changes} :
    (serializerUpdate pk ch).Follows (protocol maint) .out fun φ' _ => φ'.isIdle = true := by
  have hdoomed : Phase.doomed.Open := .inr (.inl rfl)
  have hwritten : (Phase.written pk none).Committable := .inr (.inr ⟨_, _, rfl⟩)
  refine ⟨trivial, fun r => ?_⟩
  match r with
  | .error e => rfl
  | .ok none => rfl
  | .ok (some t) =>
    change Follows (protocol maint) (if _ then _ else _) Phase.out _
    split
    · rfl
    refine ⟨trivial, fun r' => ?_⟩
    match r' with
    | .error e => rfl
    | .ok _ =>
      refine ⟨trivial, fun r'' => ?_⟩
      match r'' with
      | .error e => exact rollback_follows hdoomed fun _ => rfl
      | .ok false => exact rollback_follows hdoomed fun _ => rfl
      | .ok true =>
        exact commit_follows hwritten fun _ =>
          (forget_stays calm_bystander pk).mono fun φ' _ hφ' => hφ' ▸ rfl

/-- What `check_reactivation` leaves a transaction with: a lost connection blocks. -/
theorem checkReactivation_tx (t : Tenant) :
    (checkReactivation t).Follows (protocol maint) .tx fun φ' =>
      onOutcome (fun b => φ' = .tx ∨ (φ' = .lost ∧ b ≠ none)) fun _ => φ'.Open := by
  have htx : Phase.tx.Open := .inl (.inl rfl)
  have hlost : Phase.lost.Open := .inl (.inr (.inl rfl))
  refine follows_guarded ⟨trivial, fun r => ?_⟩
  match r with
  | .error e =>
    refine ⟨fun _ => hlost, fun _ => ?_⟩
    split
    · exact .inr ⟨rfl, nofun⟩
    · exact hlost
  | .ok true => exact .inl rfl
  | .ok false =>
    refine follows_guarded_of_stays (pendingPlan_stays shardCalm_tx t) (fun plan => ?_)
      (fun _ => htx) fun e => ?_
    · match plan with
      | none => exact .inl rfl
      | some [] => exact .inl rfl
      | some (_ :: _) => exact .inl rfl
    · split
      · exact .inl rfl
      · exact htx

/-- What a check of the form leaves a transaction with. -/
def FormOutcome (φ : Phase) : Except Exn (Option FormError) → Prop :=
  onOutcome (fun refused => φ = .tx ∨ (φ = .lost ∧ refused ≠ none)) fun _ => φ.Open

private theorem cleanMaintenance_tx (pk : Pk) (t : Tenant) :
    (cleanMaintenance pk t).Follows (protocol maint) .tx FormOutcome := by
  have htx : Phase.tx.Open := .inl (.inl rfl)
  refine ⟨trivial, fun r => ?_⟩
  match r with
  | .error e => exact .inr (.inl rfl)
  | .ok none => exact .inl rfl
  | .ok (some h) =>
    change Follows (protocol maint) (if _ then _ else _) Phase.tx _
    split
    · refine ⟨trivial, fun r' => ?_⟩
      cases r' with
      | error e => exact htx
      | ok busy => exact .inl rfl
    · exact .inl rfl

private theorem cleanTarget_tx (pk : Pk) (t : Tenant) (old dest : Status) :
    (cleanTarget pk t old dest).Follows (protocol maint) .tx FormOutcome := by
  rw [cleanTarget]
  split
  · rw [follows_bind]
    refine (checkReactivation_tx t).mono fun φ' r hr => ?_
    match r with
    | .error e => exact hr
    | .ok b =>
      refine hr.imp_right fun h => ⟨h.1, ?_⟩
      intro hnone
      exact h.2 (Option.map_eq_none_iff.mp hnone)
  · split
    · exact cleanMaintenance_tx pk t
    · exact .inl rfl

private theorem cleanChange_tx (sub : Submission) (t : Tenant) (old dest : Status) :
    (cleanChange sub t old dest).Follows (protocol maint) .tx FormOutcome := by
  rw [cleanChange]
  split
  · exact .inl rfl
  · rw [follows_bind]
    refine (cleanTarget_tx sub.pk t old dest).mono fun φ' r hr => ?_
    match r with
    | .error e => exact hr
    | .ok (some e) => exact hr.imp_right fun h => ⟨h.1, nofun⟩
    | .ok none => exact .inl (hr.resolve_right fun h => h.2 rfl)

private theorem clean_tx (sub : Submission) (t : Tenant) :
    (clean sub t).Follows (protocol maint) .tx FormOutcome := by
  rw [clean]
  split
  · exact .inl rfl
  · split
    · exact .inl rfl
    · exact cleanChange_tx sub t _ _

private theorem refuseIfMigrating_tx (pk : Pk) (t : Tenant) (dest : Status) :
    (refuseIfMigrating pk t dest).Follows (protocol maint) .tx fun φ' => onOutcome
      (fun _ => φ' = if dest = .maintenance then .free pk else .tx) fun _ => φ'.Open := by
  have hdoomed : Phase.doomed.Open := .inr (.inl rfl)
  rw [refuseIfMigrating]
  split
  · refine ⟨trivial, fun r => ?_⟩
    match r with
    | .error e => exact hdoomed
    | .ok _ =>
      refine ⟨.inl rfl, fun r' => ?_⟩
      match r' with
      | .error e => exact hdoomed
      | .ok (some h) => exact hdoomed
      | .ok none => rfl
  · rfl

private theorem saveStatus_tx (pk : Pk) (t : Tenant) {old dest : Status} (h : dest ∈ statusTransitions old) :
    (saveStatus pk t old dest).Follows (protocol maint) .tx fun φ' => onOutcome
      (fun _ => φ' = .tx ∨ ∃ move, φ' = .written pk move) fun _ => φ'.Open := by
  have hdoomed : Phase.doomed.Open := .inr (.inl rfl)
  rw [saveStatus]
  split
  · rename_i hne
    rw [follows_bind]
    refine (refuseIfMigrating_tx pk t dest).mono fun φ' r hr => ?_
    match r with
    | .error e => exact hr
    | .ok _ =>
      have hupdate : ∀ φ' : Phase, φ'.permits maint (.adminUpdate pk old dest) →
          (∀ r, φ'.next (.adminUpdate pk old dest) r = Phase.freeNext (.adminUpdate pk old dest) r) →
          Follows (protocol maint) (do
            let updated : Bool ← call (.adminUpdate pk old dest)
            if updated then Pure.pure 1 else Program.raise (statusMoved t old)) φ' fun φ' =>
              onOutcome (fun _ : Nat => φ' = .tx ∨ ∃ move, φ' = .written pk move)
                fun _ => φ'.Open := by
        intro φ' hp hn
        rw [follows_bind]
        refine ⟨hp, fun r => ?_⟩
        rw [protocol_next, hn r]
        match r with
        | .error e => exact hdoomed
        | .ok true => exact .inr ⟨_, rfl⟩
        | .ok false => exact hdoomed
      rw [onOutcome_ok] at hr
      by_cases hm : dest = .maintenance
      · subst hm
        rw [if_pos rfl] at hr
        subst hr
        exact hupdate _ (.inr ⟨old, rfl, h, hne⟩) fun _ => rfl
      · rw [if_neg hm] at hr
        subst hr
        exact hupdate _ ⟨⟨h, hne⟩, hm⟩ fun r => by cases r <;> rfl
  · exact .inl rfl

private theorem saveOther_follows (pk : Pk) (ch : World.Changes)
    (hφ : φ = .tx ∨ ∃ move, φ = .written pk move) :
    (saveOther pk ch).Follows (protocol maint) φ fun φ' => onOutcome
      (fun _ => ∃ move, φ' = .written pk move) fun _ => φ'.Open := by
  have hdoomed : Phase.doomed.Open := .inr (.inl rfl)
  rcases hφ with rfl | ⟨move, rfl⟩
  · refine ⟨trivial, fun r => ?_⟩
    match r with
    | .error e => exact hdoomed
    | .ok true => exact ⟨_, rfl⟩
    | .ok false => exact hdoomed
  · refine ⟨.inr (.inr ⟨ch, rfl⟩), fun r => ?_⟩
    match r with
    | .error e => exact hdoomed
    | .ok true => exact ⟨_, rfl⟩
    | .ok false => exact hdoomed

private theorem saveModel_tx (sub : Submission) (t : Tenant) {old dest : Status}
    (h : dest ∈ statusTransitions old) :
    (saveModel sub t old dest).Follows (protocol maint) .tx fun φ' => onOutcome
      (fun _ => φ'.Committable) fun _ => φ'.Open := by
  rw [saveModel, follows_bind]
  refine (saveStatus_tx sub.pk t h).mono fun φ' r hr => ?_
  match r with
  | .error e => exact hr
  | .ok n =>
    rw [onOutcome_ok] at hr ⊢
    split
    · exact hr.imp_right fun ⟨move, hw⟩ => .inr ⟨_, move, hw⟩
    · rw [follows_bind]
      refine (saveOther_follows sub.pk sub.changes hr).mono fun φ'' r' hr' => ?_
      match r' with
      | .error e => exact hr'
      | .ok _ =>
        obtain ⟨move, hw⟩ := hr'
        exact .inr (.inr ⟨_, move, hw⟩)

/-- An offered status is a transition of the old one. -/
theorem Submission.newStatus_mem {sub : Submission} {old dest : Status}
    (h : sub.newStatus old = some dest) : dest ∈ statusTransitions old := by
  rw [Submission.newStatus] at h
  split at h
  · rename_i hold
    obtain rfl := Option.some.inj h
    rcases hold with rfl | rfl <;> decide
  · exact of_decide_eq_true (Option.filter_eq_some_iff.mp h).2

private theorem adminBody_tx (sub : Submission) :
    (adminBody sub).Follows (protocol maint) .tx fun φ' => onOutcome
      (fun _ => φ'.Committable) fun _ => φ'.Open := by
  refine ⟨trivial, fun r => ?_⟩
  match r with
  | .error e => exact .inr (.inl rfl)
  | .ok none => exact .inl rfl
  | .ok (some t) =>
    change Follows (protocol maint) (clean sub t >>= _) Phase.tx _
    rw [follows_bind]
    refine (clean_tx sub t).mono fun φ' r' hr' => ?_
    match r' with
    | .error e => exact hr'
    | .ok (some e) => exact hr'.imp_right fun h => .inl h.1
    | .ok none =>
      obtain rfl : φ' = .tx := hr'.resolve_right fun h => h.2 rfl
      change Follows (protocol maint) (if sub.fieldErrors = true then _ else _) Phase.tx _
      split
      · exact .inl rfl
      · cases hnew : sub.newStatus (sub.oldStatus t) with
        | none => exact .inl rfl
        | some dest =>
          change Follows (protocol maint) (saveModel sub t _ dest >>= _) Phase.tx _
          rw [follows_bind]
          refine (saveModel_tx sub t (Submission.newStatus_mem hnew)).mono fun φ'' r'' hr'' => ?_
          cases r'' <;> exact hr''

private theorem forgetTimes_stays (h : Calm maint φ) (pk : Pk) (n : Nat) :
    (forgetTimes pk n).Follows (protocol maint) φ fun φ' _ => φ' = φ := by
  induction n with
  | zero => rfl
  | succ n ih => exact follows_bind_of_stays (forget_stays h pk) (fun _ => ih) fun _ => rfl

private theorem adminChange_follows (sub : Submission) :
    (adminChange sub).Follows (protocol maint) .out fun φ' _ => φ'.isIdle = true := by
  refine ⟨trivial, fun r => ?_⟩
  match r with
  | .error e => rfl
  | .ok _ =>
    change Follows (protocol maint) ((adminBody sub).attempt >>= _) Phase.tx _
    rw [follows_bind, follows_attempt]
    refine (adminBody_tx sub).mono fun φ' r' hr' => ?_
    match r' with
    | .ok (outcome, forgets) =>
      refine commit_follows hr' fun _ => ?_
      exact follows_bind_of_stays (forgetTimes_stays calm_bystander sub.pk forgets)
        (fun _ => rfl) fun _ => rfl
    | .error e =>
      refine rollback_follows hr' fun _ => ?_
      split <;> rfl

/-! #### `migration_lease --release` -/

/-- A process that has looked at a lease only looks on, or releases it. -/
theorem sessionActive_bystander (a : Alias) (k : Pk) :
    (shardSessionActive a k).Follows (protocol maint) .bystander fun φ' _ => φ' = .bystander :=
  ⟨trivial, fun _ => rfl⟩

private theorem firstSession_stays (k : Pk) (aliases : List Alias) :
    (firstSession k aliases).Follows (protocol maint) .bystander fun φ' _ => φ' = .bystander := by
  induction aliases with
  | nil => rfl
  | cons a rest ih =>
    refine follows_bind_of_stays (sessionActive_bystander a k) (fun b => ?_) fun _ => rfl
    cases b with
    | some b => rfl
    | none => exact ih

private theorem releaseUnlessForced_stays (k : Pk) (label : String) (aliases : List Alias) (force : Bool)
    (h : LeaseHolder) :
    (releaseUnlessForced k label aliases force h).Follows (protocol maint) .bystander
      fun φ' _ => φ' = .bystander := by
  rw [releaseUnlessForced]
  split
  · rfl
  · have hfirst : (catching (firstSession k aliases) fun e =>
        if e.connError then
          Program.raise (raised .commandError ("Cannot check " ++ ", ".intercalate aliases ++
            s!" for an active tm:{k} backend ({e.text}). Not released. Use --force only if the " ++
            "owner is certainly dead and no backend is left."))
        else Program.raise e).Follows (protocol maint) .bystander fun φ' _ => φ' = .bystander := by
      refine follows_guarded_of_stays (firstSession_stays k aliases) (fun _ => rfl)
        (fun _ => rfl) fun e => ?_
      split <;> rfl
    refine follows_bind_of_stays hfirst (fun s => ?_) fun _ => rfl
    match s with
    | some (a, b) => rfl
    | none =>
      dsimp only
      split <;> rfl

private theorem releaseCommand_follows (k : Pk) (label : String) (aliases : List Alias) (force : Bool) :
    (releaseCommand k label aliases force).Follows (protocol maint) .out
      fun φ' _ => φ'.isIdle = true := by
  refine ⟨trivial, fun r => ?_⟩
  match r with
  | .error e => rfl
  | .ok none => rfl
  | .ok (some h) =>
    change Follows (protocol maint) (releaseUnlessForced k label aliases force h >>= _)
      Phase.bystander _
    refine follows_bind_of_stays (releaseUnlessForced_stays k label aliases force h) (fun _ => ?_)
      fun _ => rfl
    refine ⟨trivial, fun r' => ?_⟩
    match r' with
    | .error e => rfl
    | .ok true => rfl
    | .ok false =>
      refine ⟨trivial, fun r'' => ?_⟩
      match r'' with
      | .error e => rfl
      | .ok cur => rfl

/-! ### The system -/

/-- Every program of the system keeps to the protocol. -/
theorem system_follows : AllFollow (protocol maint) (fun _ : Pid => Starts maint) := by
  intro p prog h
  cases h with
  | migrate pk opts hm => exact (migrateTenant_follows hm).void
  | activate pk => exact (transition_follows .activate).void
  | deactivate pk => exact (transition_follows .deactivate).void
  | adminChange sub => exact (adminChange_follows sub).void
  | serializerUpdate pk ch => exact serializerUpdate_follows
  | releaseCommand k label aliases force =>
    exact (releaseCommand_follows k label aliases force).void

end MtShards.Migrator
