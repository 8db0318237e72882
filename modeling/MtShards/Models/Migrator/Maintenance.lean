import Mathlib.Logic.Relation
import MtShards.Models.Migrator.Inventory
import MtShards.Models.Migrator.StatusMachine

/-!
# MAINTENANCE and the migrator

A tenant enters MAINTENANCE in a transaction that holds the lock of its lease row and has
found no live holder in it. A run that takes the lease afterwards re-reads the tenant under
the lease and sees MAINTENANCE. The admin locks the lease row before the tenant row, the
migrator never holds a row lock while it waits for another, so nobody waits in a circle.
-/

namespace MtShards.Migrator

open MtShards.Core

variable {maint : Bool} {φ : Phase} {k pk : Pk} {p q : Pid} {t : SysTrace} {s s' : World}
  {l : SysLabel} {a b x : Status}

/-! ### A live lease and the status it was taken on -/

/-- A leaseholder whose lease is live after a step had a live lease before it. -/
theorem live_before {seen : Seen} (hm : Move machine (protocol maint) t s l s')
    (hp : phaseAt (protocol maint) p t = .leased k seen) (h : s'.Live p k) : s.Live p k := by
  obtain ⟨held, hrow, howner, huntil⟩ := h
  have hnow : s.now ≤ s'.now := acts_now_le hm.acts
  cases acts_leaseChange k hm.acts with
  | kept hkept => exact ⟨held, hkept.symm.trans hrow, howner, by omega⟩
  | taken q r hlabel _ _ hnew =>
    obtain rfl := Option.some.inj (Option.some.inj (hnew.symm.trans hrow))
    obtain rfl : q = p := howner
    subst hlabel
    have hpermits : (Phase.leased k seen).permits maint (.leaseUpsert k) := hp ▸ hm.permits
    exact Bool.noConfusion hpermits.1
  | released q o _ _ _ hnew => exact absurd (hnew.symm.trans hrow) nofun
  | inserted q y _ _ _ hnew => exact absurd (hnew.symm.trans hrow) nofun

/-- The written move to MAINTENANCE of an open transaction leaves no live lease. -/
theorem PhaseOk.not_live (h : PhaseOk q s φ) (hφ : φ = .written k (some (a, .maintenance))) :
    ¬ s.Live p k := by
  subst hφ
  rintro ⟨held, hrow, _, huntil⟩
  obtain ⟨tx, row, hwritten⟩ := h
  have hdead : held.untilAt < tx.start := (hwritten.maintenance a rfl).2 held hrow
  have hstart : tx.start ≤ s.now := hwritten.start
  omega

/-- Nobody but the admin takes a tenant into MAINTENANCE. -/
theorem StatusStep.admin_of_maintenance (h : StatusStep maint t k s l a .maintenance)
    (hne : a ≠ .maintenance) : ∃ q r, l = .answer q .commit r ∧
      phaseAt (protocol maint) q t = .written k (some (a, .maintenance)) := by
  cases h with
  | kept hsame => exact absurd hsame hne
  | fenced p expected w r seen _ _ hallowed _ hto _ =>
    rw [← hto] at hallowed
    cases hallowed
  | console p r _ hmove => cases hmove
  | admin p r hlabel hphase _ => exact ⟨p, r, hlabel, hphase⟩

/-- A leaseholder with a live lease on a tenant in MAINTENANCE has seen no other status. -/
def MaintenanceSeen (maint : Bool) (t : SysTrace) (s : World) : Prop :=
  ∀ p k x, phaseAt (protocol maint) p t = .leased k (.read x) → s.Live p k →
    s.status k = some .maintenance → x = .maintenance

private theorem maintenanceSeen_of_move (hm : Move machine (protocol maint) t s l s')
    (hphase : ∀ p, PhaseOk p s (phaseAt (protocol maint) p t))
    (hinv : MaintenanceSeen maint t s) : MaintenanceSeen maint (⟨l, s, s'⟩ :: t) s' := by
  intro p k x hp hlive hstatus
  rcases seen_of_move hm hp with ⟨⟨seen, hseen⟩, htells⟩ | ⟨hbefore, _⟩
  · exact (status_of_tells hm (idle_of_leased (hphase p) hseen) htells hstatus).symm
  · have hlive' : s.Live p k := live_before hm hbefore hlive
    obtain ⟨a, ha, hstep⟩ := statusStep_of_move hm hphase hstatus
    by_cases hne : a = .maintenance
    · subst hne
      exact hinv p k x hbefore hlive' ha
    · obtain ⟨q, r, _, hwritten⟩ := hstep.admin_of_maintenance hne
      exact absurd hlive' ((hphase q).not_live hwritten)

private theorem maintenanceSeen_of_run {s₀ : World} {c : SysConfig} (h : PlainRun s₀ t c) :
    MaintenanceSeen false t c.shared := by
  have hboth : (∀ p, PhaseOk p c.shared (phaseAt (protocol false) p t)) ∧
      MaintenanceSeen false t c.shared := by
    refine Run.invariant system_follows (fun t s =>
      (∀ p, PhaseOk p s (phaseAt (protocol false) p t)) ∧ MaintenanceSeen false t s) ?_ ?_ h.2
    · refine ⟨fun p => h.1.idle p, ?_⟩
      intro p k x hp
      cases hp
    · intro t s l s' hinv hm
      exact ⟨phaseOk_of_move hinv.1 hm, maintenanceSeen_of_move hm hinv.1 hinv.2⟩
  exact hboth.2

/-- No status write starts from MAINTENANCE. -/
theorem not_casAllowed_maintenance (expected : List Status) (dest : Status) :
    ¬ CasAllowed .maintenance expected dest := by
  intro h
  cases h with
  | claim hmem => simp [provisionable] at hmem
  | provisionFailed hx => rcases hx with hx | hx <;> cases hx
  | schemaMissing hmem => simp [upgradableStatuses] at hmem

/-- The requests of a run that re-reads its tenant, or leaves. -/
def Leaves (k : Pk) : Req → Prop
  | .load pk => pk = k
  | .shardIdle _ | .closeShard _ => True
  | .leaseRelease k' => k' = k
  | _ => False

/-- A leaseholder that has seen nothing but MAINTENANCE only re-reads the tenant, or leaves. -/
theorem Phase.leaves_of_permits {seen : Seen} {op : Req}
    (hseen : ∀ x, seen = .read x → x = .maintenance)
    (hp : (Phase.leased k seen).permits false op) : Leaves k op := by
  have hidle : ¬ seen.works false := by
    cases seen with
    | read x =>
      intro hworks
      exact Bool.noConfusion (hworks (hseen x rfl))
    | unread => exact id
    | unknown => exact id
  cases op with
  | load pk => exact hp.1
  | shardIdle a => trivial
  | closeShard a => trivial
  | leaseRelease k' => exact hp
  | fencedCas pk expected w =>
    obtain ⟨rfl, x, hx, hallowed⟩ := hp
    obtain rfl := hseen x hx
    exact absurd hallowed (not_casAllowed_maintenance _ _)
  | _ => exact hidle hp.2

/-- While a tenant is in MAINTENANCE, a run that holds an unexpired lease on it only re-reads
it, or leaves: it issues no request of `_provision` or `_upgrade`. -/
def NoWorkUnderMaintenance (t : SysTrace) : Prop :=
  ∀ later e earlier, t = later ++ e :: earlier → ∀ p k seen op,
    phaseAt (protocol false) p earlier = .leased k seen →
    ((∃ r, e.label = .answer p op r) ∨ e.label = .inner p op) → e.pre.Live p k →
    e.pre.status k = some .maintenance → Leaves k op

private theorem noWork_of_run {s₀ : World} {c : SysConfig} (h : PlainRun s₀ t c) :
    NoWorkUnderMaintenance t := by
  rintro later e earlier rfl p k seen op hp hl hlive hstatus
  obtain ⟨c₁, c₂, hrun, hstep, hpre, _⟩ := h.2.split
  rw [hpre] at hlive hstatus
  have hseen := maintenanceSeen_of_run ⟨h.1, hrun⟩
  have hpermits : (phaseAt (protocol false) p earlier).permits false op := by
    have hmove := hrun.move system_follows hstep
    rcases hl with ⟨r, hl⟩ | hl
    · rw [hl] at hmove
      exact hmove.permits
    · rw [hl] at hmove
      cases hmove with
      | inner hpermits _ => exact hpermits
  rw [hp] at hpermits
  refine Phase.leaves_of_permits ?_ hpermits
  rintro x rfl
  exact hseen p k x hp hlive hstatus

/-- MAINTENANCE is committed only while nobody holds an unexpired lease on the tenant. -/
def EntersUnclaimed (t : SysTrace) : Prop :=
  ∀ later e earlier, t = later ++ e :: earlier → ∀ k, e.pre.status k ≠ some .maintenance →
    e.post.status k = some .maintenance → ∀ p, ¬ e.pre.Live p k

private theorem entersUnclaimed_of_run {s₀ : World} {c : SysConfig} (h : PlainRun s₀ t c) :
    EntersUnclaimed t := by
  rintro later e earlier rfl k hbefore hafter p hlive
  obtain ⟨c₁, c₂, hrun, hstep, hpre, hpost⟩ := h.2.split
  rw [hpre] at hbefore hlive
  rw [hpost] at hafter
  have hphase : ∀ p, PhaseOk p c₁.shared (phaseAt (protocol false) p earlier) :=
    Run.phaseOk system_follows h.1 hrun
  obtain ⟨a, ha, hmove⟩ := statusStep_of_move (hrun.move system_follows hstep) hphase hafter
  obtain ⟨q, r, _, hwritten⟩ := hmove.admin_of_maintenance (by
    rintro rfl
    exact hbefore ha)
  exact (hphase q).not_live hwritten hlive

/-! ### Row locks -/

/-- Whoever is waited for holds a row lock. -/
theorem Req.lock_of_waitsFor {op : Req} (h : op.waitsFor p s = some q) :
    (∃ k, s.leaseLock k = some q) ∨ ∃ pk, s.tenantLock pk = some q := by
  have hfilter : ∀ o : Option Pid, o.filter (· ≠ p) = some q → o = some q :=
    fun o ho => (Option.filter_eq_some_iff.mp ho).1
  cases op with
  | leaseUpsert k => exact .inl ⟨k, hfilter _ h⟩
  | leaseRelease k =>
    rw [Req.waitsFor] at h
    split at h
    · exact .inl ⟨k, hfilter _ h⟩
    · cases h
  | leaseForceRelease k o =>
    rw [Req.waitsFor] at h
    split at h
    · exact .inl ⟨k, hfilter _ h⟩
    · cases h
  | insertLease k =>
    rw [Req.waitsFor] at h
    split at h
    · exact .inl ⟨k, hfilter _ h⟩
    · cases h
  | lockLease k =>
    rw [Req.waitsFor] at h
    split at h
    · cases h
    · exact .inl ⟨k, hfilter _ h⟩
  | fencedCas pk expected w =>
    rw [Req.waitsFor] at h
    split at h
    · exact .inr ⟨pk, hfilter _ h⟩
    · cases h
  | consoleUpdate pk source dest =>
    rw [Req.waitsFor] at h
    split at h
    · exact .inr ⟨pk, hfilter _ h⟩
    · cases h
  | adminUpdate pk old dest =>
    rw [Req.waitsFor] at h
    split at h
    · exact .inr ⟨pk, hfilter _ h⟩
    · cases h
  | saveTenant pk c stamp => exact .inr ⟨pk, hfilter _ h⟩
  | _ => cases h

theorem filter_own (p : Pid) : (some p : Option Pid).filter (· ≠ p) = none := by simp

/-- A transaction that has written a tenant row waits for nobody. -/
theorem WrittenTx.waitsFor_none {tx : Tx} {row : Tenant} {move : Option (Status × Status)}
    {op : Req} (h : WrittenTx p pk move s tx row) (hp : (Phase.written pk move).permits maint op) :
    op.waitsFor p s = none := by
  rcases hp with rfl | rfl | ⟨c, rfl⟩
  · rfl
  · rfl
  · rw [Req.waitsFor, h.tenantLock]
    exact filter_own p

/-- The holder of a tenant row waits for nobody. -/
theorem waitsFor_none_of_tenantLock {op : Req} (h : PhaseOk p s φ) (hp : φ.permits maint op)
    (hlock : s.tenantLock pk = some p) : op.waitsFor p s = none := by
  have hidle : ¬ Idle p s := fun hidle => hidle.tenantLock pk hlock
  cases φ with
  | out => exact absurd h hidle
  | checked k a => exact absurd h hidle
  | leased k seen => exact absurd h hidle
  | bystander => exact absurd h hidle
  | tx =>
    obtain ⟨tx, htx⟩ := h
    exact absurd hlock (htx.tenantLock pk)
  | lost =>
    rcases h with h | ⟨tx, htx⟩
    · exact absurd h hidle
    · exact absurd hlock (htx.tenantLock pk)
  | inserted k =>
    obtain ⟨tx, htx⟩ := h
    exact absurd hlock (htx.tenantLock pk)
  | free k =>
    obtain ⟨tx, htx⟩ := h
    exact absurd hlock (htx.tenantLock pk)
  | written pk' move =>
    obtain ⟨tx, row, htx⟩ := h
    exact htx.waitsFor_none hp
  | doomed =>
    obtain rfl : op = .rollback := hp
    rfl

/-- The holder of a lease row waits for nobody but the holder of a tenant row. -/
theorem waitsFor_of_leaseLock {op : Req} (h : PhaseOk p s φ) (hp : φ.permits maint op)
    (hlock : s.leaseLock k = some p) (hw : op.waitsFor p s = some q) :
    ∃ pk, s.tenantLock pk = some q := by
  have hidle : ¬ Idle p s := fun hidle => hidle.leaseLock k hlock
  cases φ with
  | out => exact absurd h hidle
  | checked k a => exact absurd h hidle
  | leased k seen => exact absurd h hidle
  | bystander => exact absurd h hidle
  | tx =>
    obtain ⟨tx, htx⟩ := h
    exact absurd hlock (htx.leaseLock k)
  | lost =>
    rcases h with h | ⟨tx, htx⟩
    · exact absurd h hidle
    · exact absurd hlock (htx.leaseLock k)
  | inserted k' =>
    obtain ⟨tx, htx⟩ := h
    rcases hp with rfl | rfl
    · rcases htx.row with ⟨_, hown, _⟩ | ⟨_, hnone, _⟩
      · rw [Req.waitsFor, hown, filter_own, ite_self] at hw
        cases hw
      · exact absurd hlock (hnone k)
    · cases hw
  | free k' =>
    rcases hp with rfl | ⟨old, rfl, _⟩
    · cases hw
    · rw [Req.waitsFor] at hw
      split at hw
      · exact ⟨k', (Option.filter_eq_some_iff.mp hw).1⟩
      · cases hw
  | written pk move =>
    obtain ⟨tx, row, htx⟩ := h
    rw [htx.waitsFor_none hp] at hw
    cases hw
  | doomed =>
    obtain rfl : op = .rollback := hp
    cases hw

/-- The outstanding request of `p` waits for a row lock that `q` holds. -/
def WaitsOn (c : SysConfig) (p q : Pid) : Prop :=
  ∃ op k, c.proc p = some (.call op k) ∧ op.waitsFor p c.shared = some q

/-- Nobody waits, through others, for itself. -/
def NoDeadlock (c : SysConfig) : Prop := ∀ p, ¬ Relation.TransGen (WaitsOn c) p p

private theorem noDeadlock_of_run {s₀ : World} {c : SysConfig} (h : PlainRun s₀ t c) : NoDeadlock c := by
  have hphase : ∀ p, PhaseOk p c.shared (phaseAt (protocol false) p t) :=
    Run.phaseOk system_follows h.1 h.2
  -- A tenant row is locked last, so its holder cannot be part of a circle.
  have htenant : ∀ p q pk, c.shared.tenantLock pk = some p → ¬ WaitsOn c p q := by
    rintro p q pk hlock ⟨op, k, hcall, hw⟩
    have hnone := waitsFor_none_of_tenantLock (hphase p) (h.2.permits_call system_follows hcall)
      hlock
    rw [hnone] at hw
    cases hw
  intro p hcircle
  obtain ⟨q, hpq, hqp⟩ := Relation.TransGen.head'_iff.mp hcircle
  obtain ⟨r, _, hrp⟩ := Relation.TransGen.tail'_iff.mp hcircle
  obtain ⟨y, hqy⟩ : ∃ y, WaitsOn c q y := by
    rcases hqp.cases_head with rfl | ⟨y, hqy, _⟩
    · exact ⟨q, hpq⟩
    · exact ⟨y, hqy⟩
  obtain ⟨_, _, _, hw⟩ := hrp
  rcases Req.lock_of_waitsFor hw with ⟨k, hlease⟩ | ⟨pk, hlock⟩
  · obtain ⟨op, f, hcall, hwq⟩ := hpq
    obtain ⟨pk, hlock⟩ := waitsFor_of_leaseLock (hphase p)
      (h.2.permits_call system_follows hcall) hlease hwq
    exact htenant q y pk hlock hqy
  · exact htenant p q pk hlock hpq

/-! ### What the two programs answer -/

/-- How far the refusal of a change to MAINTENANCE has got. -/
inductive Refusal
  | free
  /-- The lock on the lease row has found a live holder. -/
  | found (h : LeaseHolder)
  /-- The transaction is rolled back. -/
  | undone (h : LeaseHolder)
  /-- The rollback has raised. -/
  | broken
  deriving DecidableEq, Repr

/-- After a live holder was found, only the rollback may follow. -/
def refusal : Protocol Req Req.Ans Exn Refusal where
  init := .free
  permits
    | .free, _ => True
    | .found _, op => op = .rollback
    | _, _ => False
  next
    | .free, .lockLease _, .ok (some h) => .found h
    | .found h, .rollback, .ok _ => .undone h
    | .found _, .rollback, .error _ => .broken
    | φ, _, _ => φ
  mayStop _ := True
  mayStop_init := trivial

/-- What the change view answers after a refusal: the text of the `StatusConflict`, or the
error of the rollback. -/
def RefusalAnswer : Refusal → Except Exn AdminOutcome → Prop
  | .free, _ => True
  | .found _, _ => False
  | .undone h, r => ∃ t, r = .ok (.conflict (startedMigrating t h).text)
  | .broken, r => ∃ e, r = .error e

/-- A change whose lock finds a live holder is rolled back and answered with a conflict. -/
def RefusesLive (sub : Submission) : Prop :=
  (adminChange sub).Follows refusal .free RefusalAnswer

section Refusal

variable {α : Type} {x : Prog α}

theorem refusal_free {op : Req} {r : Except Exn op.Ans} (h : ∀ k, op ≠ .lockLease k) :
    refusal.next .free op r = .free := by
  cases op with
  | lockLease k => exact absurd rfl (h k)
  | _ => rfl

/-- A program that locks no lease row is not refused. -/
theorem only_free (hx : x.Only fun op => ∀ k, op ≠ .lockLease k) :
    x.Follows refusal .free fun φ _ => φ = .free :=
  hx.follows fun _ hop => ⟨trivial, fun _ => refusal_free hop⟩

private theorem looks_free (hx : x.Only Req.looks) :
    x.Follows refusal .free fun φ _ => φ = .free := by
  refine only_free (hx.mono fun op hop => ?_)
  rintro k rfl
  exact hop

/-- The body of the change view ends with the conflict if a live holder was found. -/
def RefusalOutcome {α : Type} (φ : Refusal) (r : Except Exn α) : Prop :=
  φ = .free ∨ ∃ t h, φ = .found h ∧ r = .error (startedMigrating t h)

private theorem refuseIfMigrating_refusal (pk : Pk) (t : Tenant) (dest : Status) :
    (refuseIfMigrating pk t dest).Follows refusal .free RefusalOutcome := by
  rw [refuseIfMigrating]
  split
  · refine ⟨trivial, fun r => ?_⟩
    cases r with
    | error e => exact .inl rfl
    | ok _ =>
      refine ⟨trivial, fun r' => ?_⟩
      rcases r' with e | _ | h
      · exact .inl rfl
      · exact .inl rfl
      · exact .inr ⟨t, h, rfl, rfl⟩
  · exact .inl rfl

/-- A sequence ends with the conflict of its first part, or goes on without one. -/
theorem refusal_bind {β : Type} {f : α → Prog β}
    (hx : x.Follows refusal .free RefusalOutcome)
    (hf : ∀ a, (f a).Follows refusal .free RefusalOutcome) :
    (x >>= f).Follows refusal .free RefusalOutcome := by
  rw [Program.follows_bind]
  refine hx.mono fun φ r hr => ?_
  rcases hr with rfl | ⟨t, h, rfl, rfl⟩
  · cases r with
    | ok a => exact hf a
    | error e => exact .inl rfl
  · exact .inr ⟨t, h, rfl, rfl⟩

theorem refusal_call {op : Req} (h : ∀ k, op ≠ .lockLease k) :
    (call op).Follows refusal .free RefusalOutcome :=
  ⟨trivial, fun _ => .inl (refusal_free h)⟩

private theorem saveModel_refusal (sub : Submission) (t : Tenant) (old dest : Status) :
    (saveModel sub t old dest).Follows refusal .free RefusalOutcome := by
  refine refusal_bind ?_ fun forgets => ?_
  · rw [saveStatus]
    split
    · refine refusal_bind (refuseIfMigrating_refusal _ _ _) fun _ => ?_
      refine refusal_bind (refusal_call fun k h => by cases h) fun updated => ?_
      split <;> exact .inl rfl
    · exact .inl rfl
  · split
    · exact .inl rfl
    · refine refusal_bind ?_ fun _ => .inl rfl
      refine refusal_bind (refusal_call fun k h => by cases h) fun found => ?_
      split <;> exact .inl rfl

private theorem adminBody_refusal (sub : Submission) :
    (adminBody sub).Follows refusal .free RefusalOutcome := by
  refine refusal_bind (refusal_call nofun) fun row => ?_
  cases row with
  | none => exact .inl rfl
  | some t =>
    refine refusal_bind ((looks_free (clean_looks sub t)).mono fun _ _ => .inl) fun e => ?_
    cases e with
    | some e => exact .inl rfl
    | none =>
      dsimp only
      split
      · exact .inl rfl
      · split
        · exact .inl rfl
        · exact refusal_bind (saveModel_refusal sub t _ _) fun _ => .inl rfl

private theorem adminChange_refuses (sub : Submission) : RefusesLive sub := by
  refine ⟨trivial, fun r => ?_⟩
  cases r with
  | error e => trivial
  | ok _ =>
    change Program.Follows refusal ((adminBody sub).attempt >>= _) Refusal.free _
    rw [Program.follows_bind, Program.follows_attempt]
    refine (adminBody_refusal sub).mono fun φ r hr => ?_
    rcases hr with rfl | ⟨t, h, rfl, rfl⟩
    · refine (only_free ?_).mono fun φ r hφ => hφ ▸ trivial
      cases r with
      | ok outcome =>
        refine Program.Only.bind ⟨nofun, fun _ => trivial⟩ fun _ => ?_
        exact (forgetTimes_only nofun _).bind fun _ => trivial
      | error e =>
        refine Program.Only.bind ⟨nofun, fun _ => trivial⟩ fun _ => ?_
        split <;> trivial
    · refine ⟨rfl, fun r' => ?_⟩
      cases r' with
      | error e => exact ⟨e, rfl⟩
      | ok _ => exact ⟨t, rfl⟩

end Refusal

/-- How far a run has got towards skipping a tenant in MAINTENANCE. -/
inductive Skip
  | out
  | leased
  /-- The tenant was re-read under the lease, in MAINTENANCE. -/
  | skipping
  /-- Anything else was read. -/
  | other
  deriving DecidableEq, Repr

/-- After MAINTENANCE was read under the lease, only the clean-up may follow. -/
def skip : Protocol Req Req.Ans Exn Skip where
  init := .out
  permits
    | .skipping, .shardIdle _ | .skipping, .closeShard _ | .skipping, .leaseRelease _ => True
    | .skipping, _ => False
    | _, _ => True
  next
    | .out, .leaseUpsert _, .ok true => .leased
    | .leased, .load _, .ok (some t) => if t.status = .maintenance then .skipping else .other
    | .leased, .load _, _ => .other
    | φ, _, _ => φ
  mayStop _ := True
  mayStop_init := trivial

/-- What a run reports that has skipped: `skipped`, with the reason `status_maintenance`. -/
def SkipAnswer (φ : Skip) (r : Except Exn Result) : Prop :=
  φ = .skipping → ∀ res, r = .ok res → res.kind = .skipped ∧ res.reason = .statusMaintenance

/-- A run without `--maintenance` that reads MAINTENANCE under its lease does nothing more to
the tenant and reports that it has skipped it. -/
def SkipsMaintenance (pk : Pk) (opts : RunOptions) : Prop :=
  (migrateTenant pk opts).Follows skip .out SkipAnswer

section Skip

variable {α β : Type} {opts : RunOptions} {c : Target}

theorem skip_other (x : Prog α) : x.Follows skip .other fun φ _ => φ = .other :=
  (Program.only_true x).follows fun op _ => ⟨trivial, fun r => by cases op <;> rfl⟩

private theorem looks_out {x : Prog α} (hx : x.Only Req.looks) :
    x.Follows skip .out fun φ _ => φ = .out := by
  refine hx.follows fun op hop => ⟨trivial, fun r => ?_⟩
  cases op with
  | leaseUpsert k => exact hop.elim
  | _ => rfl

/-- What a run has got to when it has re-read the tenant. -/
def SkipOutcome (φ : Skip) (r : Except Exn Result) : Prop :=
  φ = .other ∨ (φ = .skipping ∧ SkipAnswer φ r)

private theorem leasedBody_skips (hm : opts.maintenance = false) :
    (leasedBody pk opts c).Follows skip .leased SkipOutcome := by
  have hother : ∀ x : Prog Result, x.Follows skip .other SkipOutcome :=
    fun x => (skip_other x).mono fun _ _ => .inl
  refine follows_guarded ⟨trivial, fun r => ?_⟩
  rcases r with e | _ | t
  · refine ⟨fun _ => .inl rfl, fun _ => ?_⟩
    split <;> exact .inl rfl
  · exact .inl rfl
  · simp only [Program.follows_done, Program.onOutcome_ok]
    change Program.Follows skip _ (if t.status = .maintenance then Skip.skipping else .other) _
    by_cases ht : t.status = .maintenance
    · rw [if_pos ht]
      have hgate : gate t opts c = some (c.result .skipped .statusMaintenance
          "status_maintenance: migrate explicitly with -s <schema> --maintenance") := by
        rw [gate, ht, hm]
        rfl
      rw [hgate]
      refine .inr ⟨rfl, fun _ res hres => ?_⟩
      obtain rfl := Except.ok.inj hres
      exact ⟨rfl, rfl⟩
    · rw [if_neg ht]
      exact hother _

private theorem leasedExit_skips {a : Alias} (finished : Bool) :
    (leasedExit pk a finished).Follows skip .skipping fun φ _ => φ = .skipping := by
  refine ⟨trivial, fun r => ?_⟩
  cases r with
  | error e => rfl
  | ok idle =>
    refine ⟨trivial, fun r' => ?_⟩
    cases r' with
    | error e => rfl
    | ok _ =>
      change Program.Follows skip (if (finished || idle) = true then _ else _) Skip.skipping _
      split
      · refine follows_guarded ⟨trivial, fun r'' => ?_⟩
        cases r'' with
        | error e => exact ⟨fun _ => rfl, fun _ => rfl⟩
        | ok _ => rfl
      · rfl

private theorem underLease_skips (hm : opts.maintenance = false) :
    (underLease pk opts c).Follows skip .leased SkipAnswer := by
  rw [underLease, Program.follows_bind, Program.follows_attempt]
  refine (leasedBody_skips hm).mono fun φ r hr => ?_
  rcases hr with rfl | ⟨rfl, hanswer⟩
  · refine (skip_other _).mono fun φ r hφ hskip => ?_
    rw [hφ] at hskip
    cases hskip
  · rw [Program.onOutcome_ok, Program.follows_bind]
    refine (leasedExit_skips _).mono fun φ r' hφ => ?_
    subst hφ
    cases r' with
    | ok _ => exact hanswer
    | error e =>
      intro _ res hres
      cases hres

/-- `lease_acquire` looks, and holds the lease if it answers that it does. -/
theorem leaseAcquire_skips {a : Alias} :
    (leaseAcquire k a).Follows skip .out fun φ => Program.onOutcome
      (fun held => φ ≠ .skipping ∧ (held = none → φ = .leased)) fun _ => φ ≠ .skipping := by
  have hout : Skip.out ≠ .skipping := by decide
  have hleased : Skip.leased ≠ .skipping := by decide
  have hbusy : ∀ msg : String, some msg = none → Skip.out = .leased := by
    intro msg h
    cases h
  rw [leaseAcquire, Program.follows_bind]
  refine follows_guarded ⟨trivial, fun r => ?_⟩
  rcases r with e | _ | busy
  · refine ⟨fun _ => hout, fun _ => ?_⟩
    split <;> exact hout
  · refine ⟨trivial, fun r' => ?_⟩
    rcases r' with e | _ | _
    · exact hout
    · refine ⟨trivial, fun r'' => ?_⟩
      cases r'' with
      | error e => exact hout
      | ok h => exact ⟨hout, hbusy _⟩
    · exact ⟨hleased, fun _ => rfl⟩
  · refine ⟨trivial, fun r' => ?_⟩
    cases r' with
    | error e => exact hout
    | ok h => exact ⟨hout, hbusy _⟩

private theorem migrateTenant_skips (pk : Pk) (hm : opts.maintenance = false) :
    SkipsMaintenance pk opts := by
  have hout : Skip.out ≠ .skipping := by decide
  refine follows_guarded ⟨trivial, fun r => ?_⟩
  rcases r with e | _ | t
  · refine ⟨fun _ h => absurd h hout, fun _ => ?_⟩
    split <;> exact fun h => absurd h hout
  · exact fun h => absurd h hout
  · change Program.Follows skip (migrateLoaded pk opts t) Skip.out _
    rw [migrateLoaded]
    dsimp only
    split
    · exact fun h => absurd h hout
    · split
      · exact fun h => absurd h hout
      · rw [Program.follows_bind]
        refine (looks_out (noopShortcut_looks t opts _)).mono fun φ r hφ => ?_
        subst hφ
        rcases r with e | _ | res
        · exact fun h => absurd h hout
        · refine follows_guarded (leaseAcquire_skips.mono fun φ r hr => ?_)
          rcases r with e | _ | msg
          · refine ⟨fun _ h => absurd h hr, fun _ => ?_⟩
            split
            · exact fun h => absurd h hr
            · split <;> exact fun h => absurd h hr
          · obtain rfl : φ = .leased := hr.2 rfl
            exact underLease_skips hm
          · exact fun h => absurd h hr.1
        · exact fun h => absurd h hout

end Skip

/-! ### MAINTENANCE entry -/

/-- The lock of a transition finds every unexpired lease. -/
def LockFindsLive (t : SysTrace) : Prop :=
  ∀ later e earlier, t = later ++ e :: earlier → ∀ q k holder,
    e.label = .answer q (.lockLease k) (.ok holder) → ∀ p, e.pre.Live p k →
      ∃ h, holder = some h ∧ h.owner = p

theorem Phase.of_permits_lockLease (h : φ.permits maint (.lockLease k)) : φ = .inserted k := by
  cases φ with
  | inserted k' =>
    rcases h with h | h
    · cases h
      rfl
    · cases h
  | out => exact Bool.noConfusion h
  | checked k a => cases h
  | leased k seen => exact Bool.noConfusion h.1
  | bystander => exact Bool.noConfusion h
  | tx => exact h.elim
  | lost => rcases h with h | h <;> cases h
  | free k' => rcases h with h | ⟨old, h, _⟩ <;> cases h
  | written pk move => rcases h with h | h | ⟨c, h⟩ <;> cases h
  | doomed => cases h

private theorem lockFindsLive_of_run {s₀ : World} {c : SysConfig} (h : PlainRun s₀ t c) :
    LockFindsLive t := by
  rintro later e earlier rfl q k holder hlabel p hlive
  obtain ⟨c₁, c₂, hrun, hstep, hpre, _⟩ := h.2.split
  rw [hlabel] at hstep
  have hmove := hrun.move system_follows hstep
  have hphase : PhaseOk q c₁.shared (phaseAt (protocol false) q earlier) :=
    Run.phaseOk system_follows h.1 hrun q
  rw [Phase.of_permits_lockLease hmove.permits] at hphase
  rw [hpre] at hlive
  obtain ⟨held, hrow, howner, huntil⟩ := hlive
  obtain ⟨tx, htx⟩ := hphase
  have hstart : tx.start ≤ c₁.shared.now := htx.start
  have hread : c₁.shared.leaseRow q k = some (some held) := by
    rcases htx.row with ⟨_, _, hnone⟩ | ⟨hins, _, _⟩
    · rw [hnone] at hrow
      cases hrow
    · rw [World.leaseRow_of_tx htx.tx hins]
      exact hrow
  have hans : holder = c₁.shared.liveHolder q k := hmove.acts.1
  have hclock : c₁.shared.clock q = tx.start := by rw [World.clock, htx.tx]
  have hlive : ¬ held.untilAt < tx.start := by omega
  refine ⟨⟨held.owner, held.since, held.untilAt, false⟩, ?_, howner⟩
  rw [hans, World.liveHolder, World.leaseHolder, hread, hclock]
  simp [hlive]

/-- MAINTENANCE against the runs without `--maintenance`. -/
theorem maintenance_excludes_migration {s₀ : World} {c : SysConfig} (h : PlainRun s₀ t c) :
    NoWorkUnderMaintenance t ∧ EntersUnclaimed t ∧ LockFindsLive t ∧ (∀ sub, RefusesLive sub) ∧
      (∀ pk opts, opts.maintenance = false → SkipsMaintenance pk opts) ∧ NoDeadlock c :=
  ⟨noWork_of_run h, entersUnclaimed_of_run h, lockFindsLive_of_run h, adminChange_refuses,
    fun pk _ hm => migrateTenant_skips pk hm, noDeadlock_of_run h⟩

/-- The change form of a tenant in service, posted with MAINTENANCE. -/
def toMaintenance : Submission :=
  ⟨1, some Status.active.value, some Status.maintenance.value, false, ⟨none, none, none, none⟩,
    false⟩

/-- The options of a run with `--fake`. -/
def fakeOptions : RunOptions := { RunOptions.defaults with fake := true }

/-- The tenant once it is in MAINTENANCE. -/
def acmeMaintenance : Tenant := World.adminRow 0 .active .maintenance acmeActive

private theorem eq_of_single {b b' : Backend} {n i : Nat}
    (h : Function.update (fun _ => none) n (some b) i = some b') : b' = b := by
  rw [Function.update_apply] at h
  split at h
  · exact (Option.some.inj h).symm
  · cases h

/-- A migrator has read the tenant before the admin moves it to MAINTENANCE, and takes the lease
afterwards: it reads the tenant again, and leaves. -/
theorem overtaken_run : ∃ later e earlier c, PlainRun (oneTenant acmeActive)
    (later ++ e :: earlier) c ∧ e.pre.status 1 = some .active ∧
      e.post.status 1 = some .maintenance ∧ (∃ acq ∈ later, Acquires "app-1:4312" 1 acq) ∧
      c.proc "app-1:4312" = some (.done (.ok ())) ∧ ¬ c.shared.Live "app-1:4312" 1 := by
  have r0 : Run machine (fun _ => Starts false) (.idle (oneTenant acmeActive)) []
    (.idle (oneTenant acmeActive)) := .nil
  have r1 := r0.start "app-1:4312" (.migrate 1 fakeOptions nofun) rfl
  have r2 := r1.answer "app-1:4312" (.load 1) (.ok (some acmeActive)) ⟨rfl, rfl, rfl⟩ rfl
  have r3 := r2.start "web-1:10" (.adminChange toMaintenance) rfl
  have r4 := r3.answer "web-1:10" .begin (.ok ()) ⟨trivial, rfl, rfl⟩ rfl
  have r5 := r4.answer "web-1:10" (.load 1) (.ok (some acmeActive)) ⟨rfl, rfl, rfl⟩ rfl
  have r6 := r5.answer "web-1:10" (.leaseHolder 1) (.ok none) ⟨rfl, rfl, rfl⟩ rfl
  have r7 := r6.answer "web-1:10" (.insertLease 1) (.ok ()) ⟨trivial, rfl, rfl⟩ rfl
  have r8 := r7.answer "web-1:10" (.lockLease 1) (.ok none) ⟨rfl, rfl, rfl⟩ rfl
  have r9 := r8.answer "web-1:10" (.adminUpdate 1 .active .maintenance) (.ok true)
    ⟨rfl, rfl, rfl⟩ rfl
  have r10 := r9.answer "web-1:10" .commit (.ok ()) ⟨trivial, rfl, rfl⟩ rfl
  have r11 := r10.answer "app-1:4312" (.shard "shard1" (.sessionActive 1)) (.ok none)
    ⟨⟨nofun, by rintro ⟨i, b, h, _⟩; cases h⟩, .idle, nofun, .inr ⟨nofun, 0, rfl, rfl⟩⟩ rfl
  have r12 := r11.answer "app-1:4312" (.leaseUpsert 1) (.ok true) ⟨rfl, rfl, rfl⟩ rfl
  have r13 := r12.answer "app-1:4312" (.load 1) (.ok (some acmeMaintenance)) ⟨rfl, rfl, rfl⟩ rfl
  have r14 := r13.answer "app-1:4312" (.shardIdle "shard1") (.ok true)
    ⟨⟨fun _ i b hb _ => by rw [eq_of_single hb]; exact nofun, fun _ => rfl⟩, rfl, rfl⟩ rfl
  have r15 := r14.answer "app-1:4312" (.closeShard "shard1") (.ok ()) ⟨trivial, rfl, rfl⟩ rfl
  have r16 := r15.answer "app-1:4312" (.leaseRelease 1) (.ok true) ⟨rfl, rfl, rfl⟩ rfl
  refine ⟨[_, _, _, _, _, _], _, _, _, ⟨oneTenant_quiet acmeActive, r16⟩, rfl, rfl, ?_, rfl, ?_⟩
  · refine ⟨_, .tail _ (.tail _ (.tail _ (.tail _ (.head _)))), ⟨_, rfl⟩, fun hkept => ?_⟩
    cases hkept
  · rintro ⟨held, hrow, _, _⟩
    cases hrow

/-- The tenant enters MAINTENANCE, and the migrator that takes the lease then does nothing to
it. -/
theorem maintenance_entered : ∃ later e earlier c,
    PlainRun (oneTenant acmeActive) (later ++ e :: earlier) c ∧
      e.pre.status 1 = some .active ∧ e.post.status 1 = some .maintenance ∧
      (∃ acq ∈ later, Acquires "app-1:4312" 1 acq) ∧
      c.proc "app-1:4312" = some (.done (.ok ())) ∧ ¬ c.shared.Live "app-1:4312" 1 ∧
      NoWorkUnderMaintenance (later ++ e :: earlier) ∧ EntersUnclaimed (later ++ e :: earlier) ∧
      SkipsMaintenance 1 fakeOptions ∧ NoDeadlock c := by
  obtain ⟨later, e, earlier, c, hplain, hbefore, hafter, hacquires, hdone, hfree⟩ := overtaken_run
  obtain ⟨hwork, henters, _, _, hskips, hdeadlock⟩ := maintenance_excludes_migration hplain
  exact ⟨later, e, earlier, c, hplain, hbefore, hafter, hacquires, hdone, hfree, hwork, henters,
    hskips 1 fakeOptions rfl, hdeadlock⟩

end MtShards.Migrator
