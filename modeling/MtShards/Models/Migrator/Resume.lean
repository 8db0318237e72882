import MtShards.Models.Migrator.Convergence
import MtShards.Models.Migrator.Sessions

/-!
# A tenant is taken up again, from wherever a run was cut off

`migrate_tenant` around the provisioning and the upgrade: the shortcut, the lease, the re-read
and the clean-up. However many runs were cut off before, by whatever processes, the tenant stands
where a run takes it up; a run that nothing hinders finishes it; and such a run is always
possible once the lease can be taken.
-/

namespace MtShards.Migrator

open MtShards.Core Program

section Runs

variable {env : Site → Site → Prop} {Inv : Site → Prop} {known : Plan} {p : Pid} {pk : Pk}
  {t row : Tenant} {opts : RunOptions} {c : Option Content} {F : Prop} {l : SiteLog} {s s' : Site}

/-- A tenant that can be taken up passes the gate. -/
theorem Resumable.gate (hres : Resumable t opts row c) (b : Target) : gate row opts b = none := by
  have hpass : row.status ≠ .failed ∧ (row.status = .maintenance → opts.maintenance = true) := by
    rcases hres.stage with ⟨hst, _⟩ | hst | ⟨hup, _⟩
    · rw [hst]
      exact ⟨Status.noConfusion, Status.noConfusion⟩
    · rw [hst]
      exact ⟨Status.noConfusion, Status.noConfusion⟩
    · rw [upgradable] at hup
      constructor <;> intro hst <;> rw [hst] at hup
      · cases hup
      · exact hup
  rw [Migrator.gate, if_neg hpass.1, if_neg]
  simp only [Bool.and_eq_true, decide_eq_true_eq, Bool.not_eq_true', not_and,
    Bool.not_eq_false]
  exact hpass.2

/-- An up-to-date tenant is up to date wherever it stands the same. -/
theorem UpToDate.at (hup : UpToDate known pk t s)
    (h : At Inv p pk t.shard.dbAlias t.schemaName row c s)
    (h' : At Inv p pk t.shard.dbAlias t.schemaName row c s') : UpToDate known pk t s' := by
  obtain ⟨u, x, hu, hsame, hst, hx, hcomplete⟩ := hup
  obtain rfl : row = u := Option.some.inj (h.row.symm.trans hu)
  exact ⟨row, x, h'.row, hsame, hst, by rw [h'.content, ← h.content, hx], hcomplete⟩

section Leased

variable (hb : Beside env Inv p pk t.shard.dbAlias t.schemaName) (hres : Resumable t opts row c)
include hb hres

/-- Step 4 up to its `finally`. -/
theorem leasedBody_ensures (ht : opts.targeted = false) {b : Target}
    (h : At Inv p pk t.shard.dbAlias t.schemaName row c s) (ho : s.world.leaseOwner pk = some p) :
    (leasedBody pk opts b).Ensures (cutSem env known p) (fun _ => Recoverable Inv p pk t opts) l s
      (Goal Inv known p pk t opts F) := by
  refine (load_observes hb hres).attempted hres (fun e he => ⟨_, if_pos he⟩) h
    fun l₁ s₁ found h₁ hsteady hfound => ?_
  subst hfound
  dsimp only
  rw [hres.gate]
  dsimp only
  split
  · rename_i hst
    exact provision_ensures hb ht hres hst h₁ (hsteady.leaseOwner ho)
  · rename_i hst
    have hup : upgradable row opts = true := by
      rcases hres.stage with ⟨hnew, _⟩ | hpending | ⟨hup, _⟩
      · exact absurd (by rw [hnew]; exact List.mem_cons_self) hst
      · exact absurd (by rw [hpending]; exact List.mem_cons_of_mem _ List.mem_cons_self) hst
      · exact hup
    rw [if_pos hup]
    exact upgrade_ensures hb ht hres hup h₁

/-- The clean-up of step 4 leaves the tenant where it stands. -/
theorem leasedExit_ensures (finished : Bool)
    (h : At Inv p pk t.shard.dbAlias t.schemaName row c s) :
    (leasedExit pk t.shard.dbAlias finished).Ensures (cutSem env known p)
      (fun _ => Recoverable Inv p pk t opts) l s fun l' s' r =>
        At Inv p pk t.shard.dbAlias t.schemaName row c s' ∧ (Hindered l → Hindered l') ∧
          onOutcome (fun _ => True) (fun _ => Hindered l') r := by
  have hidle : Observes env Inv known p pk t opts row c (fun _ _ => True)
      (shardIdle t.shard.dbAlias) :=
    observes_call hb hres (by exact trivial) fun _ _ _ _ _ _ => trivial
  refine ensures_bind.mpr ((hidle l s h).mono fun l₁ s₁ r₁ hr₁ => ?_)
  obtain ⟨h₁, _, hmono₁, hout₁⟩ := hr₁
  cases r₁ with
  | error e => exact ⟨h₁, hmono₁, hout₁.2⟩
  | ok idle =>
  refine ensures_bind.mpr ((closeShard_observes hb hres l₁ s₁ h₁).mono fun l₂ s₂ r₂ hr₂ => ?_)
  obtain ⟨h₂, _, hmono₂, hout₂⟩ := hr₂
  cases r₂ with
  | error e => exact ⟨h₂, hmono₂ ∘ hmono₁, hout₂.2⟩
  | ok _ =>
  rw [onOutcome_ok]
  split
  · refine ensures_guarded (ensures_bind.mpr fun r₃ s₃ hs₃ => ?_)
    have h₃ := h₂.release hb hs₃.1
    have hmono : Hindered l → Hindered (⟨_, r₃, s₂, s₃⟩ :: l₂) := fun hl => (hmono₂ (hmono₁ hl)).cons _
    refine ⟨⟨row, c, hres, h₃⟩, ?_⟩
    cases r₃ with
    | error e => exact ⟨fun _ => ⟨h₃, hmono, hindered_of_error⟩, fun _ => ⟨h₃, hmono, trivial⟩⟩
    | ok won => exact ⟨h₃, hmono, trivial⟩
  · exact ⟨h₂, hmono₂ ∘ hmono₁, trivial⟩

/-- Step 4. -/
theorem underLease_ensures (ht : opts.targeted = false) {b : Target} (hal : b.dbAlias = t.shard.dbAlias)
    (h : At Inv p pk t.shard.dbAlias t.schemaName row c s) (ho : s.world.leaseOwner pk = some p) :
    (underLease pk opts b).Ensures (cutSem env known p) (fun _ => Recoverable Inv p pk t opts) l s
      (Goal Inv known p pk t opts F) := by
  rw [underLease, hal]
  refine ensures_bind.mpr (ensures_attempt.mpr
    ((leasedBody_ensures (F := F) hb hres ht h ho).mono fun l₁ s₁ r₁ hr₁ => ?_))
  obtain ⟨⟨row', c', hres', h₁⟩, hgoal⟩ := hr₁
  refine ensures_bind.mpr ((leasedExit_ensures hb hres' _ h₁).mono fun l₂ s₂ r₂ hr₂ => ?_)
  obtain ⟨h₂, hmono, hout⟩ := hr₂
  have hrec : Recoverable Inv p pk t opts s₂ := ⟨row', c', hres', h₂⟩
  cases r₂ with
  | error e => exact ⟨hrec, fun _ => .inr hout⟩
  | ok _ =>
    refine ⟨hrec, fun hF => ?_⟩
    rcases hgoal hF with ⟨res, hres₁, hkind, hup⟩ | hhind
    · exact .inl ⟨res, hres₁, hkind, hup.at h₁ h₂⟩
    · exact .inr (hmono hhind)

/-- `lease_acquire` gets the lease when it is ready to be taken and nothing is in the way. -/
theorem leaseAcquire_ensures (h : At Inv p pk t.shard.dbAlias t.schemaName row c s)
    (hready : F → s.world.Ready p t.shard.dbAlias pk) :
    (leaseAcquire pk t.shard.dbAlias).Ensures (cutSem env known p)
      (fun _ => Recoverable Inv p pk t opts) l s fun l' s' r =>
        At Inv p pk t.shard.dbAlias t.schemaName row c s' ∧ onOutcome
          (fun held => (held = none → s'.world.leaseOwner pk = some p) ∧ (held ≠ none → ¬ F))
          (fun _ => Hindered l') r := by
  have hholder (l : SiteLog) (s : Site) (f : Option LeaseHolder → String)
      (h : At Inv p pk t.shard.dbAlias t.schemaName row c s) (hF : ¬ F) :
      (leaseHolder pk >>= fun x => Pure.pure (some (f x)) : Prog (Option String)).Ensures
        (cutSem env known p) (fun _ => Recoverable Inv p pk t opts) l s fun l' s' r =>
          At Inv p pk t.shard.dbAlias t.schemaName row c s' ∧ onOutcome
            (fun held => (held = none → s'.world.leaseOwner pk = some p) ∧ (held ≠ none → ¬ F))
            (fun _ => Hindered l') r := by
    refine ensures_bind.mpr fun r₁ s₁ hs₁ => ?_
    obtain ⟨h₁, _⟩ := h.still hb (by exact trivial) hs₁.1
    refine ⟨⟨row, c, hres, h₁⟩, ?_⟩
    cases r₁ with
    | error e => exact ⟨h₁, hindered_of_error⟩
    | ok x => exact ⟨h₁, (absurd · (Option.some_ne_none _)), fun _ => hF⟩
  refine ensures_bind.mpr (ensures_guarded fun r₁ s₁ hs₁ => ?_)
  obtain ⟨h₁, hsteady⟩ := h.still hb (by exact trivial) hs₁.1
  refine ⟨⟨row, c, hres, h₁⟩, ?_⟩
  cases r₁ with
  | error e =>
    refine ⟨fun _ => ⟨h₁, hindered_of_error⟩, fun _ => ?_⟩
    split <;> exact ⟨h₁, hindered_of_error⟩
  | ok busy =>
  cases busy with
  | some session =>
    refine hholder _ s₁ _ h₁ fun hF => ?_
    obtain ⟨m, hm, hexec, _⟩ := hs₁.1
    have hbusy : m.world.Busy p t.shard.dbAlias pk := hexec.1.mp rfl
    exact ((hb.apart s m hm).ready (hready hF)).noSession.not_busy hbusy
  | none =>
    refine ensures_bind.mpr fun r₂ s₂ hs₂ => ?_
    obtain ⟨h₂, hwon, hlost⟩ := h₁.upsert hb hs₂.1
    refine ⟨⟨row, c, hres, h₂⟩, ?_⟩
    cases r₂ with
    | error e => exact ⟨h₂, hindered_of_error⟩
    | ok won =>
    cases won with
    | true => exact ⟨h₂, fun _ => hwon rfl, fun hn => absurd rfl hn⟩
    | false => exact hholder _ s₂ _ h₂ fun hF => hlost (hsteady.ready (hready hF)) rfl

/-- Step 3. -/
theorem withLease_ensures (ht : opts.targeted = false) {b : Target}
    (hal : b.dbAlias = t.shard.dbAlias) (h : At Inv p pk t.shard.dbAlias t.schemaName row c s)
    (hready : F → s.world.Ready p t.shard.dbAlias pk) :
    (withLease pk opts b).Ensures (cutSem env known p) (fun _ => Recoverable Inv p pk t opts) l s
      (Goal Inv known p pk t opts F) := by
  rw [withLease, hal]
  refine ensures_guarded ((leaseAcquire_ensures hb hres h hready).mono fun l₁ s₁ r₁ hr₁ => ?_)
  obtain ⟨h₁, hout⟩ := hr₁
  cases r₁ with
  | error e =>
    have hgoal {r : Except Exn Result} : Goal Inv known p pk t opts F l₁ s₁ r :=
      goal_hindered hres h₁ hout
    refine ⟨fun _ => hgoal, fun _ => ?_⟩
    split
    · exact hgoal
    · split <;> exact hgoal
  | ok held =>
    obtain ⟨howner, hlost⟩ := hout
    cases held with
    | some msg => exact ⟨⟨row, c, hres, h₁⟩, fun hF => absurd hF (hlost (by exact Option.some_ne_none _))⟩
    | none => exact underLease_ensures hb hres ht hal h₁ (howner rfl)

/-- Step 2. -/
theorem noopShortcut_ensures (b : Target) (h : At Inv p pk t.shard.dbAlias t.schemaName row c s) :
    (noopShortcut row opts b).Ensures (cutSem env known p) (fun _ => Recoverable Inv p pk t opts)
      l s fun l' s' r => At Inv p pk t.shard.dbAlias t.schemaName row c s' ∧
        StaysReady p pk t.shard.dbAlias s s' ∧ onOutcome
          (fun o => ∀ res, o = some res → Goal Inv known p pk t opts F l' s' (.ok res))
          (fun _ => Hindered l') r := by
  rw [noopShortcut]
  split
  · rename_i hup
    rw [Bool.and_eq_true] at hup
    obtain ⟨hreached, x, rfl⟩ := hres.of_upgradable hup.1
    refine ensures_guarded ((pendingPlan_observes hb hres hres.same l s h).mono
      fun l₁ s₁ r₁ hr₁ => ?_)
    obtain ⟨h₁, hsteady, _, hout⟩ := hr₁
    cases r₁ with
    | error e =>
      obtain ⟨hcut, hhind⟩ := hout
      refine ⟨fun _ => ⟨h₁, hsteady, hhind⟩, fun hbase => ?_⟩
      have hconn : e.connError = true := hcut.resolve_right (by rw [hbase]; exact Bool.false_ne_true)
      rw [if_pos hconn]
      exact ⟨h₁, hsteady, fun res _ => goal_hindered hres h₁ hhind⟩
    | ok plan =>
      obtain rfl : plan = some (x.unapplied known) := hout
      rw [onOutcome_ok]
      split
      · rename_i hnil
        refine ⟨h₁, hsteady, fun res hsome => ?_⟩
        obtain rfl := Option.some.inj hsome
        exact goal_done hres h₁ (Content.unapplied_eq_nil_iff.mp (Option.some.inj hnil)) hreached
          (.inr rfl)
      · exact ⟨h₁, hsteady, fun res hsome => by cases hsome⟩
  · exact ⟨h, .refl p pk _ s, fun res hsome => by cases hsome⟩

/-- `migrate_tenant` of a tenant that can be taken up. -/
theorem migrateTenant_ensures (ht : opts.targeted = false) (hdef : t.shard.isDefault = false)
    (h : At Inv p pk t.shard.dbAlias t.schemaName row c s)
    (hready : F → s.world.Ready p t.shard.dbAlias pk) :
    (migrateTenant pk opts).Ensures (cutSem env known p) (fun _ => Recoverable Inv p pk t opts) l s
      (Goal Inv known p pk t opts F) := by
  refine (load_observes hb hres).attempted hres (fun e he => ⟨_, if_pos he⟩) h
    fun l₁ s₁ found h₁ hsteady₁ hfound => ?_
  subst hfound
  dsimp only
  rw [migrateLoaded, if_neg (by rw [hres.same.shard, hdef]; exact Bool.false_ne_true), hres.gate]
  refine ensures_bind.mpr ((noopShortcut_ensures (F := F) hb hres _ h₁).mono fun l₂ s₂ r₂ hr₂ => ?_)
  obtain ⟨h₂, hsteady₂, hout⟩ := hr₂
  cases r₂ with
  | error e => exact goal_hindered hres h₂ hout
  | ok o =>
  cases o with
  | some res => exact hout res rfl
  | none =>
    refine withLease_ensures hb hres ht (by rw [hres.same.shard]) h₂ fun hF => ?_
    exact hsteady₂.ready (hsteady₁.ready (hready hF))

/-! ### The lease after a run -/

/-- The lease has this owner, unless something has hindered the run. -/
def LeaseOf (pk : Pk) (o : Option Pid) (l : SiteLog) (s : Site) : Prop :=
  Hindered l ∨ s.world.leaseOwner pk = o

omit hres in
/-- The work under the lease leaves the lease as it is. -/
theorem lease_of_works {op : Req} {r : Except Exn op.Ans} {A : Alias → Prop} (hop : op.works pk A)
    (hs : siteSem env known p op s r s') : s'.world.lease pk = s.world.lease pk := by
  obtain ⟨m, hm, hexec, _⟩ := hs
  rw [← (hb.apart s m hm).lease]
  cases acts_leaseChange (l := .answer p op r) pk hexec with
  | kept hrow => exact hrow
  | taken q r' hlabel =>
    cases hlabel
    exact hop.elim
  | released q o hlabel =>
    rcases hlabel with ⟨_, r', hlabel⟩ | ⟨r', hlabel⟩
    · cases hlabel
      exact hop.elim
    · cases hlabel
      exact hop.elim
  | inserted q x hlabel =>
    obtain ⟨r', hlabel⟩ := hlabel
    cases hlabel
    exact hop.elim

omit hres in
/-- The release of a lease that is held, unless it fails. -/
theorem released_of_release {r : Except Exn Bool} (ho : s.world.leaseOwner pk = some p)
    (hs : siteSem env known p (.leaseRelease pk) s r s') :
    LeaseOf pk none (⟨.leaseRelease pk, r, s, s'⟩ :: l) s' := by
  cases r with
  | error e => exact .inl hindered_of_error
  | ok won =>
    obtain ⟨m, hm, ⟨_, _, hworld⟩, _⟩ := hs
    have hom : m.world.leaseOwner pk = some p := by
      rw [World.leaseOwner, (hb.apart s m hm).lease]
      exact ho
    refine .inr ?_
    rw [hworld, Req.apply, World.freeLease, if_pos hom, World.leaseOwner]
    simp only [Function.update_self, Option.join_some, Option.map_none]

omit hres in
private theorem leasedBody_lease {b : Target} (ho : s.world.leaseOwner pk = some p) :
    (leasedBody pk opts b).Ensures (cutSem env known p) (fun _ _ => True) l s
      fun _ (s' : Site) _ => s'.world.leaseOwner pk = some p := by
  refine ((leasedBody_within fun _ => trivial).only.ensures (A := Req.works pk fun _ => True)
    (I := fun _ (s' : Site) => s'.world.leaseOwner pk = some p) (fun l s op r s' hop hI hs => ?_) ho)
  refine ⟨trivial, ?_⟩
  rw [World.leaseOwner, lease_of_works hb hop hs.1]
  exact hI

/-- The clean-up of a step 4 that has returned gives the lease back. -/
theorem leasedExit_lease (h : At Inv p pk t.shard.dbAlias t.schemaName row c s)
    (ho : s.world.leaseOwner pk = some p) :
    (leasedExit pk t.shard.dbAlias true).Ensures (cutSem env known p)
      (fun _ => Recoverable Inv p pk t opts) l s fun l' s' _ => LeaseOf pk none l' s' := by
  have hidle : Observes env Inv known p pk t opts row c (fun _ _ => True)
      (shardIdle t.shard.dbAlias) :=
    observes_call hb hres (by exact trivial) fun _ _ _ _ _ _ => trivial
  refine ensures_bind.mpr ((hidle l s h).mono fun l₁ s₁ r₁ hr₁ => ?_)
  obtain ⟨h₁, hsteady₁, _, hout₁⟩ := hr₁
  cases r₁ with
  | error e => exact .inl hout₁.2
  | ok idle =>
  refine ensures_bind.mpr ((closeShard_observes hb hres l₁ s₁ h₁).mono fun l₂ s₂ r₂ hr₂ => ?_)
  obtain ⟨h₂, hsteady₂, _, hout₂⟩ := hr₂
  cases r₂ with
  | error e => exact .inl hout₂.2
  | ok _ =>
  rw [onOutcome_ok, Bool.true_or, if_pos rfl]
  refine ensures_guarded (ensures_bind.mpr fun r₃ s₃ hs₃ => ?_)
  have hfree : LeaseOf pk none (⟨.leaseRelease pk, r₃, s₂, s₃⟩ :: l₂) s₃ :=
    released_of_release hb ((hsteady₂.trans hsteady₁).leaseOwner ho) hs₃.1
  refine ⟨⟨row, c, hres, h₂.release hb hs₃.1⟩, ?_⟩
  cases r₃ with
  | error e => exact ⟨fun _ => hfree, fun _ => hfree⟩
  | ok won => exact hfree

/-- Step 4 gives the lease back. -/
theorem underLease_lease (ht : opts.targeted = false) {b : Target} (hal : b.dbAlias = t.shard.dbAlias)
    (h : At Inv p pk t.shard.dbAlias t.schemaName row c s) (ho : s.world.leaseOwner pk = some p) :
    (underLease pk opts b).Ensures (cutSem env known p) (fun _ => Recoverable Inv p pk t opts) l s
      fun l' s' _ => LeaseOf pk none l' s' := by
  rw [underLease, hal]
  refine ensures_bind.mpr (ensures_attempt.mpr
    (((leasedBody_ensures (F := True) hb hres ht h ho).and (leasedBody_lease hb ho)).mono
      fun l₁ s₁ r₁ hr₁ => ?_))
  obtain ⟨⟨⟨row', c', hres', h₁⟩, hgoal⟩, ho₁⟩ := hr₁
  refine ensures_bind.mpr ?_
  rcases hgoal trivial with ⟨res, rfl, _⟩ | hhind
  · refine (leasedExit_lease hb hres' h₁ ho₁).mono fun l₂ s₂ r₂ hfree => ?_
    cases r₂ with
    | error e => exact hfree
    | ok _ => exact hfree
  · refine (leasedExit_ensures hb hres' _ h₁).mono fun l₂ s₂ r₂ hr₂ => ?_
    obtain ⟨_, hmono, _⟩ := hr₂
    cases r₂ with
    | error e => exact .inl (hmono hhind)
    | ok _ => exact .inl (hmono hhind)

/-- Step 3 gives the lease back. -/
theorem withLease_lease (ht : opts.targeted = false) {b : Target}
    (hal : b.dbAlias = t.shard.dbAlias) (h : At Inv p pk t.shard.dbAlias t.schemaName row c s)
    (hready : s.world.Ready p t.shard.dbAlias pk) :
    (withLease pk opts b).Ensures (cutSem env known p) (fun _ => Recoverable Inv p pk t opts) l s
      fun l' s' _ => LeaseOf pk none l' s' := by
  rw [withLease, hal]
  refine ensures_guarded ((leaseAcquire_ensures (F := True) hb hres h fun _ => hready).mono
    fun l₁ s₁ r₁ hr₁ => ?_)
  obtain ⟨h₁, hout⟩ := hr₁
  cases r₁ with
  | error e =>
    refine ⟨fun _ => .inl hout, fun _ => ?_⟩
    split
    · exact .inl hout
    · split <;> exact .inl hout
  | ok held =>
    obtain ⟨howner, hlost⟩ := hout
    cases held with
    | some msg => exact absurd trivial (hlost (by exact Option.some_ne_none _))
    | none => exact underLease_lease hb hres ht hal h₁ (howner rfl)

/-- A run that nothing hinders leaves a lease that it found free as it found it. -/
theorem migrateTenant_lease (ht : opts.targeted = false) (hdef : t.shard.isDefault = false)
    (h : At Inv p pk t.shard.dbAlias t.schemaName row c s)
    (hready : s.world.Ready p t.shard.dbAlias pk) (hfree : s.world.leaseOwner pk = none) :
    (migrateTenant pk opts).Ensures (cutSem env known p) (fun _ => Recoverable Inv p pk t opts) l s
      fun l' s' _ => LeaseOf pk none l' s' := by
  refine ensures_guarded ((load_observes hb hres l s h).mono fun l₁ s₁ r₁ hr₁ => ?_)
  obtain ⟨h₁, hsteady₁, _, hout₁⟩ := hr₁
  cases r₁ with
  | error e =>
    refine ⟨fun _ => .inl hout₁.2, fun _ => ?_⟩
    split <;> exact .inl hout₁.2
  | ok found =>
  obtain rfl : found = some row := hout₁
  simp only [onOutcome_ok]
  rw [migrateLoaded, if_neg (by rw [hres.same.shard, hdef]; exact Bool.false_ne_true), hres.gate]
  refine ensures_bind.mpr ((noopShortcut_ensures (F := True) hb hres _ h₁).mono fun l₂ s₂ r₂ hr₂ => ?_)
  obtain ⟨h₂, hsteady₂, hout₂⟩ := hr₂
  have hsteady := hsteady₂.trans hsteady₁
  cases r₂ with
  | error e => exact .inl hout₂
  | ok o =>
  cases o with
  | some res =>
    refine .inr ?_
    rw [World.leaseOwner, hsteady.lease]
    exact hfree
  | none =>
    exact withLease_lease hb hres ht (by rw [hres.same.shard]) h₂ (hsteady.ready hready)

end Leased

end Runs

/-! ### Attempts -/

section Attempts

variable {known : Plan} {pk : Pk} {t : Tenant} {opts : RunOptions} {s₀ s s' m : Site}

/-- Others who are elsewhere leave the migrator beside them its way. -/
theorem beside_elsewhere (p : Pid) (pk : Pk) (a : Alias) (schema : SchemaName) :
    Beside (Elsewhere p pk a schema) (fun _ => True) p pk a schema :=
  ⟨fun _ _ h => h, fun _ _ _ _ => trivial, fun _ _ _ _ => trivial⟩

/-- What happens to the tenant between two attempts: a statement that an earlier one has left
behind may still create or migrate its schema, once the tenant is claimed. -/
structure Aftermath (known : Plan) (pk : Pk) (a : Alias) (schema : SchemaName) (s m : Site) :
    Prop where
  tenant : m.world.tenant pk = s.world.tenant pk
  content : m.schemas a schema = s.schemas a schema ∨ (s.world.status pk ≠ some .new ∧
    ∃ n rel, m.schemas a schema = some (((s.schemas a schema).getD .empty).advance known n rel))

/-- Attempts at a tenant, one after another, each by a process of its own and each possibly left
unfinished. -/
inductive Attempts (known : Plan) (pk : Pk) (t : Tenant) (opts : RunOptions) (s₀ : Site) :
    Site → Prop
  | begin : Attempts known pk t opts s₀ s₀
  | others {s m : Site} : Attempts known pk t opts s₀ s →
      Aftermath known pk t.shard.dbAlias t.schemaName s m → Attempts known pk t opts s₀ m
  | attempt {s s' : Site} {p : Pid} {l : SiteLog} {y : Prog Result} :
      Attempts known pk t opts s₀ s → s.world.tx p = none →
      Exec (cutSem (Elsewhere p pk t.shard.dbAlias t.schemaName) known p) (migrateTenant pk opts)
        s l y s' → Attempts known pk t opts s₀ s'

/-- The tenant stands where a run can take it up, whichever process runs it. -/
def Resumes (pk : Pk) (t : Tenant) (opts : RunOptions) (s : Site) : Prop :=
  ∃ row, s.world.tenant pk = some row ∧
    Resumable t opts row (s.schemas t.shard.dbAlias t.schemaName)

/-- What can be recovered resumes. -/
theorem Recoverable.resumes {Inv : Site → Prop} {p : Pid} (h : Recoverable Inv p pk t opts s) :
    Resumes pk t opts s := by
  obtain ⟨row, c, hres, hat⟩ := h
  refine ⟨row, hat.row, ?_⟩
  rw [hat.content]
  exact hres

/-- What a run leaves when it is cut off resumes. -/
theorem Resumes.aftermath (h : Resumes pk t opts s)
    (hm : Aftermath known pk t.shard.dbAlias t.schemaName s m) : Resumes pk t opts m := by
  obtain ⟨row, hrow, hres⟩ := h
  refine ⟨row, hm.tenant.trans hrow, ?_⟩
  rcases hm.content with hkept | ⟨hclaimed, n, rel, hgrown⟩
  · rw [hkept]
    exact hres
  · rw [hgrown]
    refine ⟨hres.same, hres.reached, ?_⟩
    rcases hres.stage with ⟨hnew, _⟩ | hpending | ⟨hup, _⟩
    · exact absurd (by rw [World.status, hrow, Option.map_some, hnew]) hclaimed
    · exact .inr (.inl hpending)
    · exact .inr (.inr ⟨hup, rfl⟩)

/-- What an execution of `migrate_tenant` keeps and reaches. -/
theorem Resumes.exec (h : Resumes pk t opts s) (ht : opts.targeted = false)
    (hdef : t.shard.isDefault = false) {p : Pid} (htx : s.world.tx p = none) {l : SiteLog}
    {y : Prog Result} (hexec : Exec (cutSem (Elsewhere p pk t.shard.dbAlias t.schemaName) known p)
      (migrateTenant pk opts) s l y s') :
    Resumes pk t opts s' ∧ ∀ r, y = .done r → s.world.Ready p t.shard.dbAlias pk → ¬ Hindered l →
      Done known pk t s' r := by
  obtain ⟨row, hrow, hres⟩ := h
  have hat : At (fun _ => True) p pk t.shard.dbAlias t.schemaName row _ s := ⟨htx, hrow, rfl, trivial⟩
  obtain ⟨hrec, hrest⟩ := hexec.ensures ⟨row, _, hres, hat⟩ (migrateTenant_ensures
    (F := s.world.Ready p t.shard.dbAlias pk) (beside_elsewhere p pk _ _) hres ht hdef hat id)
  refine ⟨hrec.resumes, ?_⟩
  rintro r rfl hready hl
  exact (hrest.2 hready).resolve_right hl

/-- A run that nothing hinders gives the lease back. -/
theorem Resumes.exec_lease (h : Resumes pk t opts s) (ht : opts.targeted = false)
    (hdef : t.shard.isDefault = false) {p : Pid} (htx : s.world.tx p = none) {l : SiteLog}
    {r : Except Exn Result} (hexec : Exec (cutSem (Elsewhere p pk t.shard.dbAlias t.schemaName) known p)
      (migrateTenant pk opts) s l (.done r) s') (hready : s.world.Ready p t.shard.dbAlias pk)
    (hfree : s.world.leaseOwner pk = none) (hl : ¬ Hindered l) : s'.world.leaseOwner pk = none := by
  obtain ⟨row, hrow, hres⟩ := h
  have hat : At (fun _ => True) p pk t.shard.dbAlias t.schemaName row _ s := ⟨htx, hrow, rfl, trivial⟩
  exact (hexec.outcome ⟨row, _, hres, hat⟩ (migrateTenant_lease (beside_elsewhere p pk _ _) hres ht
    hdef hat hready hfree)).resolve_left hl

/-- After any number of attempts that were cut off the tenant resumes. -/
theorem Attempts.resumes (h : Attempts known pk t opts s₀ s) (h₀ : Resumes pk t opts s₀)
    (ht : opts.targeted = false) (hdef : t.shard.isDefault = false) : Resumes pk t opts s := by
  induction h with
  | begin => exact h₀
  | others _ hm ih => exact ih.aftermath hm
  | attempt _ htx hexec ih => exact (ih.exec ht hdef htx hexec).1

/-- A request that returns does not hinder, unless it says that the code is older. -/
theorem not_hinders {op : Req} {v : op.Ans} (h : op ≠ .codeOlderThanDb) :
    ¬ Hinders ⟨op, .ok v, s, s'⟩ := by
  rintro (⟨e, he⟩ | heq)
  · cases he
  · exact h (congrArg Taken.op heq)

/-- That the code is current hinders nothing. -/
theorem not_hinders_current : ¬ Hinders ⟨.codeOlderThanDb, .ok false, s, s'⟩ := by
  rintro (⟨e, he⟩ | heq) <;> cases ‹_›

/-- A run of requests that do not hinder it. -/
theorem unhindered {env : Site → Site → Prop} {p : Pid} {x y : Prog Result} {l : SiteLog}
    (h : Exec (fun op s r s' => cutSem env known p op s r s' ∧ ¬ Hinders ⟨op, r, s, s'⟩) x s l y s') :
    Exec (cutSem env known p) x s l y s' ∧ ¬ Hindered l := by
  obtain ⟨hexec, hl⟩ := Exec.split (P := fun z => ¬ Hinders z) h
  exact ⟨hexec, fun ⟨z, hz, hh⟩ => hl z hz hh⟩

/-- The migrations of a release. -/
def coreTwo : Plan := [("core", "0001_initial"), ("core", "0002_price")]

/-- A new tenant whose schema does not exist. -/
def newSite : Site := ⟨oneTenant acme, fun _ _ => none⟩

/-- A new tenant resumes. -/
theorem resumes_new : Resumes 1 acme .defaults newSite :=
  ⟨acme, rfl, ⟨rfl, rfl⟩, rfl, .inl ⟨rfl, fun _ => rfl⟩⟩

/-- Nothing is in the way of the requests of `p` for the tenant: no row lock of another process,
and room for another connection. -/
structure World.Clear (w : World) (p : Pid) (pk : Pk) : Prop where
  leaseFree : (w.leaseLock pk).filter (· ≠ p) = none
  tenantFree : (w.tenantLock pk).filter (· ≠ p) = none
  room : ∃ n, ∀ i, n ≤ i → w.backends i = none

/-- A world stays clear while its locks stay and there is room for sessions. -/
theorem World.Clear.of_eq {w w' : World} {p : Pid} (h : w.Clear p pk) (hlocks : w'.locks = w.locks)
    (hroom : ∃ n, ∀ i, n ≤ i → w'.backends i = none) : w'.Clear p pk := by
  obtain ⟨_, hlease, htenant⟩ := World.locks_eq_iff.mp hlocks
  refine ⟨?_, ?_, hroom⟩
  · rw [hlease]
    exact h.leaseFree
  · rw [htenant]
    exact h.tenantFree

/-- A statement has a connection to run on. -/
theorem World.Clear.uses {w : World} {p : Pid} (h : w.Clear p pk) (a : Alias) (st : Activity)
    (f : Option Pk → Option Pk) : ∃ w', w.Uses p a st f w' ∧ w'.Clear p pk := by
  obtain ⟨n, hn⟩ := h.room
  have hroom (i : Nat) (b : Option Backend) :
      ∃ n, ∀ j, n ≤ j → Function.update w.backends i b j = none := by
    refine ⟨max n (i + 1), fun j hj => ?_⟩
    rw [Function.update_of_ne (by omega)]
    exact hn j (by omega)
  by_cases hconn : ∃ i b, w.backends i = some b ∧ connected p a b = true
  · obtain ⟨i, b, hi, hb⟩ := hconn
    exact ⟨_, .inl ⟨i, b, hi, hb, rfl⟩, h.of_eq rfl (hroom i _)⟩
  · refine ⟨_, .inr ⟨fun j b hj => ?_, n, hn n (Nat.le_refl n), rfl⟩, h.of_eq rfl (hroom n _)⟩
    exact eq_false_of_ne_true fun hb => hconn ⟨j, b, hj, hb⟩

variable {p : Pid} {op : Req}

/-- Others do nothing. -/
def Alone (s m : Site) : Prop := m = s

/-- A request has an answer that does not hinder the run. -/
def Smooth (known : Plan) (p : Pid) (pk : Pk) (s : Site) (op : Req) : Prop :=
  ∃ r s', (cutSem Alone known p op s r s' ∧ ¬ Hinders ⟨op, r, s, s'⟩) ∧ s'.world.Clear p pk

/-- A shard statement that runs through. -/
theorem World.Clear.smoothShard (h : s.world.Clear p pk) (b : Alias) (q : ShardReq) (v : q.Ans)
    (sc : Schemas) (hanswer : (Req.shard b q).Answers p s.world v)
    (hfinds : (Req.shard b q).Finds known s.schemas (.ok v))
    (hleaves : q.Leaves known b true s.schemas sc) : Smooth known p pk s (.shard b q) := by
  obtain ⟨w, huses, hclear⟩ := h.uses b .idle (Req.relabel q)
  have hreturns : (Req.shard b q).Returns p s.world w := ⟨.idle, Activity.noConfusion, huses⟩
  have hs : siteSem Alone known p (.shard b q) s (.ok v) ⟨w, sc⟩ :=
    ⟨s, rfl, ⟨hanswer, hreturns⟩, hfinds, hleaves⟩
  exact ⟨.ok v, ⟨w, sc⟩, ⟨⟨hs, fun e he => by cases he⟩, not_hinders Req.noConfusion⟩, hclear⟩

/-- A request on `default` that does not have to wait. -/
theorem World.Clear.smoothDefault (h : s.world.Clear p pk) (v : op.Ans)
    (hexec : machine.exec p op s.world (.ok v) (op.apply p s.world)) (htx : op.transacts = false)
    (hroom : ∃ n, ∀ i, n ≤ i → (op.apply p s.world).backends i = none)
    (hfinds : op.Finds known s.schemas (.ok v)) (hleaves : op.Leaves known true s.schemas s.schemas)
    (hnot : ¬ Hinders ⟨op, .ok v, s, ⟨op.apply p s.world, s.schemas⟩⟩) :
    Smooth known p pk s op :=
  ⟨.ok v, ⟨op.apply p s.world, s.schemas⟩, ⟨⟨⟨s, rfl, hexec, hfinds, hleaves⟩,
    fun e he => by cases he⟩, hnot⟩, h.of_eq (Req.apply_locks htx) hroom⟩

/-- Every shard statement of a migrator can run through. -/
theorem World.Clear.smooth_shard (h : s.world.Clear p pk) (b : Alias) (q : ShardReq) :
    Smooth known p pk s (.shard b q) := by
  cases q with
  | sessionActive k =>
    by_cases hbusy : s.world.Busy p b k
    · exact h.smoothShard b _ (some ⟨0, 0, ""⟩) s.schemas (iff_of_true rfl hbusy) trivial rfl
    · exact h.smoothShard b _ none s.schemas (iff_of_false Bool.false_ne_true hbusy) trivial rfl
  | schemaExists n => exact h.smoothShard b _ _ s.schemas trivial rfl rfl
  | schemaHasRelations n => exact h.smoothShard b _ _ s.schemas trivial rfl rfl
  | migrationPlan n =>
    refine h.smoothShard b _ (((s.schemas b n).map fun c => c.unapplied known).getD []) s.schemas
      trivial (fun c hc => ?_) rfl
    rw [hc, Option.map_some, Option.getD_some]
  | invalidIndexes n => exact h.smoothShard b _ [] s.schemas trivial trivial rfl
  | createSchema n => exact h.smoothShard b _ () _ trivial trivial (.inl rfl)
  | openShard k => exact h.smoothShard b _ () s.schemas trivial trivial rfl
  | runMigrations o n =>
    by_cases ho : o.targeted = true
    · refine h.smoothShard b _ () s.schemas trivial trivial ?_
      rw [ShardReq.Leaves, if_pos ho]
      exact fun _ _ _ => rfl
    · refine h.smoothShard b _ () (s.schemas.put b n
        ((s.schemas b n).map fun c => c.advance known known.length false)) trivial trivial ?_
      rw [ShardReq.Leaves, if_neg ho]
      exact ⟨known.length, false, rfl, fun _ => Nat.le_refl _⟩

/-- Every request of a migrator of the tenant can run through. -/
theorem World.Clear.smooth (h : s.world.Clear p pk) (hop : op.migrates pk fun _ => True) :
    Smooth known p pk s op := by
  have hroom (hshard : op.usesShard = false) :
      ∃ n, ∀ i, n ≤ i → (op.apply p s.world).backends i = none := by
    rw [Req.apply_backends hshard]
    exact h.room
  cases op with
  | load k | casLostRow k | leaseHolder k =>
    exact h.smoothDefault _ ⟨rfl, rfl, rfl⟩ rfl (hroom rfl) trivial rfl (not_hinders Req.noConfusion)
  | leaseUpsert k =>
    obtain rfl : k = pk := hop
    exact h.smoothDefault _ ⟨rfl, h.leaseFree, rfl⟩ rfl (hroom rfl) trivial rfl
      (not_hinders Req.noConfusion)
  | leaseRelease k =>
    obtain rfl : k = pk := hop
    have hwait : (Req.leaseRelease k).waitsFor p s.world = none := by
      rw [Req.waitsFor]
      split
      · exact h.leaseFree
      · rfl
    exact h.smoothDefault _ ⟨rfl, hwait, rfl⟩ rfl (hroom rfl) trivial rfl
      (not_hinders Req.noConfusion)
  | fencedCas k expected u =>
    obtain rfl : k = pk := hop
    have hwait : (Req.fencedCas k expected u).waitsFor p s.world = none := by
      rw [Req.waitsFor]
      split
      · exact h.tenantFree
      · rfl
    exact h.smoothDefault _ ⟨rfl, hwait, rfl⟩ rfl (hroom rfl) trivial rfl
      (not_hinders Req.noConfusion)
  | codeOlderThanDb =>
    exact h.smoothDefault false ⟨trivial, rfl, rfl⟩ rfl (hroom rfl) trivial rfl not_hinders_current
  | forgetTenant k =>
    exact h.smoothDefault () ⟨trivial, rfl, rfl⟩ rfl (hroom rfl) trivial rfl
      (not_hinders Req.noConfusion)
  | shardIdle b =>
    obtain ⟨v, hv⟩ : ∃ v : Bool, v = true ↔ ∀ i c, s.world.backends i = some c →
        connected p b c = true → c.state ≠ .active := by
      by_cases hidle : ∀ i c, s.world.backends i = some c → connected p b c = true → c.state ≠ .active
      · exact ⟨true, iff_of_true rfl hidle⟩
      · exact ⟨false, iff_of_false Bool.false_ne_true hidle⟩
    exact h.smoothDefault v ⟨hv, rfl, rfl⟩ rfl (hroom rfl) trivial rfl (not_hinders Req.noConfusion)
  | closeShard b =>
    refine h.smoothDefault () ⟨trivial, rfl, rfl⟩ rfl ?_ trivial rfl (not_hinders Req.noConfusion)
    obtain ⟨n, hn⟩ := h.room
    refine ⟨n, fun i hi => ?_⟩
    rw [Req.apply, World.closeConn]
    dsimp only
    rw [hn i hi, Option.bind_none]
  | shard b q => exact h.smooth_shard b q
  | _ => exact hop.elim

/-- A run that is alone is a run beside others who are elsewhere. -/
theorem cutSem_elsewhere {a : Alias} {schema : SchemaName} {l : SiteLog} {x y : Prog Result}
    (h : Exec (cutSem Alone known p) x s l y s') :
    Exec (cutSem (Elsewhere p pk a schema) known p) x s l y s' := by
  refine h.mono fun op s r s' hs => ?_
  obtain ⟨⟨m, rfl, hrest⟩, hcut⟩ := hs
  exact ⟨⟨m, .refl p pk a schema m, hrest⟩, hcut⟩

/-- A run on its own leaves the other leases alone. -/
theorem exec_alone_lease {l : SiteLog} {y : Prog Result}
    (h : Exec (cutSem Alone known p) (migrateTenant pk opts) s l y s') {k : Pk} (hk : k ≠ pk) :
    s'.world.lease k = s.world.lease k := by
  have hens : (migrateTenant pk opts).Ensures (cutSem Alone known p)
      (fun _ s' => s'.world.lease k = s.world.lease k) [] s fun _ s' _ =>
        s'.world.lease k = s.world.lease k := by
    refine (migrateTenant_migrates pk opts).ensures (fun l s₁ op r s₂ hop hI hs => ?_) rfl
    obtain ⟨⟨m, rfl, hexec, _⟩, _⟩ := hs
    suffices hkept : s₂.world.lease k = m.world.lease k from ⟨hkept.trans hI, hkept.trans hI⟩
    cases acts_leaseChange (l := .answer p op r) k hexec with
    | kept hrow => exact hrow
    | taken q r' hlabel =>
      cases hlabel
      exact absurd hop hk
    | released q o hlabel =>
      rcases hlabel with ⟨_, r', hlabel⟩ | ⟨r', hlabel⟩
      · cases hlabel
        exact absurd hop hk
      · cases hlabel
        exact hop.elim
    | inserted q x hlabel =>
      obtain ⟨r', hlabel⟩ := hlabel
      cases hlabel
      exact hop.elim
  exact (h.ensures rfl hens).1

/-- A run on its own leaves the other tenants alone. -/
theorem exec_alone_tenant {l : SiteLog} {y : Prog Result}
    (h : Exec (cutSem Alone known p) (migrateTenant pk opts) s l y s') {k : Pk} (hk : k ≠ pk) :
    s'.world.tenant k = s.world.tenant k := by
  have hens : (migrateTenant pk opts).Ensures (cutSem Alone known p)
      (fun _ s' => s'.world.tenant k = s.world.tenant k) [] s fun _ s' _ =>
        s'.world.tenant k = s.world.tenant k := by
    refine (migrateTenant_migrates pk opts).ensures (fun l s₁ op r s₂ hop hI hs => ?_) rfl
    obtain ⟨⟨m, rfl, hexec, _⟩, _⟩ := hs
    suffices hkept : s₂.world.tenant k = m.world.tenant k from ⟨hkept.trans hI, hkept.trans hI⟩
    cases acts_tenantChange (l := .answer p op r) k hexec with
    | kept hrow => exact hrow
    | fenced q expected w r' hlabel =>
      cases hlabel
      exact absurd hop hk
    | console q source dest r' hlabel =>
      cases hlabel
      exact hop.elim
    | committed q x new hlabel =>
      obtain ⟨r', hlabel⟩ := hlabel
      cases hlabel
      exact hop.elim
    | deleted hlabel => cases hlabel
  exact (h.ensures rfl hens).1

/-- A run to the end is possible. -/
theorem Resumes.can_finish (hs : Resumes pk t opts s) (known : Plan) (ht : opts.targeted = false)
    (hdef : t.shard.isDefault = false) (htx : s.world.tx p = none)
    (hready : s.world.Ready p t.shard.dbAlias pk) (hclear : s.world.Clear p pk) :
    ∃ l r s', Exec (cutSem Alone known p) (migrateTenant pk opts) s l (.done r) s' ∧
      ¬ Hindered l ∧ Done known pk t s' r := by
  have hrun : ∃ l r s', Exec (fun op s r s' =>
      cutSem Alone known p op s r s' ∧ ¬ Hinders ⟨op, r, s, s'⟩) (migrateTenant pk opts) s l (.done r)
      s' ∧ s'.world.Clear p pk :=
    Exec.finishes (I := fun s : Site => s.world.Clear p pk) (migrateTenant_migrates pk opts)
      (fun op s hop hI => hI.smooth hop) .start hclear
  obtain ⟨l, r, s', hexec, _⟩ := hrun
  obtain ⟨hexec, hclear⟩ := unhindered hexec
  exact ⟨l, r, s', hexec, hclear, (hs.exec ht hdef htx (cutSem_elsewhere hexec)).2 r rfl hready hclear⟩

end Attempts

end MtShards.Migrator
