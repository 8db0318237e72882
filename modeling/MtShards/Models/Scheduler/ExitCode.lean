import MtShards.Models.Scheduler.CommandRun

/-!
# What exit code 0 means

Every success that a run reports was delivered by a worker or found by the re-check, and what is left
of the stages only takes successes away. So a run that exits with 0 leaves `public` migrated, and
every selected tenant migrated or under a live lease that provisions it.
-/

namespace MtShards.Scheduler

open MtShards.Core
open MtShards.Migrator (Kind Reason Result Pk Row RunOptions Prog Plan Site SiteLog Fact Grows Placed
  KeepsSchema Migrated Walks World siteSem provisionable upgradableStatuses migrateTenant migrateShared
  publicSchema walks_pure walks_quiet walks_ask acmeActive oneTenant coreTwo)

/-! ### What a value that was earned tells -/

section Earned

variable {known : Plan} {pk : Pk} {t : Migrator.Tenant} {f : Fact} {s : Site}

/-- What a program learns is still true where its value is used. -/
theorem Earned.holds {α : Type} {x : Prog α} {v : α} {V : α → Fact} (h : Earned known f pk t x v s)
    (hx : ∀ p, Walks known p pk t f V x) : (V v).Holds known t s := by
  obtain ⟨p, s₁, l, s₂, hplaced, hf, hexec, hg⟩ := h
  exact Fact.Holds.grows (hexec.outcome trivial (hx p [] s₁ hplaced hf)).2.2 hg

/-- The re-check calls a tenant done only when it is migrated. -/
theorem recheckLocked_walks {p : Migrator.Pid} (before : Status) : Walks known p pk t f
    (fun v => ⟨True, False, ∃ msg, v = some (false, msg)⟩) (recheckLocked pk before) := by
  have hnone {g : Fact} : Walks known p pk t g (fun v => ⟨True, False, ∃ msg, v = some (false, msg)⟩)
      (Pure.pure none : Prog (Option (Bool × String))) :=
    walks_quiet trivial not_false fun ⟨_, h⟩ => by cases h
  refine Walks.guarded (V := fun v => ⟨True, False, ∃ msg, v = some (false, msg)⟩) ?_
    (fun _ _ => walks_pure fun s h => ⟨trivial, False.elim, fun hk => h.complete (.inr hk)⟩)
    fun _ => hnone
  refine Migrator.load_walks.bind fun row hrow => ?_
  cases row with
  | none => exact hnone
  | some row =>
    dsimp only
    split
    · refine (Migrator.pendingPlan_walks (hrow row rfl)).bind fun plan _ => ?_
      split
      · rename_i hplan
        exact walks_pure fun s h => ⟨trivial, False.elim, fun _ => h.complete (.inr hplan)⟩
      · exact hnone
    split
    · refine Walks.bind (walks_ask ⟨rfl, fun _ _ _ h => by cases h⟩) fun held _ => ?_
      cases held with
      | none => exact hnone
      | some h =>
        dsimp only
        split
        · exact hnone
        · exact walks_quiet trivial not_false fun ⟨_, h⟩ => by cases h
    · exact hnone

/-- A re-check has read the row of the tenant, and it was PENDING, and then its lease, which some
process held and which had not expired. -/
def SeesProvisioning (pk : Pk) (l : SiteLog) : Prop :=
  ∃ x y, l = [y, x] ∧
    (x.op = .load pk ∧ ∃ row, x.post.world.tenant pk = some row ∧ row.status = .pending) ∧
    (y.op = .leaseHolder pk ∧ ∃ q, y.post.world.Live q pk)

/-- A row that was loaded is that of the tenant. -/
private theorem row_of_load {p : Migrator.Pid} {row : Migrator.Tenant} {s' : Site}
    (h : Placed p pk t s) (hs : siteSem (KeepsSchema p pk t) known p (.load pk) s (.ok (some row)) s') :
    s'.world.tenant pk = some row := by
  obtain ⟨m, hm, ⟨hans, hret⟩, _⟩ := hs
  have htx : m.world.tx p = none := hm.tx.trans h.idle
  rw [Migrator.Req.Answers, World.tenantRow, htx] at hans
  rw [hret.2]
  exact hans.symm

/-- A holder that is not said to be expired has a live lease. -/
private theorem live_of_leaseHolder {p : Migrator.Pid} {holder : Migrator.LeaseHolder} {s' : Site}
    (h : Placed p pk t s) (hlive : holder.expired = false)
    (hs : siteSem (KeepsSchema p pk t) known p (.leaseHolder pk) s (.ok (some holder)) s') :
    s'.world.Live holder.owner pk := by
  obtain ⟨m, hm, ⟨hans, hret⟩, _⟩ := hs
  have htx : m.world.tx p = none := hm.tx.trans h.idle
  rw [Migrator.Req.Answers, World.leaseHolder, World.leaseRow, World.clock, htx] at hans
  obtain ⟨held, hheld, rfl⟩ := Option.map_eq_some_iff.mp hans.symm
  have huntil : m.world.now ≤ held.untilAt := by simpa using hlive
  rw [hret.2]
  exact ⟨held, Option.join_eq_some_iff.mp hheld, rfl, huntil⟩

/-- The re-check leaves a tenant to a provisioning elsewhere only when it has seen one. -/
theorem recheckLocked_sees {p : Migrator.Pid} (before : Status) (h : Placed p pk t s) :
    (recheckLocked pk before).Ensures (siteSem (KeepsSchema p pk t) known p) (fun _ _ => True) [] s
      fun l _ => Program.onOutcome (fun v => ∀ msg, v = some (true, msg) → SeesProvisioning pk l)
        fun _ => True := by
  refine Migrator.ensures_guarded (Program.ensures_bind.mpr fun r s₁ hload => ⟨trivial, ?_⟩)
  cases r with
  | error e => exact ⟨fun _ => trivial, fun _ _ hmsg => by cases hmsg⟩
  | ok row =>
    cases row with
    | none => exact fun _ hmsg => by cases hmsg
    | some row =>
      have hop : Migrator.Req.untargeted pk (.load pk) := ⟨rfl, fun _ _ _ h => by cases h⟩
      have hplaced : Placed p pk t s₁ := (h.step hop hload).1
      simp only [Program.ensures_done, Program.onOutcome_ok]
      split
      · -- An upgradable tenant is done, or the skip stands.
        have hwithin : (Migrator.pendingPlan row >>= fun plan =>
            if plan = some [] then Pure.pure (some (false, if before ∈ provisionable then
              "provisioned by another run" else "done by another run"))
            else Pure.pure none : Prog (Option (Bool × String))).Within (fun _ => True)
              fun v => ∀ msg, v ≠ some (true, msg) := by
          refine (Program.only_true _).within.bind fun plan _ => ?_
          split
          · exact Program.within_pure.mpr fun msg hmsg => by cases hmsg
          · exact Program.within_pure.mpr fun msg hmsg => by cases hmsg
        refine (hwithin.ensures (I := fun _ _ => True) (R := fun _ _ => True)
          (fun _ _ _ _ _ _ _ _ => ⟨trivial, trivial⟩) trivial).mono fun l s₂ r hr => ?_
        cases r with
        | ok v => exact fun msg hmsg => absurd hmsg (hr.2 msg)
        | error e => exact ⟨fun _ => trivial, fun _ _ hmsg => by cases hmsg⟩
      split
      · rename_i hpending
        refine Program.ensures_bind.mpr fun r s₂ hlease => ⟨trivial, ?_⟩
        cases r with
        | error e => exact ⟨fun _ => trivial, fun _ _ hmsg => by cases hmsg⟩
        | ok held =>
          cases held with
          | none => exact fun _ hmsg => by cases hmsg
          | some holder =>
            simp only [Program.ensures_done, Program.onOutcome_ok]
            split
            · exact fun _ hmsg => by cases hmsg
            · rename_i hexpired
              exact fun _ _ => ⟨_, _, rfl, ⟨rfl, row, row_of_load h hload, hpending⟩, rfl, holder.owner,
                live_of_leaseHolder hplaced (eq_false_of_ne_true hexpired) hlease⟩
      · exact fun _ hmsg => by cases hmsg

/-- A re-check has left the tenant to a provisioning elsewhere that it had seen, and the schema has
lost nothing since. -/
def FoundProvisioning (known : Plan) (pk : Pk) (t : Migrator.Tenant) (s : Site) : Prop :=
  ∃ p s₁ l s₂ msg, Placed p pk t s₁ ∧ Exec (siteSem (KeepsSchema p pk t) known p)
    (recheckLocked pk t.status) s₁ l (.done (.ok (some (true, msg)))) s₂ ∧
    SeesProvisioning pk l ∧ Grows t s₂ s

/-- A re-check that answers that the tenant is provisioned elsewhere has found it so. -/
theorem Earned.foundProvisioning {msg : String}
    (h : Earned known .nothing pk t (recheckLocked pk t.status) (some (true, msg)) s) :
    FoundProvisioning known pk t s := by
  obtain ⟨p, s₁, l, s₂, hplaced, _, hexec, hg⟩ := h
  exact ⟨p, s₁, l, s₂, msg, hplaced, hexec,
    hexec.outcome trivial (recheckLocked_sees t.status hplaced) msg rfl, hg⟩

/-- What a re-check has found stays found as long as the schema loses nothing. -/
theorem FoundProvisioning.grows {s' : Site} (h : FoundProvisioning known pk t s) (hg : Grows t s s') :
    FoundProvisioning known pk t s' := by
  obtain ⟨p, s₁, l, s₂, msg, hplaced, hexec, hsees, hgrown⟩ := h
  exact ⟨p, s₁, l, s₂, msg, hplaced, hexec, hsees, hgrown.trans hg⟩

end Earned

/-! ### What becomes of the successes -/

/-- Every success that `s'` shows was shown by `s`, for the same reason. -/
def Sched.Credited (s s' : Sched) : Prop := ∀ i, (s'.entry i).kind.passes = true →
  (s'.entry i).kind = (s.entry i).kind ∧ (s'.entry i).reason = (s.entry i).reason

section Credited

variable {s s₁ s₂ : Sched} {i : Id}

/-- A stage shows its own successes. -/
theorem Sched.Credited.refl (s : Sched) : s.Credited s := fun _ _ => ⟨rfl, rfl⟩

/-- Successes that come from an earlier stage come from every stage before that one. -/
theorem Sched.Credited.trans (h : s.Credited s₁) (h' : s₁.Credited s₂) : s.Credited s₂ := by
  intro i hi
  obtain ⟨hk, hr⟩ := h' i hi
  obtain ⟨hk', hr'⟩ := h i (hk ▸ hi)
  exact ⟨hk.trans hk', hr.trans hr'⟩

/-- A stage with the same entries shows the same successes. -/
theorem Sched.credited_of_entry (h : s₁.entry = s.entry) : s.Credited s₁ := by
  intro i _
  rw [h]
  exact ⟨rfl, rfl⟩

/-- Entries are written so that they show no success. -/
theorem credited_writeAll {ids : List Id} {w : Entry → Entry} {st : TenantStage}
    (hw : ∀ e, (w e).kind.passes = false) : s.Credited ⟨writeAll s.entry ids w, st⟩ := by
  intro i hi
  by_cases hmem : i ∈ ids
  · dsimp only at hi
    rw [writeAll_of_mem hmem, hw] at hi
    cases hi
  · dsimp only
    rw [writeAll_of_notMem hmem]
    exact ⟨rfl, rfl⟩

/-- Halting makes no success: what is left in the queues ends as `not_run`. -/
theorem Sched.credited_halt (s : Sched) (stop : Stop) (override : Bool) :
    s.Credited (s.halt stop override) := credited_writeAll fun _ => rfl

/-- Accounting for a finished target makes no success, whether or not it drops the shard. -/
theorem Sched.credited_account (s : Sched) (e : Entry) : s.Credited (s.account e) := by
  rw [Sched.account]
  split
  · exact credited_writeAll fun _ => rfl
  · split
    · exact credited_of_entry rfl
    · split
      · exact credited_of_entry rfl
      · exact .refl s

/-- Judging a finished target makes no success. -/
theorem Sched.credited_judge (s : Sched) (e : Entry) : s.Credited (s.judge e) := by
  rw [Sched.judge]
  split
  · exact .refl s
  · split
    · split
      · exact s.credited_halt _ _
      · exact .refl s
    · split
      · exact s.credited_halt _ _
      · exact .refl s

/-- The callback of a finished target makes no success. -/
theorem Sched.credited_done (s : Sched) (i : Id) : s.Credited (s.done i) := by
  have hland : s.Credited (s.land (s.entry i).target.shard) := credited_of_entry rfl
  rw [Sched.done]
  split
  · exact hland.trans (credited_halt _ _ _)
  · exact hland.trans ((credited_account _ _).trans (credited_judge _ _))

/-- Draining the queues on a signal makes no success. -/
theorem Sched.credited_drain (s : Sched) (signals : Nat) : s.Credited (s.drain signals) := by
  rw [Sched.drain]
  split
  · exact s.credited_halt _ _
  · exact .refl s

/-- Marking a target as running makes no success. -/
theorem Sched.credited_markRunning (s : Sched) (st : TenantStage) (i : Id) :
    s.Credited (Sched.markRunning ⟨s.entry, st⟩ i) := by
  intro j hj
  by_cases hij : j = i
  · subst hij
    simp [Sched.markRunning, EntryKind.passes] at hj
  · simp [Sched.markRunning, hij]

/-- A finished target shows the success it has delivered; the others show no more than before. -/
theorem Sched.finish_credit {d : Delivered} {j : Id}
    (h : ((s.finish i d).entry j).kind.passes = true) :
    (j = i ∧ ∃ res, d = .result res ∧ (res.kind = .ok ∨ res.kind = .noop)) ∨
      ((s.finish i d).entry j).kind = (s.entry j).kind ∧
        ((s.finish i d).entry j).reason = (s.entry j).reason := by
  obtain ⟨hk, hr⟩ := credited_done
    { s with entry := Function.update s.entry i ((s.entry i).collect d) } i j h
  by_cases hij : j = i
  · subst hij
    refine .inl ⟨rfl, ?_⟩
    rw [Sched.finish, hk] at h
    dsimp only at h
    rw [Function.update_self] at h
    cases d with
    | result res => exact ⟨res, rfl, by simpa [Entry.collect, Entry.take, EntryKind.passes] using h⟩
    | raised e => simp [Entry.collect, EntryKind.passes] at h
  · refine .inr ⟨hk.trans ?_, hr.trans ?_⟩
    · simp [hij]
    · simp [hij]

end Credited

/-- What a step of the parent makes of the books: nothing is delivered, and every success that is
shown was shown before or had been delivered. -/
structure Parent.Credits (p p' : Parent) : Prop where
  future : ∀ i d, p'.future i = some (.delivered d) → p.future i = some (.delivered d)
  entry : ∀ i, (p'.sched.entry i).kind.passes = true →
    ((p'.sched.entry i).kind = (p.sched.entry i).kind ∧
      (p'.sched.entry i).reason = (p.sched.entry i).reason) ∨
    ∃ res, p.future i = some (.delivered (.result res)) ∧ (res.kind = .ok ∨ res.kind = .noop)

section Credits

variable {p p' : Parent} {jobs perShard : Int} {i : Id}

/-- The futures are as they were, and the entries show no more. -/
theorem Parent.Credits.of_credited (hfuture : p'.future = p.future)
    (hsched : p.sched.Credited p'.sched) : p.Credits p' :=
  ⟨fun _ _ h => hfuture ▸ h, fun i hi => .inl (hsched i hi)⟩

/-- Finishing a target with what its future holds shows only the success that was delivered. -/
theorem Parent.Credits.finish {d : Delivered} (hfuture : p'.future = p.future)
    (hsched : p'.sched = p.sched.finish i d) (hd : p.future i = some (.delivered d)) : p.Credits p' := by
  refine ⟨fun i d h => hfuture ▸ h, fun j hj => ?_⟩
  rw [hsched] at hj ⊢
  rcases Sched.finish_credit hj with ⟨rfl, res, rfl, hres⟩ | hkept
  · exact .inr ⟨res, hd, hres⟩
  · exact .inl hkept

/-- A step of the loop shows only successes that were delivered. -/
theorem Parent.LoopStep.credits (hs : p.LoopStep jobs perShard p') : p.Credits p' := by
  cases hs with
  | top _ => exact .of_credited rfl (p.sched.credited_drain _)
  | take _ _ => exact .of_credited rfl (p.sched.credited_markRunning _ _)
  | @submit i _ _ =>
    refine ⟨fun j d h => ?_, fun j _ => .inl ⟨rfl, rfl⟩⟩
    by_cases hij : j = i
    · subst hij
      simp at h
    · simpa [hij] using h
  | collect _ hd => exact .finish rfl rfl hd
  | rescue _ hd => exact .finish rfl rfl hd
  | _ => exact .of_credited rfl (.refl _)

/-- Settling the open targets with a verdict that is no success makes none. -/
theorem Parent.credited_settle (p : Parent) {kind : EntryKind} (hkind : kind.passes = false)
    (reason : EntryReason) (msg : String) : p.sched.Credited (p.settle kind reason msg) := by
  intro i hi
  rw [Parent.settle] at hi ⊢
  dsimp only at hi ⊢
  split at hi
  · dsimp only at hi
    rw [hkind] at hi
    cases hi
  · split at hi
    · cases hi
    · rename_i hrunning hunset
      rw [if_neg hrunning, if_neg hunset]
      exact ⟨rfl, rfl⟩

/-- Taking the snapshot of a target makes no success. -/
theorem Parent.credited_snap (p : Parent) (i : Id) : p.sched.Credited (p.snap i) := by
  intro j _
  by_cases hij : j = i
  · subst hij
    simp [Parent.snap]
  · simp [Parent.snap, hij]

/-- A step after the loop shows no success that was not shown or delivered before. -/
theorem Parent.AfterStep.credits (hs : p.AfterStep p') : p.Credits p' := by
  cases hs with
  | cut _ => exact .of_credited rfl ((p.sched.credited_halt _ _).trans (credited_writeAll fun _ => rfl))
  | failed _ =>
    exact .of_credited rfl (Parent.credited_settle { p with stop := p.sched.stage.stop } rfl _ _)
  | snapshot _ => exact .of_credited rfl (p.credited_snap _)
  | handle _ => exact .of_credited rfl (p.credited_snap _)
  | _ => exact .of_credited rfl (.refl _)

/-- A signal shows no success that was not shown or delivered before. -/
theorem Parent.credits_onSignal {inside : Bool} (hs : p.onSignal inside = some p') : p.Credits p' := by
  have hint : p.Credits p.interrupted :=
    .of_credited rfl (Parent.credited_settle
      { p with stop := some ⟨.hardStop, none⟩, signals := p.signals + 1 } rfl _ _)
  rw [Parent.onSignal] at hs
  split at hs
  · obtain rfl := Option.some.inj hs
    exact .of_credited rfl (.refl _)
  split at hs
  · obtain rfl := Option.some.inj hs
    exact .of_credited rfl (.refl _)
  rw [Parent.keyboardInterrupt.eq_def] at hs
  split at hs
  · obtain rfl := Option.some.inj hs
    exact hint
  · obtain rfl := Option.some.inj hs
    exact hint
  · split at hs
    · obtain rfl := Option.some.inj hs
      exact .of_credited rfl (p.credited_snap _)
    · obtain rfl := Option.some.inj hs
      exact hint
  · cases hs

/-- No step of the parent shows a success that was not shown or delivered before. -/
theorem Parent.credits_advance (hs : p.advance jobs perShard = some p') : p.Credits p' := by
  cases hloop : p.pc.inLoop with
  | true => exact (loopStep_of_advance hloop hs).credits
  | false => exact (afterStep_of_advance hloop hs).credits

/-- Breaking the pool shows no success. -/
theorem Parent.credits_breakPool (p : Parent) : p.Credits p.breakPool := by
  refine ⟨fun i d h => ?_, fun i _ => .inl ⟨rfl, rfl⟩⟩
  rw [Parent.breakPool] at h
  dsimp only at h
  split at h
  · cases h
  · exact h

end Credits

/-! ### Successes are true along a run -/

section Vouched

variable {known : Plan} {opts : RunOptions} {rows : List Row} {s s' : Site} {p p' : Parent}
  {l l' : SeqLoop} {sched : Sched} {jobs perShard : Int} {e : Event}

/-- Every success that the entries show is true: the tenant is migrated, or the re-check has seen it
PENDING under a live lease, and says so. -/
def Sched.Truthful (known : Plan) (rows : List Row) (sched : Sched) (s : Site) : Prop :=
  ∀ i r, rows[i]? = some r → (sched.entry i).kind.passes = true → Migrated known r.tenant s ∨
    (sched.entry i).reason = .provisioningElsewhere ∧ FoundProvisioning known r.pk r.tenant s

/-- Every success that the entries show, or that was delivered, is true. -/
structure Parent.Vouched (known : Plan) (rows : List Row) (p : Parent) (s : Site) : Prop where
  entries : p.sched.Truthful known rows s
  future : ∀ i r res, rows[i]? = some r → p.future i = some (.delivered (.result res)) →
    res.kind = .ok ∨ res.kind = .noop → Migrated known r.tenant s

/-- Where all the schemas of the run lose nothing, the schema of each row loses nothing. -/
theorem AllGrow.row (h : AllGrow (schemasOf rows) s s') {i : Id} {r : Row} (hr : rows[i]? = some r) :
    Grows r.tenant s s' :=
  h _ (List.mem_cons_of_mem _ (List.mem_map_of_mem (List.mem_of_getElem? hr)))

/-- Successes that are true stay true as long as the schemas lose nothing. -/
theorem Sched.Truthful.grows (h : sched.Truthful known rows s) (hg : AllGrow (schemasOf rows) s s') :
    sched.Truthful known rows s' :=
  fun i r hr hi => (h i r hr hi).imp (fun hm => hm.grows (hg.row hr))
    fun ⟨hreason, hfound⟩ => ⟨hreason, hfound.grows (hg.row hr)⟩

/-- A stage that shows only successes of a truthful stage is truthful. -/
theorem Sched.Truthful.credited {sched' : Sched} (h : sched.Truthful known rows s)
    (hc : sched.Credited sched') : sched'.Truthful known rows s := by
  intro i r hr hi
  obtain ⟨hk, hreason⟩ := hc i hi
  rw [hreason]
  exact h i r hr (hk ▸ hi)

/-- A stage that has not begun is truthful: it shows no success. -/
theorem Sched.truthful_of (ts : List Target) (keepGoing : Bool) (maxFailures : Int) :
    (Sched.of ts keepGoing maxFailures).Truthful known rows s := by
  intro i r _ hi
  cases hi

/-- A vouched parent stays vouched as long as the schemas lose nothing. -/
theorem Parent.Vouched.grows (h : p.Vouched known rows s) (hg : AllGrow (schemasOf rows) s s') :
    p.Vouched known rows s' :=
  ⟨h.entries.grows hg, fun i r res hr hd hk => (h.future i r res hr hd hk).grows (hg.row hr)⟩

/-- A step that shows only what was shown or delivered keeps the parent vouched. -/
theorem Parent.Credits.vouched (hc : p.Credits p') (h : p.Vouched known rows s) :
    p'.Vouched known rows s := by
  refine ⟨fun i r hr hi => ?_, fun i r res hr hd => h.future i r res hr (hc.future i _ hd)⟩
  rcases hc.entry i hi with ⟨hk, hreason⟩ | ⟨res, hd, hres⟩
  · rw [hreason]
    exact h.entries i r hr (hk ▸ hi)
  · exact .inl (h.future i r res hr hd hres)

/-- A step of a parallel run keeps its successes true. -/
theorem Parent.Vouched.step (h : p.Vouched known rows s) (ht : opts.targeted = false)
    (hR : ParallelAllowed known opts rows (p, s) (.inr e)) (hs : p.step jobs perShard e = some p') :
    p'.Vouched known rows s := by
  cases stepped_of_step hs with
  | advanced ha => exact (Parent.credits_advance ha).vouched h
  | woken _ _ _ => exact ⟨h.entries, h.future⟩
  | @delivered i _ _ d =>
    refine ⟨h.entries, fun j r res hr hd hk => ?_⟩
    dsimp only at hd
    by_cases hij : j = i
    · subst hij
      rw [Function.update_self] at hd
      cases hd
      have hearned : Earned known .nothing r.pk r.tenant (migrateTenant r.pk opts) res s := hR r hr
      exact (hearned.holds fun _ => Migrator.migrateTenant_walks ht).complete hk
    · rw [Function.update_of_ne hij] at hd
      exact h.future j r res hr hd hk
  | broke _ => exact p.credits_breakPool.vouched h
  | signalled hsig => exact (Parent.credits_onSignal hsig).vouched h
  | @rechecked i _ _ _ provisioning msg =>
    refine ⟨fun j r hr hj => ?_, h.future⟩
    by_cases hij : j = i
    · subst hij
      cases provisioning with
      | true =>
        have hearned : Earned known .nothing r.pk r.tenant (recheckLocked r.pk r.tenant.status)
            (some (true, msg)) s := hR r hr
        exact .inr ⟨by simp [Parent.recheckEntry], hearned.foundProvisioning⟩
      | false =>
        have hearned : Earned known .nothing r.pk r.tenant (recheckLocked r.pk r.tenant.status)
            (some (false, msg)) s := hR r hr
        exact .inl ((hearned.holds fun _ => recheckLocked_walks _).complete ⟨msg, rfl⟩)
    · have hentry : (p.recheckEntry i provisioning msg).entry j = p.sched.entry j :=
        Function.update_of_ne hij ..
      dsimp only at hj ⊢
      rw [hentry] at hj ⊢
      exact h.entries j r hr hj

/-- In every run of the parallel stage the parent stays vouched. -/
theorem Parent.Vouched.run {s₀ : Site} {p₀ : Parent} (h : p₀.Vouched known rows s₀)
    (ht : opts.targeted = false)
    (htrace : Trace (besides fun p => Parent.step p jobs perShard) (ParallelAllowed known opts rows)
      (p₀, s₀) (p, s)) : p.Vouched known rows s :=
  htrace.invariant_besides (I := Parent.Vouched known rows) h (fun _ _ _ hp hR => hp.grows hR)
    fun _ _ _ _ hp hR hs => hp.step ht hR hs

/-- A step of the sequential loop keeps its successes true. -/
theorem SeqLoop.truthful_step {e : SeqEvent} (h : l.sched.Truthful known rows s)
    (ht : opts.targeted = false) (hR : SequentialAllowed known opts rows (l, s) (.inr e))
    (hs : l.step e = some l') : l'.sched.Truthful known rows s := by
  cases e with
  | returns res =>
    rw [SeqLoop.step] at hs
    split at hs
    · rename_i i hpc
      obtain rfl := Option.some.inj hs
      intro j r hr hj
      rcases Sched.finish_credit hj with ⟨rfl, res', hres', hk⟩ | ⟨hkind, hreason⟩
      · cases hres'
        have hearned : Earned known .nothing r.pk r.tenant (migrateTenant r.pk opts) res s :=
          hR j r hpc hr
        exact .inl ((hearned.holds fun _ => Migrator.migrateTenant_walks ht).complete hk)
      · dsimp only
        rw [hreason]
        exact h j r hr (hkind ▸ hj)
    · cases hs
  | advance =>
    cases SeqLoop.moved_of_step hs with
    | returned _ _ => exact h.credited (l.sched.credited_drain _)
    | took _ _ =>
      exact h.credited ((l.sched.credited_drain _).trans (Sched.credited_markRunning _ _ _))
    | finished hpc res =>
      rw [SeqLoop.step, hpc] at hs
      cases hs
    | signalled => exact h
  | signal =>
    rw [SeqLoop.step] at hs
    split at hs
    · obtain rfl := Option.some.inj hs
      exact h
    · cases hs

/-- In every run of the sequential stage the entries stay truthful. -/
theorem SeqLoop.truthful_run {s₀ : Site} {l₀ : SeqLoop} (h : l₀.sched.Truthful known rows s₀)
    (ht : opts.targeted = false)
    (htrace : Trace (besides SeqLoop.step) (SequentialAllowed known opts rows) (l₀, s₀) (l, s)) :
    l.sched.Truthful known rows s :=
  htrace.invariant_besides (I := fun l s => l.sched.Truthful known rows s) h
    (fun _ _ _ hl hR => hl.grows hR) fun _ _ _ _ hl hR hs => SeqLoop.truthful_step hl ht hR hs

end Vouched

/-! ### Exit code 0 -/

section ExitZero

variable {known : Plan} {f : Flags} {rows : List Row} {e : Ending} {s : Site}

/-- Schemas that lose nothing twice lose nothing at all. -/
theorem AllGrow.trans {ts : List Migrator.Tenant} {s s₁ s₂ : Site} (h : AllGrow ts s s₁)
    (h' : AllGrow ts s₁ s₂) : AllGrow ts s s₂ :=
  fun t ht => (h t ht).trans (h' t ht)

/-- Schemas grow along a run that only changes the site so. -/
theorem allGrow_of_trace {S E : Type} {step : S → E → Option S} {R : S × Site → Site ⊕ E → Prop}
    {ts : List Migrator.Tenant} {x₀ x : S} {s₀ s : Site} (h : Trace (besides step) R (x₀, s₀) (x, s))
    (hR : ∀ y w w', R (y, w) (.inl w') → AllGrow ts w w') : AllGrow ts s₀ s :=
  h.invariant_besides (I := fun _ w => AllGrow ts s₀ w) (fun t _ => .refl t s₀)
    (fun _ _ _ hw hr => hw.trans (hR _ _ _ hr)) fun _ _ _ _ hw _ _ => hw

/-- The command exits with 0 exactly if it was not stopped, `public` was brought up to date if it
was asked for, and every entry shows a success. -/
theorem Ending.exitCode_eq_zero_iff : e.exitCode = 0 ↔ e.stopped = false ∧
    (∀ k, e.shared = some k → k = .ok ∨ k = .noop) ∧ ∀ x ∈ e.entries, x.kind.passes = true := by
  obtain ⟨shared, entries, stopped⟩ := e
  cases shared <;> cases stopped <;>
    simp [Ending.exitCode, Scheduler.exitCode, EntryKind.passes, or_iff_not_imp_left]

/-- A run that was to synchronise `public` and got through that stage leaves it migrated. -/
theorem SharedDone.migrated {k : Option Kind} (h : SharedDone known f k s) (ht : f.opts.targeted = false)
    (hpublic : f.syncPublic = true) : Migrated known publicSchema s := by
  cases h with
  | skipped hskip =>
    rw [hpublic] at hskip
    cases hskip
  | done _ hearned hres =>
    exact (hearned.holds fun _ => Migrator.migrateShared_walks ht trivial _).complete (.inl hres)

/-- The entries that a run has reported truthfully, when it exits with 0. -/
theorem Sched.Truthful.report {sched : Sched} (h : sched.Truthful known rows s)
    (hall : ∀ x ∈ sched.report rows.length, x.kind.passes = true) {i : Id} {r : Row}
    (hr : rows[i]? = some r) : Migrated known r.tenant s ∨
      ((sched.report rows.length)[i]?.map Entry.reason) = some .provisioningElsewhere ∧
        FoundProvisioning known r.pk r.tenant s := by
  have hlt : i < rows.length := (List.getElem?_eq_some_iff.mp hr).1
  have hi : (sched.report rows.length)[i]? = some (sched.entry i) := by
    simp [Sched.report, hlt]
  rw [hi]
  exact (h i r hr (hall _ (List.mem_of_getElem? hi))).imp_right fun ⟨hreason, hfound⟩ =>
    ⟨congrArg some hreason, hfound⟩

/-- The run has reported the tenant as done: it was selected in its schema, and was not left to a
provisioning elsewhere. -/
def Vouches (f : Flags) (rows : List Row) (e : Ending) (t : Migrator.Tenant) : Prop :=
  ∃ (i : Id) (r : Row), (selectTargets f.tenant f.database rows)[i]? = some r ∧
    Migrator.SameSchema r.tenant t ∧ (e.entries[i]?.map Entry.reason) ≠ some .provisioningElsewhere

/-- The shared stage of a run that exits with 0. -/
theorem RunEnds.public_migrated (h : RunEnds known f rows e s) (ht : f.opts.targeted = false)
    (hcode : e.exitCode = 0) (hpublic : f.syncPublic = true) : Migrated known publicSchema s := by
  obtain ⟨hstop, -, -⟩ := Ending.exitCode_eq_zero_iff.mp hcode
  cases h with
  | sharedFailed _ _ _ => cases hstop
  | unselected _ _ => cases hstop
  | sharedOnly _ hdone => exact hdone.migrated ht hpublic
  | noTargets _ hdone _ => exact hdone.migrated ht hpublic
  | parallel _ hdone htrace _ =>
    have hgrow : AllGrow (schemasOf (selectTargets f.tenant f.database rows)) _ _ :=
      allGrow_of_trace htrace fun _ _ _ hR => hR
    exact (hdone.migrated ht hpublic).grows (hgrow _ List.mem_cons_self)
  | sequential _ hdone hloop _ hafter _ =>
    have hgrow : AllGrow (schemasOf (selectTargets f.tenant f.database rows)) _ _ :=
      allGrow_of_trace hloop fun _ _ _ hR => hR
    have hgrow' : AllGrow (schemasOf (selectTargets f.tenant f.database rows)) _ _ :=
      allGrow_of_trace hafter fun _ _ _ hR => hR
    exact (hdone.migrated ht hpublic).grows ((hgrow.trans hgrow') _ List.mem_cons_self)

/-- The tenant stage of a run that exits with 0. -/
theorem RunEnds.tenants_migrated (h : RunEnds known f rows e s) (ht : f.opts.targeted = false)
    (hcode : e.exitCode = 0) (hon : f.syncTenant = true) {i : Id} {r : Row}
    (hr : (selectTargets f.tenant f.database rows)[i]? = some r) :
    Migrated known r.tenant s ∨ (e.entries[i]?.map Entry.reason) = some .provisioningElsewhere ∧
      FoundProvisioning known r.pk r.tenant s := by
  obtain ⟨hstop, -, hentries⟩ := Ending.exitCode_eq_zero_iff.mp hcode
  cases h with
  | sharedFailed _ _ _ => cases hstop
  | unselected _ _ => cases hstop
  | sharedOnly hoff _ =>
    rw [hoff] at hon
    cases hon
  | noTargets _ _ hnone =>
    rw [hnone] at hr
    cases hr
  | parallel _ _ htrace _ =>
    have hv : Parent.Vouched known _ _ s :=
      Parent.Vouched.run ⟨Sched.truthful_of _ _ _, fun _ _ _ _ hd => by cases hd⟩ ht htrace
    exact hv.entries.report hentries hr
  | @sequential k s₀ s₁ _ l p _ _ hloop _ hafter _ =>
    have htrue : l.sched.Truthful known _ s₁ := SeqLoop.truthful_run (Sched.truthful_of _ _ _) ht hloop
    have hv : p.Vouched known _ s :=
      Parent.Vouched.run ⟨htrue, fun _ _ _ _ hd => by cases hd⟩ ht hafter
    exact hv.entries.report hentries hr

end ExitZero

/-! ### A run over `public` and one tenant -/

section UpToDate

/-- `public` and the schema of the one tenant record every migration. -/
def upToDate : Site :=
  ⟨oneTenant acmeActive, fun a n => if (a, n) = ("shard1", "acme") ∨ (a, n) = ("default", "public") then
    some ⟨coreTwo, true⟩ else none⟩

/-- That site with one connection open. -/
def upToDateWith (a : Alias) (label : Option Pk) : Site :=
  { upToDate with world := { upToDate.world with
      backends := Function.update upToDate.world.backends 0
        (some ⟨"app-1:4312", a, label, .idle, true⟩) } }

/-- Both schemas of the site are there with all the migrations. -/
theorem upToDate_schemas {a : Alias} {n : SchemaName}
    (h : (a, n) = ("shard1", "acme") ∨ (a, n) = ("default", "public")) :
    upToDate.schemas a n = some ⟨coreTwo, true⟩ := if_pos h

/-- Its row. -/
def acmeRow : Row := ⟨1, acmeActive, true⟩

/-- A sequential run over `public` and the one tenant. -/
def bothStages : Flags := ⟨true, true, some acmeRow, none, false, 3, 1, 1, .defaults⟩

/-- A schema with both migrations has none left to apply. -/
theorem unapplied_coreTwo : (⟨coreTwo, true⟩ : Migrator.Content).unapplied coreTwo = [] := by
  simp [Migrator.Content.unapplied, coreTwo]

private theorem upToDate_put :
    upToDate.schemas.put "default" "public" (some ⟨coreTwo, true⟩) = upToDate.schemas := by
  rw [← upToDate_schemas (.inr rfl), Migrator.Schemas.put_same]

/-- The first use of an alias opens its connection. -/
theorem upToDate_opens (a : Alias) (relabel : Option Pk → Option Pk) :
    upToDate.world.Uses "app-1:4312" a .idle relabel (upToDateWith a (relabel none)).world :=
  .inr ⟨fun i b h => (by cases h), 0, rfl, rfl⟩

/-- A connection that is open is used again as it is. -/
theorem upToDateWith_uses (a : Alias) (label : Option Pk) :
    (upToDateWith a label).world.Uses "app-1:4312" a .idle id (upToDateWith a label).world :=
  .inl ⟨0, _, rfl, by simp [Migrator.World.connected], by simp [upToDateWith]⟩

private theorem upToDateWith_idle {a : Alias} {label : Option Pk} {i : Nat} {b : Migrator.Backend}
    (hb : (upToDateWith a label).world.backends i = some b) : b.state ≠ .active := by
  by_cases hi : i = 0
  · subst hi
    simp only [upToDateWith, Function.update_self, Option.some.injEq] at hb
    subst hb
    exact fun h => by cases h
  · simp [upToDateWith, hi, upToDate, oneTenant] at hb

/-- Closing the connection leaves the site as it was before it was opened. -/
theorem upToDateWith_close (a : Alias) (label : Option Pk) :
    (upToDateWith a label).world.closeConn "app-1:4312" a = upToDate.world := by
  have hb : ((upToDateWith a label).world.closeConn "app-1:4312" a).backends =
      upToDate.world.backends := by
    funext i
    by_cases hi : i = 0
    · subst hi
      simp [upToDateWith, Migrator.World.closeConn, Migrator.World.connected, upToDate, oneTenant]
    · simp [upToDateWith, Migrator.World.closeConn, hi, upToDate, oneTenant]
  rw [Migrator.World.closeConn] at hb ⊢
  dsimp only at hb
  rw [hb]
  rfl

/-- What `migrate_tenant` returns of a tenant that is up to date. -/
def acmeNoop : Result := ⟨.noop, "acme", "shard1", .upToDate, "up to date", [], none⟩

private theorem earned_noop :
    Earned coreTwo .nothing 1 acmeActive (migrateTenant 1 .defaults) acmeNoop upToDate := by
  have hshard := upToDate_schemas (.inl rfl : ("shard1", "acme") = _ ∨ _)
  have h₀ : Exec (siteSem (KeepsSchema "app-1:4312" 1 acmeActive) coreTwo "app-1:4312")
      (migrateTenant 1 .defaults) upToDate [] (migrateTenant 1 .defaults) upToDate := .start
  have h₁ := h₀.answer (.load 1) (.ok (some acmeActive)) upToDate
    ⟨_, .refl _ _ _ _, ⟨rfl, rfl, rfl⟩, trivial, rfl⟩ rfl
  have h₂ := h₁.answer (.shard "shard1" (.schemaExists "acme")) (.ok true) (upToDateWith "shard1" none)
    ⟨_, .refl _ _ _ _, ⟨trivial, .idle, by decide, upToDate_opens "shard1" id⟩,
      by rw [Migrator.Req.Finds, hshard]; rfl, rfl⟩ rfl
  have h₃ := h₂.answer (.shard "shard1" (.migrationPlan "acme")) (.ok []) (upToDateWith "shard1" none)
    ⟨_, .refl _ _ _ _, ⟨trivial, .idle, by decide, upToDateWith_uses _ _⟩,
      fun c hc => by
        obtain rfl := Option.some.inj (hshard.symm.trans hc)
        exact unapplied_coreTwo.symm, rfl⟩ rfl
  have h₄ := h₃.answer (.closeShard "shard1") (.ok ()) upToDate
    ⟨_, .refl _ _ _ _, ⟨trivial, rfl, (upToDateWith_close _ _).symm⟩, trivial, rfl⟩ rfl
  exact ⟨"app-1:4312", upToDate, _, upToDate,
    ⟨rfl, fun row hrow => by cases hrow; exact ⟨rfl, rfl⟩⟩, Fact.holds_nothing, h₄, .refl _ _⟩

private theorem earned_shared : Earned coreTwo ⟨True, True, False⟩ 0 publicSchema
    (migrateShared (.ok false) .defaults)
    ⟨.ok, "public", "default", .applied, "shared migrations applied", [], none⟩ upToDate := by
  have hdefault := upToDate_schemas (.inr rfl : _ ∨ ("default", "public") = _)
  have h₀ : Exec (siteSem (KeepsSchema "app-1:4312" 0 publicSchema) coreTwo "app-1:4312")
      (migrateShared (.ok false) .defaults) upToDate [] (migrateShared (.ok false) .defaults)
      upToDate := .start
  have h₁ := h₀.answer (.shard "default" (.openShard 0)) (.ok ()) (upToDateWith "default" (some 0))
    ⟨_, .refl _ _ _ _, ⟨trivial, .idle, by decide, upToDate_opens "default" fun _ => some 0⟩,
      trivial, rfl⟩ rfl
  have h₂ := h₁.answer
    (.shard "default" (.runMigrations (RunOptions.defaults.upstream "default") "public"))
    (.ok ()) (upToDateWith "default" (some 0))
    ⟨_, .refl _ _ _ _, ⟨trivial, .idle, by decide, upToDateWith_uses _ _⟩, trivial, 2, true, by
      rw [show (upToDateWith "default" (some 0)).schemas = upToDate.schemas from rfl, hdefault,
        Option.map_some, Migrator.Content.advance, unapplied_coreTwo]
      exact upToDate_put.symm, fun _ => by decide⟩ rfl
  have h₃ := h₂.answer (.shardIdle "default") (.ok true) (upToDateWith "default" (some 0))
    ⟨_, .refl _ _ _ _, ⟨⟨fun _ i b hb _ => upToDateWith_idle hb, fun _ => rfl⟩, rfl, rfl⟩,
      trivial, rfl⟩ rfl
  have h₄ := h₃.answer (.closeShard "default") (.ok ()) upToDate
    ⟨_, .refl _ _ _ _, ⟨trivial, rfl, (upToDateWith_close _ _).symm⟩, trivial, rfl⟩ rfl
  exact ⟨"app-1:4312", upToDate, _, upToDate,
    ⟨rfl, fun row hrow => by cases hrow⟩,
    ⟨trivial, fun _ => congrArg Option.isSome hdefault, False.elim⟩, h₄, .refl _ _⟩

/-- A run over a site that is up to date ends with 0 and reports the tenant as `up_to_date`. -/
theorem runEnds_upToDate : ∃ e, RunEnds coreTwo bothStages [acmeRow] e upToDate ∧ e.exitCode = 0 ∧
    e.entries.map Entry.reason = [.of .upToDate] := by
  have hreturns : ∀ (i : Id) (r : Row), SeqPc.running 0 = .running i → [acmeRow][i]? = some r →
      Earned coreTwo .nothing r.pk r.tenant (migrateTenant r.pk .defaults) acmeNoop upToDate := by
    intro i r hi hr
    cases hi
    cases hr
    exact earned_noop
  have hshared : SharedDone coreTwo bothStages (some .ok) upToDate := .done rfl earned_shared rfl
  refine ⟨_, .sequential rfl hshared
    (.event (.inr .advance) (.event (.inr (.returns acmeNoop))
      (.event (.inr .advance) .start trivial rfl) hreturns rfl) trivial rfl)
    rfl (.event (.inr .advance) .start trivial rfl) rfl, rfl, rfl⟩

end UpToDate

section ExitZero

variable {known : Plan} {f : Flags} {rows : List Row} {e : Ending} {s : Site}

/-- The gate after a run that exits with 0: as long as no schema loses what it records, `--check`
passes exactly when the code is not older, `public` was migrated by the run or is so anyway, and every
ACTIVE tenant is on a shard that answers and was reported as done by the run or is migrated anyway. -/
theorem gate_after_exit_zero {s' : Site} {rows' : List Row} {reach : Alias → Option Migrator.Exn}
    {told : Migrator.Told} {holders : Migrator.Holders} {older : Bool} {plan : Plan}
    (ht : f.opts.targeted = false) (h : RunEnds known f rows e s) (hcode : e.exitCode = 0)
    (hon : f.syncTenant = true)
    (hgrow : AllGrow (schemasOf (selectTargets f.tenant f.database rows)) s s')
    (hdesc : Migrator.Describes known s' rows' reach told) (holder : told.codeOlderThanDb = .ok older)
    (hplan : told.publicPlan = .ok plan)
    (hpublic : ∀ c, s'.schemas "default" "public" = some c → plan = c.unapplied known) :
    (Migrator.check told holders).outcome = .ok () ↔ older = false ∧
      (f.syncPublic = true ∨ plan = []) ∧
      ∀ pk t, s'.world.tenant pk = some t → t.schemaName ≠ "public" → t.status = .active →
        reach t.shard.dbAlias = none ∧ (Vouches f rows e t ∨ Migrated known t s') := by
  rw [hdesc.check_ok_iff holder hplan]
  refine and_congr Iff.rfl (and_congr ⟨.inr, ?_⟩ ?_)
  · rintro (hsync | hnil)
    · obtain ⟨c, hc, hall⟩ := (h.public_migrated ht hcode hsync).grows (hgrow _ List.mem_cons_self)
      rw [hpublic c hc, Migrator.Content.unapplied_eq_nil_iff.mpr hall]
    · exact hnil
  · refine forall_congr' fun pk => forall_congr' fun t => imp_congr_right fun _ =>
      imp_congr_right fun _ => imp_congr_right fun _ => and_congr Iff.rfl ⟨.inr, ?_⟩
    rintro (⟨i, r, hr, hsame, hreason⟩ | hm)
    · have hmigrated := (h.tenants_migrated ht hcode hon hr).resolve_right fun hfound =>
        hreason hfound.1
      exact (hmigrated.grows (hgrow.row hr)).same hsame
    · exact hm

/-- The gate passes after a run over `public` and the one tenant. -/
theorem gate_after_exit_zero_noop :
    (Migrator.check (Migrator.readings coreTwo upToDate [acmeRow]) []).outcome = .ok () := by
  obtain ⟨e, hrun, hcode, hreasons⟩ := runEnds_upToDate
  have hpublic : ∀ c, upToDate.schemas "default" "public" = some c →
      ([] : Plan) = c.unapplied coreTwo := by
    intro c hc
    rw [upToDate_schemas (.inr rfl)] at hc
    obtain rfl := Option.some.inj hc
    exact unapplied_coreTwo.symm
  refine (gate_after_exit_zero rfl hrun hcode rfl (fun t _ => .refl t _) (Migrator.describes_acme rfl)
    rfl rfl hpublic).mpr ⟨rfl, .inl rfl, fun pk t ht _ _ => ⟨rfl, .inl ⟨0, acmeRow, rfl, ?_, ?_⟩⟩⟩
  · have hrow : pk = 1 ∧ acmeActive = t := by simpa [upToDate, oneTenant] using ht
    obtain ⟨_, rfl⟩ := hrow
    exact ⟨rfl, rfl⟩
  · rw [← List.getElem?_map, hreasons]
    exact fun h => by cases h

end ExitZero

end MtShards.Scheduler
