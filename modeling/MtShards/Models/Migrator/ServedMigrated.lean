import MtShards.Models.Migrator.Survey

/-!
# A tenant that is served is migrated

Across all interleavings of migrators, the console, the admin and operators, with lost connections,
killed processes and statements that go on without a client: an ACTIVE tenant has a schema that
records every migration of the code, unless the console has activated it over a row that it had
loaded in another status than DEACTIVATED.
-/

namespace MtShards.Migrator

open MtShards.Core Program

variable {known : Plan} {p q : Pid} {k pk : Pk} {t₀ row : Tenant} {t : SiteTrace} {s s' : Site}
  {l : SysLabel}

/-! ### What a transaction has written -/

/-- Where a row that a transaction holds comes from. -/
inductive Staging (l : SysLabel) (p : Pid) (pk : Pk) (row : Tenant) (s : World) : Prop
  | kept (x : Tx) (tx : s.tx p = some x) (staged : x.staged = some (pk, row))
  | updated (old dest : Status) (r : Except Exn Bool) (found : Tenant)
      (label : l = .answer p (.adminUpdate pk old dest) r) (reads : s.tenantRow p pk = some found)
      (after : row = World.adminRow s.now old dest found)
  | saved (c : World.Changes) (stamp : Bool) (r : Except Exn Bool) (found : Tenant)
      (label : l = .answer p (.saveTenant pk c stamp) r) (reads : s.tenantRow p pk = some found)
      (after : row = c.row (if stamp then some s.now else none) found)

section Staging

variable {w w' : World} {x : Tx} {op : Req}

/-- A transaction that is open after another has ended was open before. -/
theorem World.endTx_tx (h : (w.endTx q).tx p = some x) : w.tx p = some x := by
  rw [World.endTx] at h
  by_cases hp : p = q
  · subst hp
    simp at h
  · simpa [hp] using h

/-- A statement that writes a tenant row of its transaction. -/
theorem World.stage_staged {f : Tenant → Tenant} (hx : (w.stage q k f).tx p = some x)
    (hst : x.staged = some (pk, row)) :
    w.tx p = some x ∨
      (p = q ∧ k = pk ∧ ∃ found, w.tenantRow p pk = some found ∧ row = f found) := by
  rw [World.stage] at hx
  split at hx
  · rename_i y found hy hfound
    by_cases hp : p = q
    · subst hp
      simp only [Function.update_self, Option.some.injEq] at hx
      subst hx
      obtain ⟨rfl, rfl⟩ := Prod.mk.inj (Option.some.inj hst)
      exact .inr ⟨rfl, rfl, found, hfound, rfl⟩
    · exact .inl (by simpa [hp] using hx)
  · exact .inl hx

/-- What a request that was carried out has staged. -/
theorem Req.apply_staging (r : Except Exn op.Ans) (hx : (op.apply q w).tx p = some x)
    (hst : x.staged = some (pk, row)) : Staging (.answer q op r) p pk row w := by
  cases htx : op.transacts with
  | false => exact .kept x (by rw [← (World.locks_eq_iff.mp (Req.apply_locks htx)).1]; exact hx) hst
  | true =>
    cases op with
    | begin =>
      by_cases hp : p = q
      · subst hp
        simp only [Req.apply, World.begin, Function.update_self, Option.some.injEq] at hx
        subst hx
        cases hst
      · exact .kept x (by simpa [Req.apply, World.begin, hp] using hx) hst
    | commit =>
      rw [Req.apply, World.commit] at hx
      split at hx
      · exact .kept x hx hst
      · exact .kept x (World.endTx_tx hx) hst
    | rollback => exact .kept x (World.endTx_tx hx) hst
    | insertLease k =>
      rw [Req.apply, World.insertLease] at hx
      split at hx
      · rename_i y hy _
        by_cases hp : p = q
        · subst hp
          simp only [Function.update_self, Option.some.injEq] at hx
          subst hx
          exact .kept y hy hst
        · exact .kept x (by simpa [hp] using hx) hst
      · exact .kept x hx hst
    | lockLease k =>
      rw [Req.apply, World.lockLease] at hx
      split at hx <;> exact .kept x hx hst
    | adminUpdate k old dest =>
      rw [Req.apply, World.adminUpdate] at hx
      split at hx
      · rcases World.stage_staged hx hst with hkept | ⟨rfl, rfl, found, hfound, rfl⟩
        · exact .kept x hkept hst
        · exact .updated old dest r found rfl hfound rfl
      · exact .kept x hx hst
    | saveTenant k c stamp =>
      rcases World.stage_staged hx hst with hkept | ⟨rfl, rfl, found, hfound, rfl⟩
      · exact .kept x hkept hst
      · exact .saved c stamp r found rfl hfound rfl
    | _ => cases htx

/-- What is staged after a step was staged before, or the step has staged it. -/
theorem acts_staging (h : machine.Acts l w w') (hx : w'.tx p = some x)
    (hst : x.staged = some (pk, row)) : Staging l p pk row w := by
  cases l with
  | start q =>
    obtain rfl : w' = w := h
    exact .kept x hx hst
  | inner q op =>
    cases op with
    | shard a r =>
      obtain ⟨st, hu⟩ := h
      exact .kept x (hu.default_eq.2.1 ▸ hx) hst
    | _ => exact absurd h id
  | answer q op r =>
    rcases exec_locks h with hkept | hended | ⟨_, hdone | hcut⟩
    · exact .kept x (by rw [← (World.locks_eq_iff.mp hkept).1]; exact hx) hst
    · exact .kept x (World.endTx_tx (by rw [← (World.locks_eq_iff.mp hended).1]; exact hx)) hst
    · exact Req.apply_staging r (by rw [← (World.locks_eq_iff.mp hdone).1]; exact hx) hst
    · exact Req.apply_staging r
        (World.endTx_tx (by rw [← (World.locks_eq_iff.mp hcut).1]; exact hx)) hst
  | env =>
    rcases h with ⟨n, _, rfl⟩ | ⟨i, b, _, _, rfl⟩ | ⟨k, _, rfl⟩ <;> exact .kept x hx hst
  | kill q =>
    obtain rfl : w' = w.kill q := h
    exact .kept x (World.endTx_tx hx) hst

end Staging

/-! ### What was loaded -/

/-- The row that a step has loaded. -/
def loadOf : SysLabel → Option (Pid × Pk × Option Tenant)
  | .answer q (.load k) (.ok row) => some (q, k, row)
  | _ => none

/-- The status of the row of the tenant that `p` has loaded last. -/
def lastLoad (p : Pid) (pk : Pk) : SiteTrace → Option Status
  | [] => none
  | e :: t =>
    match loadOf e.label with
    | some (q, k, row) => if q = p ∧ k = pk then row.map Tenant.status else lastLoad p pk t
    | none => lastLoad p pk t

/-- The console has activated the tenant over a row that it had loaded in a status in which the
schema may be missing or behind. -/
def ActivatedUnseen (pk : Pk) (t : SiteTrace) : Prop :=
  ∃ later e earlier p r st, t = later ++ e :: earlier ∧
    e.label = .answer p (.consoleUpdate pk .deactivated .active) r ∧
    e.pre.world.status pk = some .deactivated ∧ lastLoad p pk earlier = some st ∧
    (st = .new ∨ st = .pending ∨ st = .failed)

/-- An activation that was not seen stays so in a longer run. -/
theorem ActivatedUnseen.cons {e : SiteEntry} (h : ActivatedUnseen pk t) :
    ActivatedUnseen pk (e :: t) := by
  obtain ⟨later, e', earlier, p, r, st, rfl, hrest⟩ := h
  exact ⟨e :: later, e', earlier, p, r, st, rfl, hrest⟩

private theorem lastLoad_load {r : Option Tenant} :
    lastLoad p pk (⟨.answer p (.load pk) (.ok r), s, s'⟩ :: t) = r.map Tenant.status := by
  simp [lastLoad, loadOf]

private theorem lastLoad_of_ne (h : l.actor ≠ some p) :
    lastLoad p pk (⟨l, s, s'⟩ :: t) = lastLoad p pk t := by
  rw [lastLoad]
  split
  · rename_i q k row hload
    rw [if_neg]
    rintro ⟨rfl, rfl⟩
    refine h ?_
    cases l with
    | answer q' op r =>
      cases op with
      | load k' => cases r with
        | ok row' =>
          cases hload
          rfl
        | error e => cases hload
      | _ => cases hload
    | _ => cases hload
  · rfl

private theorem lastLoad_answer {op : Req} {r : Except Exn op.Ans} (h : ∀ k, op ≠ .load k) :
    lastLoad p pk (⟨.answer q op r, s, s'⟩ :: t) = lastLoad p pk t := by
  cases op with
  | load k => exact absurd rfl (h k)
  | _ => rfl

/-- What an answer adds to what was seen. -/
inductive Survey.Learns (φ : Survey) : (op : Req) → Except Exn op.Ans → Survey → Prop
  | kept (op : Req) (r : Except Exn op.Ans) (h : ∀ k, op ≠ .load k) : Learns φ op r φ
  | forgot (op : Req) (r : Except Exn op.Ans) : Learns φ op r .blank
  | loads (k : Pk) (row : Tenant) : Learns φ (.load k) (.ok (some row)) (.loaded k row)
  | finds (k : Pk) (row : Tenant) (h : φ = .loaded k row) :
    Learns φ (.shard row.shard.dbAlias (.schemaExists row.schemaName)) (.ok true) (.found k row)
  | completes (k : Pk) (row : Tenant) (h : φ = .found k row) :
    Learns φ (.shard row.shard.dbAlias (.migrationPlan row.schemaName)) (.ok []) (.complete k row)

/-- Every answer teaches a survey what it says. -/
theorem Survey.learns (φ : Survey) (op : Req) (r : Except Exn op.Ans) :
    φ.Learns op r (φ.next op r) := by
  by_cases hload : ∃ k, op = .load k
  · obtain ⟨k, rfl⟩ := hload
    rw [Survey.next_load]
    match r with
    | .error e => exact .forgot _ _
    | .ok none => exact .forgot _ _
    | .ok (some row) => exact .loads k row
  · replace hload : ∀ k, op ≠ .load k := fun k hop => hload ⟨k, hop⟩
    cases φ with
    | blank =>
      rw [Survey.next, Survey.otherNext_eq _ hload]
      exact .kept op r hload
    | loaded k row =>
      simp only [Survey.next, Survey.loadedNext.eq_def]
      split
      · exact absurd rfl (hload _)
      · split
        · rename_i hthere
          obtain ⟨rfl, rfl, rfl⟩ := hthere
          exact .finds k row rfl
        · exact .kept _ _ hload
      · exact .kept _ _ hload
    | found k row =>
      simp only [Survey.next, Survey.foundNext.eq_def]
      split
      · exact absurd rfl (hload _)
      · split
        · rename_i hplan
          obtain ⟨rfl, rfl, rfl⟩ := hplan
          exact .completes k row rfl
        · exact .kept _ _ hload
      · exact .kept _ _ hload
    | complete k row =>
      rw [Survey.next, Survey.otherNext_eq _ hload]
      exact .kept op r hload

/-! ### The invariant -/

/-- A row of the tenant is at its place, and migrated if it is ACTIVE. -/
structure Sound (known : Plan) (t₀ row : Tenant) (s : Site) : Prop where
  same : SameSchema t₀ row
  active : row.status = .active → Migrated known t₀ s

/-- A row stays sound while its schema keeps what it records. -/
theorem Sound.grows (h : Sound known t₀ row s) (hg : Grows t₀ s s') : Sound known t₀ row s' :=
  ⟨h.same, fun hst => (h.active hst).grows hg⟩

/-- What a process has seen of the tenant is true; `last` is the status it has loaded last. -/
def Survey.Holds (known : Plan) (pk : Pk) (t₀ : Tenant) (last : Option Status) (s : Site) :
    Survey → Prop
  | .blank => True
  | .loaded k row => k = pk → Sound known t₀ row s ∧ last = some row.status
  | .found k row => k = pk →
    SameSchema t₀ row ∧ (s.schemas t₀.shard.dbAlias t₀.schemaName).isSome = true
  | .complete k _ => k = pk → Migrated known t₀ s

/-- What a survey has found holds while the schema keeps what it records. -/
theorem Survey.Holds.grows {last : Option Status} {φ : Survey} (h : φ.Holds known pk t₀ last s)
    (hg : Grows t₀ s s') : φ.Holds known pk t₀ last s' := by
  cases φ with
  | blank => trivial
  | loaded k row => exact fun hk => ⟨(h hk).1.grows hg, (h hk).2⟩
  | found k row =>
    intro hk
    obtain ⟨c, hc⟩ := Option.isSome_iff_exists.mp (h hk).2
    obtain ⟨c', hc', _⟩ := hg c hc
    exact ⟨(h hk).1, by rw [hc', Option.isSome_some]⟩
  | complete k row => exact fun hk => (h hk).grows hg

/-- What the processes have seen of the tenant is true; its rows, committed or not, are sound. -/
structure Served (known : Plan) (pk : Pk) (t₀ : Tenant) (t : SiteTrace) (s : Site) : Prop where
  row : ∀ row, s.world.tenant pk = some row → Sound known t₀ row s
  staged : ∀ p x row, s.world.tx p = some x → x.staged = some (pk, row) → Sound known t₀ row s
  seen : ∀ p, (phaseAt survey p t).Holds known pk t₀ (lastLoad p pk t) s

section Step

/-- A row that a process reads is sound, its own uncommitted one included. -/
theorem Served.reads (h : Served known pk t₀ t s) (hrow : s.world.tenantRow p pk = some row) :
    Sound known t₀ row s := by
  rw [World.tenantRow] at hrow
  split at hrow
  · rename_i hx
    split at hrow
    · rename_i hk
      subst hk
      cases hrow
      exact h.staged p _ _ hx rfl
    · exact h.row row hrow
  · exact h.row row hrow

/-- A status write that is vouched for, unless the console goes past the look. -/
theorem Served.vouched (h : Served known pk t₀ t s) {op : Req} (hop : op.subject = some pk)
    (hv : (phaseAt survey p t).vouches op)
    (hseen : ∀ dest st, op = .consoleUpdate pk .deactivated dest → lastLoad p pk t = some st →
      ¬ (st = .new ∨ st = .pending ∨ st = .failed)) : Migrated known t₀ s := by
  have hknows := h.seen p
  obtain ⟨k, row, hk, hφ | ⟨hφ, dest, hdest, hdeactivated, hmaint⟩⟩ := Survey.vouches_cases hv
  · obtain rfl := Option.some.inj (hk.symm.trans hop)
    rw [hφ] at hknows
    exact hknows rfl
  · obtain rfl := Option.some.inj (hk.symm.trans hop)
    rw [hφ] at hknows
    obtain ⟨hsound, hload⟩ := hknows rfl
    have hstatus := hseen dest row.status hdest hload
    refine hsound.active ?_
    cases hst : row.status <;> simp_all

/-- A tame request makes nobody ACTIVE, any other is vouched for. -/
theorem Served.activates (h : Served known pk t₀ t s) {op : Req} (hop : op.subject = some pk)
    (hp : survey.permits (phaseAt survey p t) op) (htame : ¬ op.tame)
    (hseen : ∀ dest, op ≠ .consoleUpdate pk .deactivated dest) : Migrated known t₀ s :=
  h.vouched hop (hp.resolve_left htame) fun dest _ heq => absurd heq (hseen dest)

/-- The committed row after a step. -/
theorem Served.row_step (h : Served known pk t₀ t s) (hm : Move (siteMachine known) survey t s l s')
    (hg : Grows t₀ s s') (hseen : ¬ ActivatedUnseen pk (⟨l, s, s'⟩ :: t))
    (hrow : s'.world.tenant pk = some row) : Sound known t₀ row s' := by
  cases acts_tenantChange pk (site_acts hm.acts) with
  | kept hkept => exact (h.row row (hkept ▸ hrow)).grows hg
  | fenced p expected w r hlabel _ _ hnew =>
    subst hlabel
    obtain ⟨found, hfound, rfl⟩ := Option.map_eq_some_iff.mp (hnew.symm.trans hrow)
    have hsame := (h.row found hfound).same
    refine ⟨⟨hsame.schemaName, hsame.shard⟩, fun hst => Migrated.grows ?_ hg⟩
    exact h.activates rfl hm.permits (fun htame => htame hst) nofun
  | console p source dest r hlabel hstatus _ hnew =>
    subst hlabel
    obtain ⟨found, hfound, rfl⟩ := Option.map_eq_some_iff.mp (hnew.symm.trans hrow)
    have hsame := (h.row found hfound).same
    refine ⟨⟨hsame.schemaName, hsame.shard⟩, fun hst => ?_⟩
    obtain rfl : dest = .active := hst
    have hvouches := hm.permits.resolve_left fun htame : Req.tame _ => htame rfl
    refine Migrated.grows (h.vouched rfl hvouches fun dest' st hop hload hold => ?_) hg
    cases hop
    exact hseen ⟨[], _, t, p, r, st, rfl, rfl, hstatus, hload, hold⟩
  | committed p x new hlabel htx hstaged hnew =>
    obtain rfl := Option.some.inj (hnew.symm.trans hrow)
    exact (h.staged p x new htx hstaged).grows hg
  | deleted _ _ hnone => cases hnone.symm.trans hrow

/-- A row of an open transaction after a step. -/
theorem Served.staged_step (h : Served known pk t₀ t s)
    (hm : Move (siteMachine known) survey t s l s') (hg : Grows t₀ s s') {x : Tx}
    (hx : s'.world.tx p = some x) (hst : x.staged = some (pk, row)) : Sound known t₀ row s' := by
  cases acts_staging (site_acts hm.acts) hx hst with
  | kept x hx hst => exact (h.staged p x row hx hst).grows hg
  | updated old dest r found hlabel hreads hafter =>
    subst hlabel hafter
    have hsame := (h.reads hreads).same
    refine ⟨⟨hsame.schemaName, hsame.shard⟩, fun hactive => ?_⟩
    obtain rfl : dest = .active := hactive
    exact (h.activates rfl hm.permits (fun htame => htame rfl) nofun).grows hg
  | saved c stamp r found hlabel hreads hafter =>
    subst hlabel hafter
    have hsound := h.reads hreads
    have hshard : c.shard = none := Survey.tame_of_permits hm.permits rfl
    refine ⟨⟨hsound.same.schemaName, ?_⟩, fun hactive => (hsound.active hactive).grows hg⟩
    rw [World.Changes.row, hshard]
    exact hsound.same.shard

/-- What an answer tells its process about the tenant. -/
theorem Served.answer_step (h : Served known pk t₀ t s) (hg : Grows t₀ s s') {op : Req}
    {r : Except Exn op.Ans} {φ : Survey} (he : (siteMachine known).exec p op s r s')
    (hφ : (phaseAt survey p t).Learns op r φ) :
    φ.Holds known pk t₀ (lastLoad p pk (⟨.answer p op r, s, s'⟩ :: t)) s' := by
  obtain ⟨hexec, hfinds, _⟩ := he
  have hknows := h.seen p
  cases hφ with
  | kept op r hload =>
    rw [lastLoad_answer hload]
    exact hknows.grows hg
  | forgot op r => trivial
  | loads k row =>
    rintro rfl
    obtain ⟨hreads, _⟩ := hexec
    exact ⟨(h.reads hreads.symm).grows hg, lastLoad_load⟩
  | finds k row hφ =>
    rw [hφ] at hknows
    refine Survey.Holds.grows (fun hk => ?_) hg
    have hsame := (hknows hk).1.same
    exact ⟨hsame, by rw [← hsame.shard, ← hsame.schemaName]; exact hfinds.symm⟩
  | completes k row hφ =>
    rw [hφ] at hknows
    refine Survey.Holds.grows (fun hk => ?_) hg
    obtain ⟨hsame, hsome⟩ := hknows hk
    obtain ⟨c, hc⟩ := Option.isSome_iff_exists.mp hsome
    have hplan : [] = c.unapplied known :=
      hfinds c (by rw [hsame.shard, hsame.schemaName]; exact hc)
    exact ⟨c, hc, Content.unapplied_eq_nil_iff.mp hplan.symm⟩

/-- A step keeps the invariant, unless the console goes past the look. -/
theorem Served.step (h : Served known pk t₀ t s) (hm : Move (siteMachine known) survey t s l s')
    (hseen : ¬ ActivatedUnseen pk (⟨l, s, s'⟩ :: t)) :
    Served known pk t₀ (⟨l, s, s'⟩ :: t) s' := by
  have hg : Grows t₀ s s' :=
    grows_of_move hm (fun φ a o n hp => Survey.tame_of_permits hp rfl) t₀
  refine ⟨fun row => h.row_step hm hg hseen, fun p x row => h.staged_step hm hg, fun p => ?_⟩
  cases hm.part p with
  | other hl hphase =>
    rw [hphase, lastLoad_of_ne hl]
    exact (h.seen p).grows hg
  | start _ hphase =>
    rw [hphase]
    trivial
  | inner op hl hphase =>
    subst hl
    rw [hphase]
    exact (h.seen p).grows hg
  | answer op r hl hphase _ he =>
    subst hl
    exact h.answer_step hg he (hphase ▸ Survey.learns _ op r)
  | kill _ hphase =>
    rw [hphase]
    trivial

end Step

/-- Along a run. -/
theorem served_of_run {s₀ : Site} {c : SiteConfig} (h : SiteRun known s₀ t c)
    (h₀ : ∀ row, s₀.world.tenant pk = some row → Sound known t₀ row s₀)
    (hseen : ¬ ActivatedUnseen pk t) : Served known pk t₀ t c.shared := by
  refine Run.invariant inPlace_survey (fun t s => ¬ ActivatedUnseen pk t → Served known pk t₀ t s)
    ?_ ?_ h.2 hseen
  · refine fun _ => ⟨h₀, fun p x row hx => ?_, fun _ => trivial⟩
    rw [h.1.tx p] at hx
    cases hx
  · exact fun t s l s' ih hm hseen => (ih fun hbefore => hseen hbefore.cons).step hm hseen

/-- A tenant that is served is migrated: in every state of every interleaving the schema of an
ACTIVE tenant records every migration of the code, if it did at the start. The one exception is a
tenant that the console has activated over a row that it had loaded as NEW, PENDING or FAILED,
which skips the stopper. -/
theorem active_migrated {s₀ : Site} {c : SiteConfig} (h : SiteRun known s₀ t c)
    (h₀ : ∀ row, s₀.world.tenant pk = some row → row.status = .active → Migrated known row s₀)
    (hrow : c.shared.world.tenant pk = some row) (hactive : row.status = .active) :
    Migrated known row c.shared ∨ ActivatedUnseen pk t := by
  by_cases hseen : ActivatedUnseen pk t
  · exact .inr hseen
  · refine .inl ?_
    -- the place of the tenant is that of its first row
    have hsound : ∀ row', s₀.world.tenant pk = some row' →
        Sound known ((s₀.world.tenant pk).getD row) row' s₀ := by
      intro row' hrow'
      rw [hrow', Option.getD_some]
      exact ⟨⟨rfl, rfl⟩, h₀ row' hrow'⟩
    have hlast := (served_of_run h hsound hseen).row row hrow
    exact (hlast.active hactive).same hlast.same

/-- One tenant in the given status, and what its schema records. -/
def oneSchema (status : Status) (applied : Plan) : Site :=
  ⟨oneTenant { acme with status := status }, fun a n =>
    if (a, n) = ("shard1", "acme") then some ⟨applied, true⟩ else none⟩

/-- The one schema of the site is that of the tenant. -/
theorem oneSchema_acme {status : Status} {applied : Plan} :
    (oneSchema status applied).schemas "shard1" "acme" = some ⟨applied, true⟩ := by
  simp [oneSchema]

private theorem oneSchema_exists {status : Status} {applied : Plan} :
    true = ((oneSchema status applied).schemas "shard1" "acme").isSome := by
  rw [oneSchema_acme, Option.isSome_some]

private theorem oneSchema_plan (status : Status) (c : Content)
    (hc : (oneSchema status coreTwo).schemas "shard1" "acme" = some c) :
    [] = c.unapplied coreTwo := by
  cases oneSchema_acme.symm.trans hc
  simp [Content.unapplied, coreTwo]

/-- The console activates a tenant that is up to date. -/
theorem active_migrated_console : ∃ t c, SiteRun coreTwo (oneSchema .deactivated coreTwo) t c ∧
    ∃ row, c.shared.world.tenant 1 = some row ∧ row.status = .active ∧
      (Migrated coreTwo row c.shared ∨ ActivatedUnseen 1 t) := by
  have r0 : Run (siteMachine coreTwo) (fun _ => InPlace) (.idle (oneSchema .deactivated coreTwo)) []
    (.idle (oneSchema .deactivated coreTwo)) := .nil
  have r1 := r0.start "web-1:10" (.activate 1) rfl
  have r2 := site_answer r1 "web-1:10" (.load 1) (.ok (some { acme with status := .deactivated }))
    ⟨rfl, rfl, rfl⟩ trivial rfl rfl
  have r3 := site_answer r2 "web-1:10" .codeOlderThanDb (.ok false) ⟨trivial, rfl, rfl⟩ trivial rfl
    rfl
  have r4 := site_answer r3 "web-1:10" (.shard "shard1" (.schemaExists "acme")) (.ok true)
    ⟨trivial, .idle, nofun, .inr ⟨nofun, 0, rfl, rfl⟩⟩ oneSchema_exists rfl rfl
  have r5 := site_answer r4 "web-1:10" (.shard "shard1" (.migrationPlan "acme")) (.ok [])
    ⟨trivial, .idle, nofun, .inl ⟨0, _, rfl, rfl, rfl⟩⟩ (oneSchema_plan .deactivated) rfl rfl
  have r6 := site_answer r5 "web-1:10" (.closeShard "shard1") (.ok ()) ⟨trivial, rfl, rfl⟩ trivial
    rfl rfl
  have r7 := site_answer r6 "web-1:10" (.consoleUpdate 1 .deactivated .active) (.ok true)
    ⟨rfl, rfl, rfl⟩ trivial rfl rfl
  have hrun : SiteRun coreTwo _ _ _ := ⟨oneTenant_quiet _, r7⟩
  refine ⟨_, _, hrun, _, rfl, rfl, active_migrated hrun ?_ rfl rfl⟩
  rintro row ⟨⟩ hst
  cases hst

/-- The change form of a tenant with no change but its status. -/
def moveTo (old dest : String) : Submission :=
  ⟨1, some old, some dest, false, ⟨none, none, none, none⟩, false⟩

/-- The exception is real: the console loads a FAILED tenant, an admin takes it to MAINTENANCE and
then to DEACTIVATED, and the conditional update of the console makes it ACTIVE with a schema that is
behind. -/
theorem activated_unseen : ∃ t c, SiteRun coreTwo (oneSchema .failed []) t c ∧
    ∃ row, c.shared.world.tenant 1 = some row ∧ row.status = .active ∧
      ¬ Migrated coreTwo row c.shared := by
  have r0 : Run (siteMachine coreTwo) (fun _ => InPlace) (.idle (oneSchema .failed [])) []
    (.idle (oneSchema .failed [])) := .nil
  have r1 := r0.start "web-1:10" (.activate 1) rfl
  have r2 := site_answer r1 "web-1:10" (.load 1) (.ok (some { acme with status := .failed }))
    ⟨rfl, rfl, rfl⟩ trivial rfl rfl
  have r3 := r2.start "web-2:20" (.adminChange (moveTo "failed" "maintenance") rfl) rfl
  have r4 := site_answer r3 "web-2:20" .begin (.ok ()) ⟨trivial, rfl, rfl⟩ trivial rfl rfl
  have r5 := site_answer r4 "web-2:20" (.load 1) (.ok (some { acme with status := .failed }))
    ⟨rfl, rfl, rfl⟩ trivial rfl rfl
  have r6 := site_answer r5 "web-2:20" (.leaseHolder 1) (.ok none) ⟨rfl, rfl, rfl⟩ trivial rfl rfl
  have r7 := site_answer r6 "web-2:20" (.insertLease 1) (.ok ()) ⟨trivial, rfl, rfl⟩ trivial rfl rfl
  have r8 := site_answer r7 "web-2:20" (.lockLease 1) (.ok none) ⟨rfl, rfl, rfl⟩ trivial rfl rfl
  have r9 := site_answer r8 "web-2:20" (.adminUpdate 1 .failed .maintenance) (.ok true)
    ⟨rfl, rfl, rfl⟩ trivial rfl rfl
  have r10 := site_answer r9 "web-2:20" .commit (.ok ()) ⟨trivial, rfl, rfl⟩ trivial rfl rfl
  have r11 := site_answer r10 "web-2:20" (.forgetTenant 1) (.ok ()) ⟨trivial, rfl, rfl⟩ trivial rfl
    rfl
  have r12 := r11.start "web-2:20" (.adminChange (moveTo "maintenance" "deactivated") rfl) rfl
  have r13 := site_answer r12 "web-2:20" .begin (.ok ()) ⟨trivial, rfl, rfl⟩ trivial rfl rfl
  have r14 := site_answer r13 "web-2:20" (.load 1)
    (.ok (some { acme with status := .maintenance, previousStatus := .failed }))
    ⟨rfl, rfl, rfl⟩ trivial rfl rfl
  have r15 := site_answer r14 "web-2:20" (.adminUpdate 1 .maintenance .deactivated) (.ok true)
    ⟨rfl, rfl, rfl⟩ trivial rfl rfl
  have r16 := site_answer r15 "web-2:20" .commit (.ok ()) ⟨trivial, rfl, rfl⟩ trivial rfl rfl
  have r17 := site_answer r16 "web-1:10" (.consoleUpdate 1 .deactivated .active) (.ok true)
    ⟨rfl, rfl, rfl⟩ trivial rfl rfl
  refine ⟨_, _, ⟨oneTenant_quiet _, r17⟩, _, rfl, rfl, ?_⟩
  rintro ⟨c, hc, hall⟩
  have hbehind : (oneSchema .failed []).schemas "shard1" "acme" = some ⟨[], true⟩ := oneSchema_acme
  cases hbehind.symm.trans hc
  have hmem : ("core", "0001_initial") ∈ coreTwo := by simp [coreTwo]
  exact List.not_mem_nil (hall _ hmem)

end MtShards.Migrator
