import MtShards.Models.Migrator.Fencing
import MtShards.Models.Migrator.Inventory

/-!
# What the outcome of a provisioning says

`_provision` runs under a lease that it keeps, while nobody else writes the status. Its
`Result` speaks about what was committed: it is `ok` exactly when the tenant was made ACTIVE,
it carries `conn_error` only for a tenant that is still to be provisioned, and every committed
end of the provisioning was followed by an invalidation of the cache. All of that holds
exactly when no invalidation raises and no committed end is cut off from its answer: the same
handler catches what is raised before and after the commit.
-/

namespace MtShards.Migrator

open MtShards.Core Program

variable {p : Pid} {pk : Pk} {t : Tenant} {opts : RunOptions} {c : Target} {s s' m : World}
  {st : Status}

/-! ### Status writes of a leaseholder -/

/-- Others leave the status of the tenant and the owner of its lease alone. -/
structure Undisturbed (pk : Pk) (s m : World) : Prop where
  status : m.status pk = s.status pk
  owner : m.leaseOwner pk = s.leaseOwner pk

/-- The requests of `p`, with anything else that others may do in between. -/
def provisionSem (p : Pid) (pk : Pk) : Semantics Req Req.Ans Exn World :=
  fun op s r s' => ∃ m, Undisturbed pk s m ∧ machine.exec p op m r s'

/-- `p` holds the lease of a tenant in the given status. -/
structure Standing (p : Pid) (pk : Pk) (s : World) (st : Status) : Prop where
  status : s.status pk = some st
  owner : s.leaseOwner pk = some p

/-- What others may do leaves a leaseholder its lease and the tenant its status. -/
theorem Standing.undisturbed (h : Standing p pk s st) (hm : Undisturbed pk s m) :
    Standing p pk m st := ⟨hm.status.trans h.status, hm.owner.trans h.owner⟩

/-- A step that commits nothing leaves a leaseholder its lease and the tenant its status. -/
theorem Standing.of_committed (h : Standing p pk s st) (hs : s'.committed = s.committed) :
    Standing p pk s' st := by
  obtain ⟨hlease, htenant, _⟩ := World.committed_eq_iff.mp hs
  constructor
  · rw [World.status, htenant]
    exact h.status
  · rw [World.leaseOwner, hlease]
    exact h.owner

/-- The requests of `_provision` other than its status writes and invalidations. -/
def Req.neutral : Req → Prop
  | .codeOlderThanDb | .casLostRow _ | .shard _ _ | .closeShard _ => True
  | _ => False

/-- A neutral request writes no status. -/
theorem Req.neutral_writes {op : Req} (h : op.neutral) : op.writes = false := by
  cases op with
  | codeOlderThanDb => rfl
  | casLostRow k => rfl
  | shard a q => rfl
  | closeShard a => rfl
  | _ => exact h.elim

/-- A request that writes no row leaves a leaseholder where it stands. -/
theorem Standing.of_exec {op : Req} {r : Except Exn op.Ans} (h : Standing p pk m st)
    (hop : op.writes = false) (he : machine.exec p op m r s') : Standing p pk s' st := by
  rcases exec_committed he with hkept | ⟨_, happly⟩
  · exact h.of_committed hkept
  · exact h.of_committed (happly.trans (Req.apply_committed hop))

/-- The fence of a leaseholder holds exactly if the status is an expected one. -/
theorem Standing.fenceHolds (h : Standing p pk m st) (expected : List Status) :
    m.fenceHolds p pk expected = decide (st ∈ expected) := by
  obtain ⟨row, hrow, hst⟩ := Option.map_eq_some_iff.mp h.status
  rw [World.fenceHolds, hrow]
  dsimp only
  rw [hst, h.owner, decide_eq_true rfl, Bool.and_true]

/-- A status write that its fence lets through. -/
theorem Standing.fencedCas {expected : List Status} (h : Standing p pk m st) (hst : st ∈ expected)
    (w : World.StatusWrite) : Standing p pk (m.fencedCas p pk expected w) w.status := by
  obtain ⟨row, hrow, _⟩ := Option.map_eq_some_iff.mp h.status
  rw [World.fencedCas, h.fenceHolds, if_pos (decide_eq_true hst)]
  constructor
  · rw [World.status, hrow]
    simp only [Option.map_some, Function.update_self]
    rfl
  · exact h.owner

/-- What a status write answers, and what it leaves. -/
inductive CasEnds (p : Pid) (pk : Pk) (st : Status) (expected : List Status) (next : Status) :
    Except Exn Bool → World → Prop
  | won (s' : World) (expects : st ∈ expected) (after : Standing p pk s' next) :
    CasEnds p pk st expected next (.ok true) s'
  | lost (s' : World) (unexpected : st ∉ expected) (after : Standing p pk s' st) :
    CasEnds p pk st expected next (.ok false) s'
  | raised (e : Exn) (s' : World) (after : Standing p pk s' st) :
    CasEnds p pk st expected next (.error e) s'
  /-- The write is carried out, and its answer does not get through. -/
  | unheard (e : Exn) (s' : World) (conn : e.connError = true) (expects : st ∈ expected)
      (after : Standing p pk s' next) : CasEnds p pk st expected next (.error e) s'

/-- A status write of a leaseholder ends in one of the ways of `CasEnds`. -/
theorem casEnds_of_exec {expected : List Status} {w : World.StatusWrite} {r : Except Exn Bool}
    (h : Standing p pk m st) (he : machine.exec p (.fencedCas pk expected w) m r s') :
    CasEnds p pk st expected w.status r s' := by
  have happlied : ∀ s', s'.committed = (m.fencedCas p pk expected w).committed →
      (st ∈ expected ∧ Standing p pk s' w.status) ∨ (st ∉ expected ∧ Standing p pk s' st) := by
    intro s' hs
    by_cases hst : st ∈ expected
    · exact .inl ⟨hst, (h.fencedCas hst w).of_committed hs⟩
    · refine .inr ⟨hst, h.of_committed ?_⟩
      rw [hs, World.fencedCas, h.fenceHolds, if_neg (by simp [hst])]
  cases r with
  | ok won =>
    obtain ⟨hans, _, hs⟩ := he
    have hwon : won = decide (st ∈ expected) := hans.trans (h.fenceHolds expected)
    rcases happlied s' (congrArg World.committed hs) with ⟨hst, hafter⟩ | ⟨hst, hafter⟩
    · rw [hwon, decide_eq_true hst]
      exact .won s' hst hafter
    · rw [hwon, decide_eq_false hst]
      exact .lost s' hst hafter
  | error e =>
    rcases he.2 with hs | ⟨hconn, hs | ⟨_, hs⟩⟩
    · exact .raised e s' (h.of_committed (congrArg World.committed hs))
    · exact .raised e s' (h.of_committed ((congrArg World.committed hs).trans rfl))
    · rcases happlied s' ((congrArg World.committed hs).trans rfl) with ⟨hst, hafter⟩ | ⟨hst, hafter⟩
      · exact .unheard e s' hconn hst hafter
      · exact .raised e s' hafter

/-! ### What a log tells -/

/-- The log of a provisioning, newest request first. -/
abbrev ProvisionLog := List (Taken Req Req.Ans Exn World)

variable {l l' : ProvisionLog} {x : Taken Req Req.Ans Exn World}

/-- The request has changed the committed status to the given one. -/
def Shifts (pk : Pk) (next : Status) (x : Taken Req Req.Ans Exn World) : Prop :=
  x.pre.status pk ≠ some next ∧ x.post.status pk = some next

/-- The request has committed an end of the provisioning. -/
def Ends (pk : Pk) (x : Taken Req Req.Ans Exn World) : Prop :=
  Shifts pk .active x ∨ Shifts pk .failed x

/-- The first check that the code is not older than the database. -/
def notOlder : Taken Req Req.Ans Exn Unit := ⟨.codeOlderThanDb, .ok false, (), ()⟩

/-- The latest requests are a run of the migrations that returned, a plan that is empty, and a
check, not the first one, that the code is not older than the database. -/
def ChecksDone (t : Tenant) (opts : RunOptions) (l : ProvisionLog) : Prop :=
  ∃ rest, answers l = notOlder :: ⟨.closeShard t.shard.dbAlias, .ok (), (), ()⟩ ::
    ⟨.shard t.shard.dbAlias (.migrationPlan t.schemaName), .ok [], (), ()⟩ ::
    ⟨.shard t.shard.dbAlias (.schemaExists t.schemaName), .ok true, (), ()⟩ ::
    ⟨.shard t.shard.dbAlias (.runMigrations (opts.upstream t.shard.dbAlias) t.schemaName),
      .ok (), (), ()⟩ :: rest ∧ notOlder ∈ rest

/-- ACTIVE is committed only right after the checks. -/
def ActiveChecked (pk : Pk) (t : Tenant) (opts : RunOptions) (l : ProvisionLog) : Prop :=
  ∀ later x earlier, l = later ++ x :: earlier → Shifts pk .active x → ChecksDone t opts earlier

/-- Every committed end is followed by an invalidation that returned. -/
def Invalidated (pk : Pk) (l : ProvisionLog) : Prop :=
  ∀ later x earlier, l = later ++ x :: earlier → Ends pk x →
    ∃ y ∈ later, y.op = .forgetTenant pk ∧ ¬ y.Raised

/-- A `Result` is `ok` exactly when the run has made the tenant ACTIVE. -/
def OkMeansActive (pk : Pk) (l : ProvisionLog) (res : Result) : Prop :=
  res.kind = .ok ↔ ∃ x ∈ l, x.pre.status pk = some .pending ∧ x.post.status pk = some .active

/-- A `Result` with `conn_error` is for a tenant that is still to be provisioned. -/
def ConnErrorResumable (pk : Pk) (s : World) (res : Result) : Prop :=
  res.connError ≠ none → s.status pk = some .new ∨ s.status pk = some .pending

/-- No invalidation has raised, and every committed end was answered. -/
def Heard (pk : Pk) (l : ProvisionLog) : Prop :=
  ∀ x ∈ l, x.op = .forgetTenant pk ∨ Ends pk x → ¬ x.Raised

/-- Before the first request nothing was committed. -/
theorem ActiveChecked.nil : ActiveChecked pk t opts [] := by
  intro later x earlier h
  simp at h

/-- A further request keeps ACTIVE behind the checks, if it commits ACTIVE only after them. -/
theorem ActiveChecked.cons (h : ActiveChecked pk t opts l)
    (hx : Shifts pk .active x → ChecksDone t opts l) : ActiveChecked pk t opts (x :: l) := by
  rintro (_ | ⟨y, later⟩) z earlier heq hz
  · cases heq
    exact hx hz
  · cases heq
    exact h later z earlier rfl hz

/-! ### Where a provisioning stands -/

/-- Nothing has ended yet, and nothing was invalidated. -/
structure Open (p : Pid) (pk : Pk) (t : Tenant) (opts : RunOptions) (st : Status)
    (l : ProvisionLog) (s : World) : Prop where
  standing : Standing p pk s st
  unfinished : st = .new ∨ st = .pending
  log : ∀ x ∈ l, ¬ Ends pk x ∧ x.op ≠ .forgetTenant pk
  active : ActiveChecked pk t opts l

/-- An end was committed whose answer, or whose invalidation, has raised. -/
structure Broken (p : Pid) (pk : Pk) (t : Tenant) (opts : RunOptions) (st : Status)
    (l : ProvisionLog) (s : World) : Prop where
  standing : Standing p pk s st
  ended : st ≠ .pending
  unheard : ¬ Heard pk l
  stale : ¬ Invalidated pk l
  active : ActiveChecked pk t opts l

/-- A request that keeps the status shifts nothing. -/
theorem not_shifts_of_standing {op : Req} {r : Except Exn op.Ans} {next : Status}
    (h : Standing p pk s st) (h' : Standing p pk s' st) : ¬ Shifts pk next ⟨op, r, s, s'⟩ := by
  rintro ⟨hpre, hpost⟩
  exact hpre (h.status.trans (h'.status.symm.trans hpost))

private theorem not_ends_of_standing {op : Req} {r : Except Exn op.Ans} (h : Standing p pk s st)
    (h' : Standing p pk s' st) : ¬ Ends pk ⟨op, r, s, s'⟩ := by
  rintro (hx | hx) <;> exact not_shifts_of_standing h h' hx

/-- A request that commits no end and invalidates nothing leaves the provisioning open. -/
theorem Open.cons {op : Req} {r : Except Exn op.Ans} {st' : Status} (h : Open p pk t opts st l s)
    (h' : Standing p pk s' st') (hst : st' = .new ∨ st' = .pending) (hop : op ≠ .forgetTenant pk) :
    Open p pk t opts st' (⟨op, r, s, s'⟩ :: l) s' := by
  have hno : ∀ next, next = .active ∨ next = .failed → ¬ Shifts pk next ⟨op, r, s, s'⟩ := by
    rintro next hnew ⟨_, hpost⟩
    have heq : st' = next := Option.some.inj (h'.status.symm.trans hpost)
    rcases hst with rfl | rfl <;> rcases hnew with rfl | rfl <;> cases heq
  refine ⟨h', hst, ?_, h.active.cons fun hx => absurd hx (hno .active (.inl rfl))⟩
  intro x hx
  rcases List.mem_cons.mp hx with rfl | hx
  · refine ⟨?_, hop⟩
    rintro (hx | hx)
    · exact hno .active (.inl rfl) hx
    · exact hno .failed (.inr rfl) hx
  · exact h.log x hx

/-- What is broken stays broken as long as nothing is invalidated and the status is kept. -/
theorem Broken.cons {op : Req} {r : Except Exn op.Ans} (h : Broken p pk t opts st l s)
    (h' : Standing p pk s' st) (hop : op ≠ .forgetTenant pk) :
    Broken p pk t opts st (⟨op, r, s, s'⟩ :: l) s' := by
  refine ⟨h', h.ended, ?_, ?_, h.active.cons fun hx =>
    absurd hx (not_shifts_of_standing h.standing h')⟩
  · intro hheard
    exact h.unheard fun x hx => hheard x (List.mem_cons_of_mem _ hx)
  · intro hinvalidated
    refine h.stale fun later x earlier heq hx => ?_
    obtain ⟨y, hy, hforget, hok⟩ := hinvalidated (⟨op, r, s, s'⟩ :: later) x earlier (by rw [heq]; rfl) hx
    rcases List.mem_cons.mp hy with rfl | hy
    · exact absurd hforget hop
    · exact ⟨y, hy, hforget, hok⟩

/-- An end was committed and answered; the cache is still to be invalidated. -/
structure Ended (p : Pid) (pk : Pk) (t : Tenant) (opts : RunOptions) (next : Status)
    (l : ProvisionLog) (s : World) : Prop where
  standing : Standing p pk s next
  finished : next = .active ∨ next = .failed
  log : ∃ x earlier, l = x :: earlier ∧ Shifts pk next x ∧ ¬ x.Raised ∧
    (next = .active → x.pre.status pk = some .pending) ∧ x.op ≠ .forgetTenant pk ∧
    ∀ y ∈ earlier, ¬ Ends pk y ∧ y.op ≠ .forgetTenant pk
  active : ActiveChecked pk t opts l

/-- An end was committed, answered and invalidated. -/
structure Settled (pk : Pk) (t : Tenant) (opts : RunOptions) (next : Status)
    (l : ProvisionLog) : Prop where
  heard : Heard pk l
  invalidated : Invalidated pk l
  provisioned : (∃ x ∈ l, x.pre.status pk = some .pending ∧ x.post.status pk = some .active) ↔
    next = .active
  active : ActiveChecked pk t opts l

/-- What a provisioning promises where it stops: the first part always, the others exactly
when everything was heard. -/
def Truthful (pk : Pk) (t : Tenant) (opts : RunOptions) (l : ProvisionLog) (s : World)
    (r : Except Exn Result) : Prop :=
  ActiveChecked pk t opts l ∧ ∀ res, r = .ok res →
    ((OkMeansActive pk l res ∧ ConnErrorResumable pk s res ∧ Invalidated pk l) ↔ Heard pk l)

/-- The condition on every log of a provisioning. -/
def Checked (pk : Pk) (t : Tenant) (opts : RunOptions) (l : ProvisionLog) (_ : World) : Prop :=
  ActiveChecked pk t opts l

/-- A provisioning that raises has only to have committed ACTIVE after the checks. -/
theorem truthful_error {e : Exn} (h : ActiveChecked pk t opts l) :
    Truthful pk t opts l s (.error e) := ⟨h, fun _ hres => by simp at hres⟩

/-- Making a tenant ACTIVE ends its provisioning. -/
theorem ends_of_activated (h : x.pre.status pk = some .pending)
    (h' : x.post.status pk = some .active) : Ends pk x :=
  .inl ⟨fun hpre => by simp [h] at hpre, h'⟩

/-- A provisioning that is open may end with any result but `ok`. -/
theorem Open.truthful {res : Result} (h : Open p pk t opts st l s) (hres : res.kind ≠ .ok) :
    Truthful pk t opts l s (.ok res) := by
  refine ⟨h.active, ?_⟩
  rintro _ hres'
  obtain rfl := Except.ok.inj hres'
  have hheard : Heard pk l := by
    rintro x hx (hforget | hends)
    · exact absurd hforget (h.log x hx).2
    · exact absurd hends (h.log x hx).1
  refine iff_of_true ⟨iff_of_false hres ?_, fun _ => ?_, ?_⟩ hheard
  · rintro ⟨x, hx, hpre, hpost⟩
    exact (h.log x hx).1 (ends_of_activated hpre hpost)
  · rcases h.unfinished with rfl | rfl
    · exact .inl h.standing.status
    · exact .inr h.standing.status
  · intro later x earlier heq hends
    exact absurd hends (h.log x (by rw [heq]; simp)).1

/-- A provisioning with a broken end has nothing more to promise. -/
theorem Broken.truthful (h : Broken p pk t opts st l s) (r : Except Exn Result) :
    Truthful pk t opts l s r :=
  ⟨h.active, fun _ _ => iff_of_false (fun hall => h.stale hall.2.2) h.unheard⟩

/-- A settled provisioning tells the truth if it reports `ok` exactly for ACTIVE, and no lost
connection. -/
theorem Settled.truthful {next : Status} {res : Result} (h : Settled pk t opts next l)
    (hres : res.kind = .ok ↔ next = .active) (hconn : res.connError = none) :
    Truthful pk t opts l s (.ok res) := by
  refine ⟨h.active, ?_⟩
  intro res' hres'
  obtain rfl := Except.ok.inj hres'
  refine iff_of_true ⟨hres.trans h.provisioned.symm, ?_, h.invalidated⟩ h.heard
  intro hsome
  exact absurd hconn hsome

/-! ### What each request leads to -/

/-- A status write to an end that was answered. -/
theorem Open.ended {op : Req} {r : Except Exn op.Ans} {next : Status}
    (h : Open p pk t opts st l s) (h' : Standing p pk s' next)
    (hnew : next = .active ∨ next = .failed)
    (hactive : next = .active → st = .pending ∧ ChecksDone t opts l)
    (hop : op ≠ .forgetTenant pk) (hr : ∃ a, r = .ok a) :
    Ended p pk t opts next (⟨op, r, s, s'⟩ :: l) s' := by
  have hshift : Shifts pk next ⟨op, r, s, s'⟩ := by
    refine ⟨fun hpre => ?_, h'.status⟩
    have heq : st = next := Option.some.inj (h.standing.status.symm.trans hpre)
    rcases h.unfinished with rfl | rfl <;> rcases hnew with rfl | rfl <;> cases heq
  refine ⟨h', hnew, ⟨_, l, rfl, hshift, ?_, fun hact => ?_, hop, h.log⟩, h.active.cons ?_⟩
  · rintro ⟨e, he⟩
    obtain ⟨a, ha⟩ := hr
    cases ha.symm.trans he
  · rw [h.standing.status, (hactive hact).1]
  · rintro ⟨_, hpost⟩
    exact (hactive (Option.some.inj (h'.status.symm.trans hpost))).2

/-- A status write to an end whose answer was lost. -/
theorem Open.broken {op : Req} {e : Exn} {next : Status} (h : Open p pk t opts st l s)
    (h' : Standing p pk s' next) (hnew : next = .active ∨ next = .failed)
    (hactive : next = .active → ChecksDone t opts l) :
    Broken p pk t opts next (⟨op, .error e, s, s'⟩ :: l) s' := by
  have hends : Ends pk (⟨op, .error e, s, s'⟩ : Taken Req Req.Ans Exn World) := by
    have hpre : ∀ next', next' = .active ∨ next' = .failed → s.status pk ≠ some next' := by
      intro next' hnew' hpre
      have heq : st = next' := Option.some.inj (h.standing.status.symm.trans hpre)
      rcases h.unfinished with rfl | rfl <;> rcases hnew' with rfl | rfl <;> cases heq
    rcases hnew with rfl | rfl
    · exact .inl ⟨hpre .active (.inl rfl), h'.status⟩
    · exact .inr ⟨hpre .failed (.inr rfl), h'.status⟩
  refine ⟨h', ?_, fun hheard => ?_, fun hinvalidated => ?_, h.active.cons ?_⟩
  · rcases hnew with rfl | rfl <;> nofun
  · exact hheard _ List.mem_cons_self (.inr hends) ⟨e, rfl⟩
  · obtain ⟨y, hy, _⟩ := hinvalidated [] _ l rfl hends
    simp at hy
  · rintro ⟨_, hpost⟩
    exact hactive (Option.some.inj (h'.status.symm.trans hpost))

/-- A shift to ACTIVE or FAILED is an end. -/
theorem Ended.ends {next : Status} (hnew : next = .active ∨ next = .failed) (h : Shifts pk next x) :
    Ends pk x := by
  rcases hnew with rfl | rfl
  · exact .inl h
  · exact .inr h

/-- The invalidation after an end returns. -/
theorem Ended.settled {next : Status} (h : Ended p pk t opts next l s)
    (h' : Standing p pk s' next) :
    Settled pk t opts next (⟨.forgetTenant pk, .ok (), s, s'⟩ :: l) := by
  obtain ⟨x, earlier, rfl, hshift, hanswered, hpending, hop, hearlier⟩ := h.log
  have hkeeps : ¬ Ends pk (⟨.forgetTenant pk, .ok (), s, s'⟩ : Taken Req Req.Ans Exn World) :=
    not_ends_of_standing h.standing h'
  refine ⟨?_, ?_, ⟨?_, fun hnew => ?_⟩, h.active.cons fun hx => absurd (.inl hx) hkeeps⟩
  · intro y hy hcond
    rcases List.mem_cons.mp hy with rfl | hy
    · rintro ⟨e, he⟩
      cases he
    · rcases List.mem_cons.mp hy with rfl | hy
      · exact hanswered
      · rcases hcond with hforget | hends
        · exact absurd hforget (hearlier y hy).2
        · exact absurd hends (hearlier y hy).1
  · rintro (_ | ⟨z, later⟩) y rest heq hends
    · cases heq
      exact absurd hends hkeeps
    · obtain ⟨hz, _⟩ := List.cons.inj heq
      subst hz
      exact ⟨_, List.mem_cons_self, rfl, fun ⟨e, he⟩ => by cases he⟩
  · rintro ⟨y, hy, hpre, hpost⟩
    have hends := ends_of_activated hpre hpost
    rcases List.mem_cons.mp hy with rfl | hy
    · exact absurd hends hkeeps
    · rcases List.mem_cons.mp hy with rfl | hy
      · exact Option.some.inj (hshift.2.symm.trans hpost)
      · exact absurd hends (hearlier y hy).1
  · refine ⟨x, by simp, hpending hnew, ?_⟩
    rw [hshift.2, hnew]

/-- The invalidation after an end raises. -/
theorem Ended.broken {next : Status} {e : Exn} (h : Ended p pk t opts next l s)
    (h' : Standing p pk s' next) :
    Broken p pk t opts next (⟨.forgetTenant pk, .error e, s, s'⟩ :: l) s' := by
  obtain ⟨x, earlier, rfl, hshift, _⟩ := h.log
  refine ⟨h', ?_, fun hheard => ?_, fun hinvalidated => ?_, h.active.cons fun hx =>
    absurd hx (not_shifts_of_standing h.standing h')⟩
  · rcases h.finished with rfl | rfl <;> nofun
  · exact hheard _ List.mem_cons_self (.inl rfl) ⟨e, rfl⟩
  · obtain ⟨y, hy, _, hok⟩ :=
      hinvalidated [⟨.forgetTenant pk, .error e, s, s'⟩] x earlier rfl (Ended.ends h.finished hshift)
    obtain rfl := List.mem_singleton.mp hy
    exact hok ⟨e, rfl⟩

/-! ### Requests that write nothing -/

section Neutral

variable {α : Type} {V : α → Prop} {y : Prog α} {op : Req} {r : Except Exn op.Ans}

/-- A neutral request leaves the provisioning open. -/
theorem Open.neutral (h : Open p pk t opts st l s) (hop : op.neutral)
    (he : provisionSem p pk op s r s') : Open p pk t opts st (⟨op, r, s, s'⟩ :: l) s' := by
  obtain ⟨m, hm, hexec⟩ := he
  have hafter := (h.standing.undisturbed hm).of_exec (Req.neutral_writes hop) hexec
  refine h.cons hafter h.unfinished ?_
  rintro rfl
  exact hop

/-- A neutral request mends no broken end. -/
theorem Broken.neutral (h : Broken p pk t opts st l s) (hop : op.neutral)
    (he : provisionSem p pk op s r s') : Broken p pk t opts st (⟨op, r, s, s'⟩ :: l) s' := by
  obtain ⟨m, hm, hexec⟩ := he
  have hafter := (h.standing.undisturbed hm).of_exec (Req.neutral_writes hop) hexec
  refine h.cons hafter ?_
  rintro rfl
  exact hop

/-- A neutral request answers, and leaves the provisioning open. -/
theorem Open.call (h : Open p pk t opts st l s) (op : Req) (hop : op.neutral) :
    (call op).Ensures (provisionSem p pk) (Checked pk t opts) l s fun l' s' r =>
      Open p pk t opts st l' s' ∧ answers l' = ⟨op, r, (), ()⟩ :: answers l := by
  intro r s' he
  have hnext := h.neutral hop he
  exact ⟨hnext.active, hnext, rfl⟩

/-- A neutral program leaves the provisioning open. -/
theorem Open.within (h : Open p pk t opts st l s) (hy : y.Within Req.neutral V) :
    y.Ensures (provisionSem p pk) (Checked pk t opts) l s fun l' s' r =>
      Open p pk t opts st l' s' ∧ onOutcome V (fun _ => True) r := by
  refine hy.ensures (fun l s op r s' hop hI he => ?_) h
  exact ⟨(Open.neutral hI hop he).active, hI.neutral hop he⟩

/-- A neutral program mends no broken end. -/
theorem Broken.within (h : Broken p pk t opts st l s) (hy : y.Within Req.neutral V) :
    y.Ensures (provisionSem p pk) (Checked pk t opts) l s fun l' s' r =>
      Broken p pk t opts st l' s' ∧ onOutcome V (fun _ => True) r := by
  refine hy.ensures (fun l s op r s' hop hI he => ?_) h
  exact ⟨(Broken.neutral hI hop he).active, hI.neutral hop he⟩

end Neutral

/-- A lost status write is reported as `skipped`. -/
theorem casLost_skips : (casLost pk c).Within Req.neutral fun res => res.kind ≠ .ok := by
  refine Within.bind (call_within trivial) fun found _ => ?_
  match found with
  | none => nofun
  | some (status, mine) =>
    dsimp only
    split <;> nofun

/-- A failure is reported as `failed`, and not as a lost connection. -/
theorem failure_fails (e : Exn) (a : Alias) (schema : SchemaName) :
    (failure e a schema c).Within Req.neutral fun res =>
      res.kind = .failed ∧ res.connError = none := by
  refine Within.bind (call_within trivial) fun _ _ => ?_
  refine Within.bind (Only.within ?_) fun indexes _ => ⟨rfl, rfl⟩
  exact only_guarded (only_call trivial) (fun _ => trivial) fun _ => trivial

/-! ### Status writes -/

/-- A status write that ends the provisioning. -/
theorem Open.write (h : Open p pk t opts st l s) (expected : List Status)
    (w : World.StatusWrite) (hw : w.status = .active ∨ w.status = .failed)
    (hactive : w.status = .active → st = .pending ∧ ChecksDone t opts l) :
    (fencedCas pk expected w).Ensures (provisionSem p pk) (Checked pk t opts) l s fun l' s' =>
      onOutcome (fun won => if won then Ended p pk t opts w.status l' s' else
          st ∉ expected ∧ Open p pk t opts st l' s')
        fun _ => Open p pk t opts st l' s' ∨ Broken p pk t opts w.status l' s' := by
  rintro r s' ⟨m, hm, hexec⟩
  have hstanding := h.standing.undisturbed hm
  have hcas := casEnds_of_exec hstanding hexec
  cases hcas with
  | won s' _ hafter =>
    have hended : Ended p pk t opts w.status (⟨.fencedCas pk expected w, .ok true, s, s'⟩ :: l) s' :=
      h.ended hafter hw hactive nofun ⟨true, rfl⟩
    exact ⟨hended.active, hended⟩
  | lost s' hst hafter =>
    have hopen : Open p pk t opts st (⟨.fencedCas pk expected w, .ok false, s, s'⟩ :: l) s' :=
      h.cons hafter h.unfinished nofun
    exact ⟨hopen.active, hst, hopen⟩
  | raised e s' hafter =>
    have hopen : Open p pk t opts st (⟨.fencedCas pk expected w, .error e, s, s'⟩ :: l) s' :=
      h.cons hafter h.unfinished nofun
    exact ⟨hopen.active, .inl hopen⟩
  | unheard e s' _ _ hafter =>
    have hbroken : Broken p pk t opts w.status
        (⟨.fencedCas pk expected w, .error e, s, s'⟩ :: l) s' :=
      h.broken hafter hw fun hact => (hactive hact).2
    exact ⟨hbroken.active, .inr hbroken⟩

/-- The claim, which ends nothing. -/
theorem Open.claim {w : World.StatusWrite} (h : Open p pk t opts st l s)
    (hw : w.status = .pending) :
    (fencedCas pk provisionable w).Ensures (provisionSem p pk) (Checked pk t opts) l s fun l' s' r =>
      (∃ st', Open p pk t opts st' l' s' ∧ (r = .ok true → st' = .pending)) ∧
        ∀ z ∈ answers l, z ∈ answers l' := by
  rintro r s' ⟨m, hm, hexec⟩
  have hcas := casEnds_of_exec (h.standing.undisturbed hm) hexec
  rw [hw] at hcas
  have hopen : ∀ st', Standing p pk s' st' → (st' = .new ∨ st' = .pending) →
      Open p pk t opts st' (⟨.fencedCas pk provisionable w, r, s, s'⟩ :: l) s' :=
    fun st' hafter hst' => h.cons hafter hst' nofun
  have hkept : ∀ z ∈ answers l, z ∈ answers (⟨.fencedCas pk provisionable w, r, s, s'⟩ :: l) :=
    fun z hz => List.mem_cons_of_mem _ hz
  cases hcas with
  | won s' _ hafter =>
    have hnext := hopen _ hafter (.inr rfl)
    exact ⟨hnext.active, ⟨_, hnext, fun _ => rfl⟩, hkept⟩
  | lost s' _ hafter =>
    have hnext := hopen _ hafter h.unfinished
    exact ⟨hnext.active, ⟨_, hnext, nofun⟩, hkept⟩
  | raised e s' hafter =>
    have hnext := hopen _ hafter h.unfinished
    exact ⟨hnext.active, ⟨_, hnext, nofun⟩, hkept⟩
  | unheard e s' _ _ hafter =>
    have hnext := hopen _ hafter (.inr rfl)
    exact ⟨hnext.active, ⟨_, hnext, nofun⟩, hkept⟩

/-- After a broken end the tenant is no longer PENDING, so a further write loses. -/
theorem Broken.write {w : World.StatusWrite} (h : Broken p pk t opts st l s) :
    (fencedCas pk [.pending] w).Ensures (provisionSem p pk) (Checked pk t opts) l s fun l' s' r =>
      Broken p pk t opts st l' s' ∧ r ≠ .ok true := by
  rintro r s' ⟨m, hm, hexec⟩
  have hcas := casEnds_of_exec (h.standing.undisturbed hm) hexec
  have hunexpected : st ∉ [Status.pending] := by
    rw [List.mem_singleton]
    exact h.ended
  have hbroken : Standing p pk s' st →
      Broken p pk t opts st (⟨.fencedCas pk [.pending] w, r, s, s'⟩ :: l) s' :=
    fun hafter => h.cons hafter nofun
  cases hcas with
  | won s' hst _ => exact absurd hst hunexpected
  | lost s' _ hafter => exact ⟨(hbroken hafter).active, hbroken hafter, nofun⟩
  | raised e s' hafter => exact ⟨(hbroken hafter).active, hbroken hafter, nofun⟩
  | unheard e s' _ hst _ => exact absurd hst hunexpected

/-- The invalidation after an end. -/
theorem Ended.invalidate {next : Status} (h : Ended p pk t opts next l s) :
    (forget pk).Ensures (provisionSem p pk) (Checked pk t opts) l s fun l' s' =>
      onOutcome (fun _ => Settled pk t opts next l') fun _ => Broken p pk t opts next l' s' := by
  rintro r s' ⟨m, hm, hexec⟩
  have hafter : Standing p pk s' next :=
    Standing.of_exec (h.standing.undisturbed hm) rfl hexec
  cases r with
  | ok u =>
    have hsettled := h.settled hafter
    exact ⟨hsettled.active, hsettled⟩
  | error e =>
    have hbroken := h.broken (e := e) hafter
    exact ⟨hbroken.active, hbroken⟩

/-! ### The handler -/

/-- Where the handler of `_provision` may be entered: nothing has ended, and the tenant is
PENDING once it was claimed; or an end is broken. -/
def Unsettled (p : Pid) (pk : Pk) (t : Tenant) (opts : RunOptions) (claimed : Bool)
    (l : ProvisionLog) (s : World) : Prop :=
  ∃ st, ((claimed = true → st = .pending) ∧ Open p pk t opts st l s) ∨ Broken p pk t opts st l s

section Handler

variable {claimed : Bool}

/-- An open provisioning may enter the handler, if the tenant is PENDING once it was claimed. -/
theorem Open.unsettled (h : Open p pk t opts st l s) (hclaimed : claimed = true → st = .pending) :
    Unsettled p pk t opts claimed l s := ⟨st, .inl ⟨hclaimed, h⟩⟩

/-- A provisioning with a broken end may enter the handler. -/
theorem Broken.unsettled (h : Broken p pk t opts st l s) : Unsettled p pk t opts claimed l s :=
  ⟨st, .inr h⟩

/-- Where the handler is entered, ACTIVE was committed only after the checks. -/
theorem Unsettled.active (h : Unsettled p pk t opts claimed l s) : ActiveChecked pk t opts l := by
  obtain ⟨st, ⟨_, hopen⟩ | hbroken⟩ := h
  · exact hopen.active
  · exact hbroken.active

/-- From where the handler is entered any result but `ok` is true. -/
theorem Unsettled.truthful {res : Result} (h : Unsettled p pk t opts claimed l s)
    (hres : res.kind ≠ .ok) : Truthful pk t opts l s (.ok res) := by
  obtain ⟨st, ⟨_, hopen⟩ | hbroken⟩ := h
  · exact hopen.truthful hres
  · exact hbroken.truthful _

/-- A neutral program stays where the handler may be entered. -/
theorem Unsettled.within {α : Type} {V : α → Prop} {y : Prog α}
    (h : Unsettled p pk t opts claimed l s) (hy : y.Within Req.neutral V) :
    y.Ensures (provisionSem p pk) (Checked pk t opts) l s fun l' s' r =>
      Unsettled p pk t opts claimed l' s' ∧ onOutcome V (fun _ => True) r := by
  obtain ⟨st, ⟨hclaimed, hopen⟩ | hbroken⟩ := h
  · exact (hopen.within hy).mono fun l' s' r hr => ⟨hr.1.unsettled hclaimed, hr.2⟩
  · exact (hbroken.within hy).mono fun l' s' r hr => ⟨hr.1.unsettled, hr.2⟩

/-- The status write of the handler. -/
theorem Unsettled.write {text : String} (h : Unsettled p pk t opts true l s) :
    (fencedCas pk [.pending] ⟨.failed, .pending, text⟩).Ensures (provisionSem p pk)
      (Checked pk t opts) l s fun l' s' =>
      onOutcome (fun won => if won then Ended p pk t opts .failed l' s' else
          Unsettled p pk t opts true l' s')
        fun _ => Unsettled p pk t opts true l' s' := by
  obtain ⟨st, ⟨hclaimed, hopen⟩ | hbroken⟩ := h
  · have hwrite := hopen.write [.pending] ⟨.failed, .pending, text⟩ (.inr rfl) nofun
    refine hwrite.mono fun l' s' r hr => ?_
    match r with
    | .ok true => exact hr
    | .ok false => exact hr.2.unsettled hclaimed
    | .error e =>
      rcases hr with hopen' | hbroken'
      · exact hopen'.unsettled hclaimed
      · exact hbroken'.unsettled
  · refine hbroken.write.mono fun l' s' r hr => ?_
    match r with
    | .ok true => exact absurd rfl hr.2
    | .ok false => exact hr.1.unsettled
    | .error e => exact hr.1.unsettled

/-- Whatever the handler answers is as true as what was heard. -/
theorem Unsettled.handled (h : Unsettled p pk t opts claimed l s) (side : Side) (e : Exn) :
    (provisionFailed pk t c side claimed e).Ensures (provisionSem p pk) (Checked pk t opts) l s
      (Truthful pk t opts) := by
  rw [provisionFailed]
  split
  · exact h.truthful fun hkind => by cases hkind
  refine ensures_bind.mpr ((h.within (failure_fails e _ _)).mono fun l' s' r hr => ?_)
  obtain ⟨h', hres⟩ := hr
  cases r with
  | error e' => exact truthful_error h'.active
  | ok res =>
    obtain ⟨hkind, hconn⟩ := hres
    have hnot : res.kind ≠ .ok := by simp [hkind]
    rw [onOutcome_ok]
    cases claimed with
    | false => exact h'.truthful hnot
    | true =>
    rw [if_pos rfl]
    -- The second `try` of the handler: a lost connection is reported, anything else raised.
    have hcaught : ∀ l s e2, Unsettled p pk t opts true l s →
        (e2.base = true → Truthful pk t opts l s (.error e2)) ∧ (e2.base = false →
          (if e2.connError then Pure.pure { res with reason := .connError, connError := some .default }
            else raise e2 : Prog Result).Ensures (provisionSem p pk) (Checked pk t opts) l s
              (Truthful pk t opts)) := by
      intro l s e2 hunsettled
      refine ⟨fun _ => truthful_error hunsettled.active, fun _ => ?_⟩
      split
      · exact hunsettled.truthful hnot
      · exact truthful_error hunsettled.active
    refine ensures_guarded (ensures_bind.mpr (h'.write.mono fun l₁ s₁ r₁ hr₁ => ?_))
    rcases r₁ with e2 | _ | _
    · exact hcaught _ _ e2 hr₁
    · -- The write has found no row.
      refine ensures_bind.mpr ((Unsettled.within hr₁ casLost_skips).mono fun l₂ s₂ r₂ hr₂ => ?_)
      cases r₂ with
      | ok lost => exact hr₂.1.truthful hr₂.2
      | error e2 => exact hcaught _ _ e2 hr₂.1
    · refine ensures_bind.mpr ((Ended.invalidate hr₁).mono fun l₂ s₂ r₂ hr₂ => ?_)
      cases r₂ with
      | ok u =>
        exact Settled.truthful hr₂ (iff_of_false hnot fun hstatus => by cases hstatus) hconn
      | error e2 => exact hcaught _ _ e2 (Broken.unsettled hr₂)

/-- One part of the `try` block: what it raises goes to the handler. -/
theorem ensures_tried {α : Type} {y : Prog α} {k : α → Prog Result} {side : Side}
    (h : y.Ensures (provisionSem p pk) (Checked pk t opts) l s fun l' s' =>
      onOutcome (fun a => (k a).Ensures (provisionSem p pk) (Checked pk t opts) l' s'
        (Truthful pk t opts)) fun _ => Unsettled p pk t opts claimed l' s') :
    (guarded (provisionFailed pk t c side claimed) y k).Ensures (provisionSem p pk)
      (Checked pk t opts) l s (Truthful pk t opts) := by
  refine ensures_guarded (h.mono fun l' s' r hr => ?_)
  cases r with
  | ok a => exact hr
  | error e => exact ⟨fun _ => truthful_error (Unsettled.active hr), fun _ => Unsettled.handled hr side e⟩

/-- A status write that lost is reported by `_cas_lost`. -/
theorem Open.reported {side : Side} (h : Open p pk t opts st l s)
    (hclaimed : claimed = true → st = .pending) :
    (guarded (provisionFailed pk t c side claimed) (casLost pk c) Pure.pure).Ensures
      (provisionSem p pk) (Checked pk t opts) l s (Truthful pk t opts) := by
  refine ensures_tried ((h.within casLost_skips).mono fun l' s' r hr => ?_)
  cases r with
  | ok res => exact hr.1.truthful hr.2
  | error e => exact hr.1.unsettled hclaimed

end Handler

/-! ### `_provision` -/

/-- The migrations of the tenant have returned, its plan is empty, and the code was found not
to be older than the database before. -/
def SchemaDone (t : Tenant) (opts : RunOptions) (l : ProvisionLog) : Prop :=
  ∃ rest, answers l = ⟨.closeShard t.shard.dbAlias, .ok (), (), ()⟩ ::
    ⟨.shard t.shard.dbAlias (.migrationPlan t.schemaName), .ok [], (), ()⟩ ::
    ⟨.shard t.shard.dbAlias (.schemaExists t.schemaName), .ok true, (), ()⟩ ::
    ⟨.shard t.shard.dbAlias (.runMigrations (opts.upstream t.shard.dbAlias) t.schemaName),
      .ok (), (), ()⟩ :: rest ∧ notOlder ∈ rest

/-- What `pending_plan` returns is what the shard has answered last. -/
theorem Open.pendingPlan (h : Open p pk t opts st l s) :
    (pendingPlan t).Ensures (provisionSem p pk) (Checked pk t opts) l s fun l' s' r =>
      Open p pk t opts st l' s' ∧ (r = .ok (some []) → answers l' =
        ⟨.closeShard t.shard.dbAlias, .ok (), (), ()⟩ ::
        ⟨.shard t.shard.dbAlias (.migrationPlan t.schemaName), .ok [], (), ()⟩ ::
        ⟨.shard t.shard.dbAlias (.schemaExists t.schemaName), .ok true, (), ()⟩ :: answers l) := by
  have hcall := h.call (.shard t.shard.dbAlias (.schemaExists t.schemaName)) trivial
  refine ensures_bind.mpr (hcall.mono fun l₁ s₁ r₁ hr₁ => ?_)
  obtain ⟨h₁, hlog₁⟩ := hr₁
  match r₁ with
  | .error e => exact ⟨h₁, nofun⟩
  | .ok false => exact ⟨h₁, nofun⟩
  | .ok true =>
    have hplan := h₁.call (.shard t.shard.dbAlias (.migrationPlan t.schemaName)) trivial
    refine ensures_tryFinally.mpr (ensures_bind.mpr (hplan.mono fun l₂ s₂ r₂ hr₂ => ?_))
    obtain ⟨h₂, hlog₂⟩ := hr₂
    cases r₂ with
    | error e =>
      refine (h₂.call (.closeShard t.shard.dbAlias) trivial).mono fun l₃ s₃ r₃ hr₃ => ?_
      cases r₃ with
      | ok u => exact ⟨hr₃.1, nofun⟩
      | error e => exact ⟨hr₃.1, nofun⟩
    | ok plan =>
      refine (h₂.call (.closeShard t.shard.dbAlias) trivial).mono fun l₃ s₃ r₃ hr₃ => ?_
      cases r₃ with
      | error e => exact ⟨hr₃.1, nofun⟩
      | ok u =>
        refine ⟨hr₃.1, fun hplan => ?_⟩
        obtain rfl : plan = [] := Option.some.inj (Except.ok.inj hplan)
        rw [hr₃.2, hlog₂, hlog₁]

/-- The shard work returns only with an empty plan. -/
theorem Open.provisionSchema (h : Open p pk t opts st l s) (hfirst : notOlder ∈ answers l) :
    (provisionSchema pk t opts).Ensures (provisionSem p pk) (Checked pk t opts) l s fun l' s' r =>
      Open p pk t opts st l' s' ∧ (r = .ok () → SchemaDone t opts l') := by
  have hcall := h.call (.shard t.shard.dbAlias (.createSchema t.schemaName)) trivial
  refine ensures_bind.mpr (hcall.mono fun l₁ s₁ r₁ hr₁ => ?_)
  obtain ⟨h₁, hlog₁⟩ := hr₁
  cases r₁ with
  | error e => exact ⟨h₁, nofun⟩
  | ok u₁ =>
  have hcall₁ := h₁.call (.shard t.shard.dbAlias (.openShard pk)) trivial
  refine ensures_bind.mpr (hcall₁.mono fun l₂ s₂ r₂ hr₂ => ?_)
  obtain ⟨h₂, hlog₂⟩ := hr₂
  cases r₂ with
  | error e => exact ⟨h₂, nofun⟩
  | ok u₂ =>
  have hrest : notOlder ∈ answers l₂ := by
    rw [hlog₂, hlog₁]
    exact List.mem_cons_of_mem _ (List.mem_cons_of_mem _ hfirst)
  have hcall₂ := h₂.call
    (.shard t.shard.dbAlias (.runMigrations (opts.upstream t.shard.dbAlias) t.schemaName)) trivial
  refine ensures_bind.mpr (hcall₂.mono fun l₃ s₃ r₃ hr₃ => ?_)
  obtain ⟨h₃, hlog₃⟩ := hr₃
  cases r₃ with
  | error e => exact ⟨h₃, nofun⟩
  | ok u₃ =>
  refine ensures_bind.mpr (h₃.pendingPlan.mono fun l₄ s₄ r₄ hr₄ => ?_)
  obtain ⟨h₄, hlog₄⟩ := hr₄
  match r₄ with
  | .error e => exact ⟨h₄, nofun⟩
  | .ok none => exact ⟨h₄, nofun⟩
  | .ok (some (_ :: _)) => exact ⟨h₄, nofun⟩
  | .ok (some []) =>
    refine ⟨h₄, fun _ => ⟨answers l₂, ?_, hrest⟩⟩
    rw [hlog₄ rfl, hlog₃]

/-- From its claim on, a provisioning keeps its promise. -/
theorem Open.provisionClaimed (h : Open p pk t opts .pending l s)
    (hfirst : notOlder ∈ answers l) :
    (provisionClaimed pk t opts c).Ensures (provisionSem p pk) (Checked pk t opts) l s
      (Truthful pk t opts) := by
  refine ensures_tried ((h.provisionSchema hfirst).mono fun l₁ s₁ r₁ hr₁ => ?_)
  obtain ⟨h₁, hdone⟩ := hr₁
  cases r₁ with
  | error e => exact h₁.unsettled fun _ => rfl
  | ok u =>
  obtain ⟨rest, hrest, hmem⟩ := hdone rfl
  refine ensures_tried ((h₁.call .codeOlderThanDb trivial).mono fun l₂ s₂ r₂ hr₂ => ?_)
  obtain ⟨h₂, hlog₂⟩ := hr₂
  match r₂ with
  | .error e => exact h₂.unsettled fun _ => rfl
  | .ok true => exact h₂.truthful nofun
  | .ok false =>
    have hchecks : ChecksDone t opts l₂ := ⟨rest, by rw [hlog₂, hrest]; rfl, hmem⟩
    have hwrite := h₂.write [.pending] ⟨.active, .pending, ""⟩ (.inl rfl) fun _ => ⟨rfl, hchecks⟩
    refine ensures_tried (hwrite.mono fun l₃ s₃ r₃ hr₃ => ?_)
    match r₃ with
    | .error e =>
      rcases hr₃ with hopen | hbroken
      · exact hopen.unsettled fun _ => rfl
      · exact hbroken.unsettled
    | .ok false => exact hr₃.2.reported fun _ => rfl
    | .ok true =>
      refine ensures_tried ((Ended.invalidate hr₃).mono fun l₄ s₄ r₄ hr₄ => ?_)
      cases r₄ with
      | error e => exact Broken.unsettled hr₄
      | ok u =>
        rw [onOutcome_ok]
        split
        · exact Settled.truthful hr₄ (iff_of_true rfl rfl) rfl
        · exact Settled.truthful hr₄ (iff_of_true rfl rfl) rfl

/-- From the claim of the tenant on, a provisioning keeps its promise. -/
theorem Open.provisionClaim (h : Open p pk t opts st l s) (hfirst : notOlder ∈ answers l) :
    (provisionClaim pk t opts c).Ensures (provisionSem p pk) (Checked pk t opts) l s
      (Truthful pk t opts) := by
  refine ensures_tried ((h.claim rfl).mono fun l₁ s₁ r₁ hr₁ => ?_)
  obtain ⟨⟨st', h₁, hpending⟩, hkept⟩ := hr₁
  match r₁ with
  | .error e => exact h₁.unsettled nofun
  | .ok false => exact h₁.reported nofun
  | .ok true =>
    obtain rfl := hpending rfl
    exact h₁.provisionClaimed (hkept _ hfirst)

/-- The branch of a foreign schema. -/
theorem Open.schemaExists {msg : String} {res : Result} (h : Open p pk t opts st l s)
    (hres : res.kind = .failed) (hconn : res.connError = none) :
    (guarded (provisionFailed pk t c .default false) (fencedCas pk [.new] ⟨.failed, .new, msg⟩)
      fun won => if won then
        guarded (provisionFailed pk t c .default false) (forget pk) fun _ => Pure.pure res
      else guarded (provisionFailed pk t c .default false) (casLost pk c) Pure.pure).Ensures
      (provisionSem p pk) (Checked pk t opts) l s (Truthful pk t opts) := by
  have hwrite := h.write [.new] ⟨.failed, .new, msg⟩ (.inr rfl) nofun
  refine ensures_tried (hwrite.mono fun l₁ s₁ r₁ hr₁ => ?_)
  match r₁ with
  | .error e =>
    rcases hr₁ with hopen | hbroken
    · exact hopen.unsettled nofun
    · exact hbroken.unsettled
  | .ok false => exact hr₁.2.reported nofun
  | .ok true =>
    refine ensures_tried ((Ended.invalidate hr₁).mono fun l₂ s₂ r₂ hr₂ => ?_)
    cases r₂ with
    | error e => exact Broken.unsettled hr₂
    | ok u => exact Settled.truthful hr₂ (iff_of_false (by simp [hres]) nofun) hconn

/-- A provisioning keeps its promise. -/
theorem Open.provision (h : Open p pk t opts st l s) :
    (provision pk t opts c).Ensures (provisionSem p pk) (Checked pk t opts) l s
      (Truthful pk t opts) := by
  rw [MtShards.Migrator.provision]
  split
  · exact h.truthful fun hkind => by cases hkind
  refine ensures_tried ((h.call .codeOlderThanDb trivial).mono fun l₁ s₁ r₁ hr₁ => ?_)
  obtain ⟨h₁, hlog₁⟩ := hr₁
  rcases r₁ with e | _ | _
  · exact h₁.unsettled fun hclaimed => by cases hclaimed
  · have hfirst : notOlder ∈ answers l₁ := by
      rw [hlog₁]
      exact List.mem_cons_self
    have hchecked : (if t.status = .new ∧ t.previousStatus ≠ .failed then
        schemaHasRelations t.shard.dbAlias t.schemaName else Pure.pure false).Ensures
        (provisionSem p pk) (Checked pk t opts) l₁ s₁ fun l' s' _ =>
          Open p pk t opts st l' s' ∧ notOlder ∈ answers l' := by
      split
      · have hcall := h₁.call (.shard t.shard.dbAlias (.schemaHasRelations t.schemaName)) trivial
        refine hcall.mono fun l' s' r hr => ⟨hr.1, ?_⟩
        rw [hr.2]
        exact List.mem_cons_of_mem _ hfirst
      · exact ⟨h₁, hfirst⟩
    refine ensures_tried (hchecked.mono fun l₂ s₂ r₂ hr₂ => ?_)
    rcases r₂ with e | _ | _
    · exact hr₂.1.unsettled fun hclaimed => by cases hclaimed
    · exact hr₂.1.provisionClaim hr₂.2
    · exact hr₂.1.schemaExists rfl rfl
  · exact h₁.truthful fun hkind => by cases hkind

/-- For a tenant that is to be provisioned, under a lease that is kept and with nobody else
writing its status, and whatever each request does: ACTIVE is committed only after the checks;
and where a `Result` is returned, all it says is true and the cache was invalidated if and only
if no invalidation has raised and every committed end was answered. -/
theorem provision_truthful_iff {s₀ : World} {y : Prog Result} (hstatus : s₀.status pk = some t.status)
    (hprovisionable : t.status ∈ provisionable) (howner : s₀.leaseOwner pk = some p)
    (h : Exec (provisionSem p pk) (provision pk t opts c) s₀ l y s) :
    ActiveChecked pk t opts l ∧ ∀ res, y = .done (.ok res) →
      ((OkMeansActive pk l res ∧ ConnErrorResumable pk s res ∧ Invalidated pk l) ↔ Heard pk l) := by
  have hopen : Open p pk t opts t.status [] s₀ := by
    refine ⟨⟨hstatus, howner⟩, ?_, fun x hx => by simp at hx, ActiveChecked.nil⟩
    simpa [provisionable] using hprovisionable
  refine ⟨(h.ensures ActiveChecked.nil hopen.provision).1, fun res hres => ?_⟩
  subst hres
  exact (h.outcome ActiveChecked.nil hopen.provision).2 res rfl

/-! ### A provisioning, and the invalidation after it -/

/-- The lease of the new tenant is held. -/
def leased : World := (oneTenant acme).upsertLease "app-1:4312" 1

/-- The target of the run. -/
def acmeTarget : Target := ⟨"acme", "shard1"⟩

/-- `default` is gone when `_forget` reads the hostnames of the tenant. -/
def defaultRefused : Exn :=
  ⟨.external "OperationalError", "connection refused", "", "", true, false, false⟩

/-- A run that has committed ACTIVE and goes on to the invalidation. -/
theorem activated_run : ∃ l s k,
    Exec (provisionSem "app-1:4312" 1) (provision 1 acme .defaults acmeTarget) leased l
      (.call (.forgetTenant 1) k) s ∧ s.status 1 = some .active ∧
    (∃ x earlier, l = x :: earlier ∧ x.pre.status 1 = some .pending ∧
      x.post.status 1 = some .active) ∧ (∀ x ∈ l, ¬ x.Raised) ∧
    k (.ok ()) = .done (.ok (acmeTarget.result .ok .applied "provisioned")) ∧
    k (.error defaultRefused) = .done (.ok (acmeTarget.lost .default (lostMsg .default defaultRefused))) := by
  have r0 : Exec (provisionSem "app-1:4312" 1) (provision 1 acme .defaults acmeTarget) leased []
    _ leased := .start
  have r1 := r0.answer .codeOlderThanDb (.ok false) _ ⟨_, ⟨rfl, rfl⟩, trivial, rfl, rfl⟩ rfl
  have r2 := r1.answer (.shard "shard1" (.schemaHasRelations "acme")) (.ok false) _
    ⟨_, ⟨rfl, rfl⟩, trivial, .idle, nofun, .inr ⟨nofun, 0, rfl, rfl⟩⟩ rfl
  have r3 := r2.answer (.fencedCas 1 provisionable ⟨.pending, .new, ""⟩) (.ok true) _
    ⟨_, ⟨rfl, rfl⟩, rfl, rfl, rfl⟩ rfl
  have r4 := r3.answer (.shard "shard1" (.createSchema "acme")) (.ok ()) _
    ⟨_, ⟨rfl, rfl⟩, trivial, .idle, nofun, .inl ⟨0, _, rfl, rfl, rfl⟩⟩ rfl
  have r5 := r4.answer (.shard "shard1" (.openShard 1)) (.ok ()) _
    ⟨_, ⟨rfl, rfl⟩, trivial, .idle, nofun, .inl ⟨0, _, rfl, rfl, rfl⟩⟩ rfl
  have r6 := r5.answer (.shard "shard1" (.runMigrations (RunOptions.defaults.upstream "shard1") "acme"))
    (.ok ()) _ ⟨_, ⟨rfl, rfl⟩, trivial, .idle, nofun, .inl ⟨0, _, rfl, rfl, rfl⟩⟩ rfl
  have r7 := r6.answer (.shard "shard1" (.schemaExists "acme")) (.ok true) _
    ⟨_, ⟨rfl, rfl⟩, trivial, .idle, nofun, .inl ⟨0, _, rfl, rfl, rfl⟩⟩ rfl
  have r8 := r7.answer (.shard "shard1" (.migrationPlan "acme")) (.ok []) _
    ⟨_, ⟨rfl, rfl⟩, trivial, .idle, nofun, .inl ⟨0, _, rfl, rfl, rfl⟩⟩ rfl
  have r9 := r8.answer (.closeShard "shard1") (.ok ()) _ ⟨_, ⟨rfl, rfl⟩, trivial, rfl, rfl⟩ rfl
  have r10 := r9.answer .codeOlderThanDb (.ok false) _ ⟨_, ⟨rfl, rfl⟩, trivial, rfl, rfl⟩ rfl
  have r11 := r10.answer (.fencedCas 1 [.pending] ⟨.active, .pending, ""⟩) (.ok true) _
    ⟨_, ⟨rfl, rfl⟩, rfl, rfl, rfl⟩ rfl
  refine ⟨_, _, _, r11, rfl, ⟨_, _, rfl, rfl, rfl⟩, ?_, rfl, rfl⟩
  rintro x hx ⟨e, he⟩
  simp only [List.mem_cons, List.not_mem_nil, or_false] at hx
  rcases hx with rfl | rfl | rfl | rfl | rfl | rfl | rfl | rfl | rfl | rfl | rfl <;> cases he

/-- The invalidation returns: the `Result` is `ok`, and everything it says is true. -/
theorem provision_truthful_activated : ∃ l s,
    Exec (provisionSem "app-1:4312" 1) (provision 1 acme .defaults acmeTarget) leased l
      (.done (.ok (acmeTarget.result .ok .applied "provisioned"))) s ∧
    OkMeansActive 1 l (acmeTarget.result .ok .applied "provisioned") ∧
    ConnErrorResumable 1 s (acmeTarget.result .ok .applied "provisioned") ∧ Invalidated 1 l := by
  obtain ⟨l, s, k, hrun, _, _, hraised, hok, _⟩ := activated_run
  have hdone := hrun.answer (.forgetTenant 1) (.ok ()) s ⟨s, ⟨rfl, rfl⟩, trivial, rfl, rfl⟩ rfl
  rw [hok] at hdone
  have hheard : Heard 1 (⟨.forgetTenant 1, .ok (), s, s⟩ :: l : ProvisionLog) := by
    rintro x hx _ ⟨e, he⟩
    rcases List.mem_cons.mp hx with rfl | hx
    · cases he
    · exact hraised x hx ⟨e, he⟩
  have htrue := (provision_truthful_iff rfl (by simp [provisionable, acme]) rfl hdone).2 _ rfl
  exact ⟨_, _, hdone, htrue.mpr hheard⟩

/-- The invalidation raises: the tenant is ACTIVE, the `Result` is a failure to be resumed, and
the cache still holds what it held. -/
theorem activated_reported_lost : ∃ l s res,
    Exec (provisionSem "app-1:4312" 1) (provision 1 acme .defaults acmeTarget) leased l
      (.done (.ok res)) s ∧ leased.status 1 = some acme.status ∧
    acme.status ∈ provisionable ∧ leased.leaseOwner 1 = some "app-1:4312" ∧
    ¬ OkMeansActive 1 l res ∧ ¬ ConnErrorResumable 1 s res ∧ ¬ Invalidated 1 l := by
  obtain ⟨l, s, k, hrun, hactive, ⟨x, earlier, rfl, hpre, hpost⟩, _, _, hlost⟩ := activated_run
  have hdone := hrun.answer (.forgetTenant 1) (.error defaultRefused) s
    ⟨s, ⟨rfl, rfl⟩, ⟨_, rfl⟩, rfl⟩ rfl
  rw [hlost] at hdone
  refine ⟨_, _, _, hdone, rfl, by simp [provisionable, acme], rfl, ?_, ?_, ?_⟩
  · intro hok
    have hkind := hok.mpr ⟨x, by simp, hpre, hpost⟩
    cases hkind
  · intro hresumable
    have hstatus := hresumable nofun
    simp [hactive] at hstatus
  · intro hinvalidated
    obtain ⟨y, hy, _, hheard⟩ := hinvalidated [⟨.forgetTenant 1, .error defaultRefused, s, s⟩] x earlier
      rfl (ends_of_activated hpre hpost)
    obtain rfl := List.mem_singleton.mp hy
    exact hheard ⟨defaultRefused, rfl⟩

end MtShards.Migrator
