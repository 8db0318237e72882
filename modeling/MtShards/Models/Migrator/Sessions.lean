import MtShards.Models.Migrator.Fencing
import MtShards.Models.Migrator.Transactions

/-!
# Acquisitions and running backends

`lease_acquire` looks for a working backend on the shard and then takes the lease on
`default`: two steps on two databases. A process that takes the lease, starts a statement and
gives the lease back in between is seen by neither of them. Apart from that, and from leases
that expire while their owner works, no lease is taken over a running backend.
-/

namespace MtShards.Migrator

open MtShards.Core

variable {maint : Bool} {φ : Phase} {k : Pk} {a : Alias} {p q : Pid} {t : SysTrace}
  {s s' : World} {l : SysLabel}

/-! ### Running backends -/

/-- A backend of `p` labelled `tm:<k>` is executing a statement on the alias. -/
def World.Executing (s : World) (p : Pid) (k : Pk) (a : Alias) : Prop :=
  ∃ i b, s.backends i = some b ∧ b.client = p ∧ b.label = some k ∧ b.dbAlias = a ∧
    b.state = .active

/-- Requests other than shard requests start no statement on a shard. -/
theorem World.Executing.of_map {f : Backend → Option Backend}
    (hf : ∀ b b', f b = some b' → b'.client = b.client ∧ b'.label = b.label ∧
      b'.dbAlias = b.dbAlias ∧ b'.state = b.state)
    (hs : ∀ i, s'.backends i = (s.backends i).bind f) (h : s'.Executing p k a) :
    s.Executing p k a := by
  obtain ⟨i, b', hb', hclient, hlabel, halias, hstate⟩ := h
  rw [hs i, Option.bind_eq_some_iff] at hb'
  obtain ⟨b, hb, hfb⟩ := hb'
  obtain ⟨h₁, h₂, h₃, h₄⟩ := hf b b' hfb
  exact ⟨i, b, hb, h₁ ▸ hclient, h₂ ▸ hlabel, h₃ ▸ halias, h₄ ▸ hstate⟩

/-- What is executing was so before, if the sessions have not changed. -/
theorem World.Executing.of_eq (hs : s'.backends = s.backends) (h : s'.Executing p k a) :
    s.Executing p k a := by
  obtain ⟨i, b, hb, h⟩ := h
  exact ⟨i, b, hs ▸ hb, h⟩

/-- What is executing was so before a connection was lost. -/
theorem World.Executing.of_detach {b : Alias} (h : (s.detach q b).Executing p k a) :
    s.Executing p k a := by
  refine h.of_map (f := fun c => some (if World.connected q b c then
    { c with attached := false } else c)) ?_ fun i => ?_
  · intro c c' hc
    obtain rfl := Option.some.inj hc
    split <;> exact ⟨rfl, rfl, rfl, rfl⟩
  · exact Option.map_eq_bind ..

/-- What is executing was so before a connection was closed. -/
theorem World.Executing.of_closeConn {b : Alias} (h : (s.closeConn q b).Executing p k a) :
    s.Executing p k a := by
  refine h.of_map ?_ fun i => rfl
  intro c c' hc
  split at hc
  · split at hc
    · obtain rfl := Option.some.inj hc
      exact ⟨rfl, rfl, rfl, rfl⟩
    · cases hc
  · obtain rfl := Option.some.inj hc
    exact ⟨rfl, rfl, rfl, rfl⟩

/-- What is executing was so before a process was killed. -/
theorem World.Executing.of_kill (h : (s.kill q).Executing p k a) : s.Executing p k a := by
  refine h.of_map (f := fun c => some (if c.client = q then
    { c with attached := false } else c)) ?_ fun i => ?_
  · intro c c' hc
    obtain rfl := Option.some.inj hc
    split <;> exact ⟨rfl, rfl, rfl, rfl⟩
  · exact Option.map_eq_bind ..

/-- A shard statement of `q` on `b` concerns no backend of another process or alias. -/
theorem World.Executing.of_uses {b : Alias} {st : Activity} {f : Option Pk → Option Pk}
    (hu : s.Uses q b st f s') (hne : q ≠ p ∨ b ≠ a) (h : s'.Executing p k a) :
    s.Executing p k a := by
  obtain ⟨i, c, hc, hclient, hlabel, halias, hstate⟩ := h
  have hback : ∀ j (d : Backend), s'.backends = Function.update s.backends j (some d) →
      d.client = q → d.dbAlias = b → s.backends i = some c := by
    intro j d hs' hdq hdb
    rw [hs'] at hc
    by_cases hij : i = j
    · subst hij
      rw [Function.update_self] at hc
      obtain rfl := Option.some.inj hc
      rcases hne with hne | hne
      · exact absurd (hdq.symm.trans hclient) hne
      · exact absurd (hdb.symm.trans halias) hne
    · rwa [Function.update_of_ne hij] at hc
  rcases hu with ⟨j, d, _, hconn, rfl⟩ | ⟨_, j, _, rfl⟩
  · simp only [World.connected, Bool.and_eq_true, decide_eq_true_eq] at hconn
    exact ⟨i, c, hback j _ rfl hconn.1.2 hconn.2, hclient, hlabel, halias, hstate⟩
  · exact ⟨i, c, hback j _ rfl rfl rfl, hclient, hlabel, halias, hstate⟩

/-- The shard requests of a process on an alias. -/
def ShardUse (p : Pid) (a : Alias) (l : SysLabel) : Prop :=
  (∃ r, l = .inner p (.shard a r)) ∨ ∃ r answer, l = .answer p (.shard a r) answer

/-- Only a shard request of its own client sets a backend to work. -/
theorem executing_of_acts (h : machine.Acts l s s') (he : s'.Executing p k a) :
    s.Executing p k a ∨ ShardUse p a l := by
  have huses : ∀ {q b r st f}, s.Uses q b st f s' →
      (l = .inner q (.shard b r) ∨ ∃ answer, l = .answer q (.shard b r) answer) →
      s.Executing p k a ∨ ShardUse p a l := by
    intro q b r st f hu hl
    by_cases hqb : q = p ∧ b = a
    · obtain ⟨rfl, rfl⟩ := hqb
      exact .inr (hl.imp (fun h => ⟨r, h⟩) fun ⟨answer, h⟩ => ⟨r, answer, h⟩)
    · exact .inl (he.of_uses hu (Decidable.not_and_iff_or_not.mp hqb))
  cases l with
  | start q =>
    obtain rfl : s' = s := h
    exact .inl he
  | inner q op =>
    cases op with
    | shard b r =>
      obtain ⟨st, hu⟩ := h
      exact huses hu (.inl rfl)
    | _ => exact absurd h id
  | answer q op r =>
    cases op with
    | shard b sr =>
      cases r with
      | ok answer =>
        obtain ⟨_, st, _, hu⟩ := h
        exact huses hu (.inr ⟨_, rfl⟩)
      | error e =>
        rcases h.2 with ⟨st, _, hu⟩ | ⟨_, rfl⟩
        · exact huses hu (.inr ⟨_, rfl⟩)
        · exact .inl he.of_detach
    | closeShard b =>
      cases r with
      | ok answer =>
        obtain ⟨_, _, rfl⟩ := h
        exact .inl he.of_closeConn
      | error e =>
        rcases h.2 with rfl | ⟨_, rfl⟩
        · exact .inl he.of_closeConn
        · exact .inl he
    | _ => exact .inl (he.of_eq (exec_backends rfl h))
  | env =>
    rcases h with ⟨n, _, rfl⟩ | ⟨i, b, _, _, rfl⟩ | ⟨pk, _, rfl⟩
    · exact .inl he
    · obtain ⟨j, c, hc, hrest⟩ := he
      by_cases hji : j = i
      · subst hji
        change Function.update s.backends j none j = some c at hc
        rw [Function.update_self] at hc
        cases hc
      · change Function.update s.backends i none j = some c at hc
        rw [Function.update_of_ne hji] at hc
        exact .inl ⟨j, c, hc, hrest⟩
    · exact .inl he
  | kill q =>
    obtain rfl : s' = s.kill q := h
    exact .inl he.of_kill

/-! ### Between the check and the upsert -/

/-- A process stands before its upsert because it did so before, or because its session check
has just found nothing. -/
theorem checked_of_move (hm : Move machine (protocol maint) t s l s')
    (h : phaseAt (protocol maint) q (⟨l, s, s'⟩ :: t) = .checked k a) :
    l = .answer q (.shard a (.sessionActive k)) (.ok none) ∨
      phaseAt (protocol maint) q t = .checked k a := by
  rcases phase_of_move q hm with ⟨hsame, _⟩ | hout | hnext
  · exact .inr (hsame.symm.trans h)
  · rw [hout] at h
    cases h
  · rw [h] at hnext
    cases hnext with
    | checked k a _ => exact .inl rfl
    | plain hψ => exact Bool.noConfusion hψ

/-- What a step does while `q` stands between its session check and its upsert, and another
process `p` works on the same lease and alias: `p` starts a statement only under a live lease
of its own, which is neither given back nor expires before the statement has ended. -/
structure Careful (earlier : SysTrace) (e : SysEntry) : Prop where
  starts : ∀ q p k a, phaseAt (protocol true) q earlier = .checked k a → p ≠ q →
    ShardUse p a e.label → ¬ e.pre.Executing p k a → e.post.Executing p k a → e.pre.Live p k
  keeps : ∀ q p k a, phaseAt (protocol true) q earlier = .checked k a → p ≠ q →
    e.pre.Executing p k a →
      (∀ r, e.label ≠ .answer p (.leaseRelease k) r) ∧
      ∀ o r, e.label ≠ .answer o (.leaseForceRelease k p) r
  expires : ∀ q p k a, phaseAt (protocol true) q earlier = .checked k a → p ≠ q →
    e.pre.Executing p k a → e.label = .env →
      ∀ h, e.pre.lease k = some (some h) → h.owner = p → e.post.now ≤ h.untilAt

/-- The lease of a working process stays live over a careful step. -/
theorem live_of_careful (hm : Move machine (protocol true) t s l s')
    (hphase : ∀ p, PhaseOk p s (phaseAt (protocol true) p t)) (hc : Careful t ⟨l, s, s'⟩)
    (hq : phaseAt (protocol true) q t = .checked k a) (hpq : p ≠ q)
    (he : s.Executing p k a) (hlive : s.Live p k) : s'.Live p k := by
  obtain ⟨held, hrow, howner, huntil⟩ := hlive
  cases acts_leaseChange k hm.acts with
  | kept hkept =>
    refine ⟨held, hkept.trans hrow, howner, ?_⟩
    by_cases hl : l = .env
    · exact hc.expires q p k a hq hpq he hl held hrow howner
    · have hnow : s'.now = s.now := acts_now_eq hm.acts hl
      omega
  | taken p' r hlabel hclaim _ _ =>
    have hno : s.claimable k = false :=
      World.Live.not_claimable ⟨held, hrow, howner, huntil⟩
    rw [hno] at hclaim
    cases hclaim
  | released p' o hlabel hown _ _ =>
    have ho : o = p := by
      rw [World.leaseOwner, hrow] at hown
      exact (Option.some.inj hown).symm.trans howner
    subst ho
    obtain ⟨hrelease, hforce⟩ := hc.keeps q o k a hq hpq he
    rcases hlabel with ⟨rfl, r, hlabel⟩ | ⟨r, hlabel⟩
    · exact absurd hlabel (hrelease r)
    · exact absurd hlabel (hforce p' r)
  | inserted p' x hlabel htx hkey _ =>
    have hnone := ((hphase p').owns.inserted x k htx hkey).2
    rw [hnone] at hrow
    cases hrow

/-! ### The invariant -/

/-- While a process stands between its session check and its upsert, every other process that
works on the lease holds it, unexpired. -/
def Covered (t : SysTrace) (s : World) : Prop :=
  ∀ q p k a, phaseAt (protocol true) q t = .checked k a → p ≠ q → s.Executing p k a →
    s.Live p k

/-- A shard request moves no lease and no clock. -/
theorem live_of_shardUse (h : machine.Acts l s s') (hl : ShardUse p a l) (hlive : s.Live q k) :
    s'.Live q k := by
  have hrow : s'.lease k = s.lease k := by
    cases acts_leaseChange k h with
    | kept hrow => exact hrow
    | taken _ _ hlabel _ _ _ =>
      rcases hl with ⟨_, rfl⟩ | ⟨_, _, rfl⟩ <;> cases hlabel
    | released _ _ hlabel _ _ _ =>
      rcases hl with ⟨_, rfl⟩ | ⟨_, _, rfl⟩ <;>
        rcases hlabel with ⟨_, _, hlabel⟩ | ⟨_, hlabel⟩ <;> cases hlabel
    | inserted _ _ hlabel _ _ _ =>
      obtain ⟨_, hlabel⟩ := hlabel
      rcases hl with ⟨_, rfl⟩ | ⟨_, _, rfl⟩ <;> cases hlabel
  have hnow : s'.now = s.now := by
    refine acts_now_eq h ?_
    rcases hl with ⟨_, rfl⟩ | ⟨_, _, rfl⟩ <;> exact nofun
  obtain ⟨held, hheld, howner, huntil⟩ := hlive
  exact ⟨held, hrow.trans hheld, howner, hnow ▸ huntil⟩

/-- The session check finds every working backend of another process. -/
theorem not_executing_of_check
    (h : machine.Acts (.answer q (.shard a (.sessionActive k)) (.ok none)) s s') (hpq : p ≠ q) :
    ¬ s'.Executing p k a := by
  intro he
  obtain ⟨hans, st, _, hu⟩ := h
  obtain ⟨i, b, hb, hclient, hlabel, halias, hstate⟩ := he.of_uses hu (.inl (Ne.symm hpq))
  have hbusy : s.Busy q a k := by
    refine ⟨i, b, hb, halias, hlabel, ?_, ?_⟩
    · rw [hstate]
      exact nofun
    · simp [World.connected, hclient, hpq]
  exact absurd (hans.mpr hbusy) nofun

private theorem covered_of_move (hm : Move machine (protocol true) t s l s')
    (hphase : ∀ p, PhaseOk p s (phaseAt (protocol true) p t)) (hc : Careful t ⟨l, s, s'⟩)
    (hinv : Covered t s) : Covered (⟨l, s, s'⟩ :: t) s' := by
  intro q p k a hq hpq he
  rcases checked_of_move hm hq with rfl | hbefore
  · exact absurd he (not_executing_of_check hm.acts hpq)
  · by_cases hpre : s.Executing p k a
    · exact live_of_careful hm hphase hc hbefore hpq hpre (hinv q p k a hbefore hpq hpre)
    · have huse : ShardUse p a l := (executing_of_acts hm.acts he).resolve_left hpre
      exact live_of_shardUse hm.acts huse (hc.starts q p k a hbefore hpq huse hpre he)

/-- Every acquisition of a trace was made over no running backend of another process: the
alias is the one that the acquirer has just checked. -/
def NoAcquisitionOverRunning (t : SysTrace) : Prop :=
  ∀ later e earlier, t = later ++ e :: earlier → ∀ q k, Acquires q k e →
    ∃ a, phaseAt (protocol true) q earlier = .checked k a ∧
      ∀ p, p ≠ q → ¬ e.pre.Executing p k a

/-- An upsert is issued only right after a session check. -/
theorem Phase.of_permits_leaseUpsert (h : φ.permits maint (.leaseUpsert k)) :
    ∃ a, φ = .checked k a := by
  cases φ with
  | checked k' a =>
    obtain rfl : k = k' := Req.leaseUpsert.inj h
    exact ⟨a, rfl⟩
  | out => exact Bool.noConfusion h
  | leased k' seen => exact Bool.noConfusion h.1
  | bystander => exact Bool.noConfusion h
  | tx => exact h.elim
  | lost => rcases h with h | h <;> cases h
  | inserted k' => rcases h with h | h <;> cases h
  | free k' => rcases h with h | ⟨old, h, _⟩ <;> cases h
  | written pk move => rcases h with h | h | ⟨c, h⟩ <;> cases h
  | doomed => cases h

/-- In a run of careful steps no lease is taken over a running backend. -/
theorem no_acquisition_over_running {s₀ : World} {c : SysConfig} (h : SysRun s₀ t c)
    (hc : Throughout Careful t) : NoAcquisitionOverRunning t := by
  rintro later e earlier rfl q k hacq
  obtain ⟨c₁, c₂, hrun, hstep, hpre, hpost⟩ := h.2.split
  have hacts : machine.Acts e.label e.pre e.post := by
    rw [hpre, hpost]
    exact hstep.acts
  have hclaim := (hacq.taken hacts).1
  have hcovered : Covered earlier c₁.shared := by
    refine Run.invariant_throughout system_follows Careful Covered ?_ ?_ hrun hc.split.2
    · intro q p k a hq
      cases hq
    · intro t c l s' hrun hinv hcareful hm
      exact covered_of_move hm (Run.phaseOk system_follows h.1 hrun) hcareful hinv
  obtain ⟨r, hlabel⟩ := hacq.1
  rw [hlabel] at hstep
  obtain ⟨a, hphase⟩ := Phase.of_permits_leaseUpsert (hrun.move system_follows hstep).permits
  refine ⟨a, hphase, fun p hpq he => ?_⟩
  rw [hpre] at he hclaim
  have hlive := hcovered q p k a hphase hpq he
  rw [hlive.not_claimable] at hclaim
  cases hclaim

/-! ### Two runs -/

/-- `migrate_schemas -s acme cars`: a run restricted to one app. -/
def oneApp : RunOptions := { RunOptions.defaults with appLabel := some "cars" }

/-- A connection that breaks. -/
def serverClosed : Exn :=
  ⟨.external "OperationalError", "server closed the connection unexpectedly", "", "", true, false,
    false⟩

/-- What holds of every backend holds after one has changed. -/
theorem forall_backends_update {f : Nat → Option Backend} {j : Nat} {c : Backend}
    {Q : Backend → Prop} (hc : Q c) (hf : ∀ i b, f i = some b → Q b) :
    ∀ i b, Function.update f j (some c) i = some b → Q b := by
  intro i b hb
  by_cases hij : i = j
  · subst hij
    rw [Function.update_self] at hb
    obtain rfl := Option.some.inj hb
    exact hc
  · rw [Function.update_of_ne hij] at hb
    exact hf i b hb

/-- A tenant whose label no session has is not busy. -/
theorem World.not_busy_of_unlabelled (h : ∀ i b, s.backends i = some b → b.label ≠ some k) :
    ¬ s.Busy p a k := by
  rintro ⟨i, b, hb, _, hlabel, _⟩
  exact h i b hb hlabel

/-- A closed connection is no longer attached to a backend. -/
theorem World.closeConn_not_connected :
    ∀ i b, (s.closeConn p a).backends i = some b → World.connected p a b = false := by
  intro i b hb
  obtain ⟨c, _, hc⟩ := Option.bind_eq_some_iff.mp hb
  split at hc
  · split at hc
    · obtain rfl := Option.some.inj hc
      rfl
    · cases hc
  · rename_i hno
    obtain rfl := Option.some.inj hc
    exact Bool.eq_false_iff.mpr hno

/-- A lost connection is no longer attached to a backend. -/
theorem World.detach_not_connected :
    ∀ i b, (s.detach p a).backends i = some b → World.connected p a b = false := by
  intro i b hb
  obtain ⟨c, _, hc⟩ := Option.map_eq_some_iff.mp hb
  split at hc
  · subst hc
    rfl
  · rename_i hno
    subst hc
    exact Bool.eq_false_iff.mpr hno

/-- Without a connection nothing of its own can be running. -/
theorem World.idle_of_not_connected
    (h : ∀ i b, s.backends i = some b → World.connected p a b = false) :
    true = true ↔ ∀ i b, s.backends i = some b → World.connected p a b = true →
      b.state ≠ .active :=
  ⟨fun _ i b hb hconn => absurd ((h i b hb).symm.trans hconn) nofun, fun _ => rfl⟩

/-- `app-2` checks for sessions and finds none. `app-1` then takes the lease, starts the
migration, loses its connection and gives the lease back; `app-2` takes the lease while the
backend of `app-1` is still executing. -/
theorem acquisition_over_running :
    ∃ t c, SysRun (oneTenant acmeActive) t c ∧ ¬ NoAcquisitionOverRunning t := by
  have r0 : Run machine (fun _ => Starts true) (.idle (oneTenant acmeActive)) []
    (.idle (oneTenant acmeActive)) := .nil
  have r1 := r0.start "app-2:77" (.migrate 1 oneApp nofun) rfl
  have r2 := r1.answer "app-2:77" (.load 1) (.ok (some acmeActive)) ⟨rfl, rfl, rfl⟩ rfl
  have r3 := r2.answer "app-2:77" (.shard "shard1" (.sessionActive 1)) (.ok none)
    ⟨⟨nofun, fun h => absurd h oneTenant_not_busy⟩, .idle, nofun, .inr ⟨nofun, 0, rfl, rfl⟩⟩ rfl
  have r4 := r3.start "app-1:4312" (.migrate 1 oneApp nofun) rfl
  have r5 := r4.answer "app-1:4312" (.load 1) (.ok (some acmeActive)) ⟨rfl, rfl, rfl⟩ rfl
  have r6 := r5.answer "app-1:4312" (.shard "shard1" (.sessionActive 1)) (.ok none)
    ⟨⟨nofun, fun h => absurd h (World.not_busy_of_unlabelled (forall_backends_update nofun nofun))⟩,
      .idle, nofun, .inr ⟨forall_backends_update rfl nofun, 1, rfl, rfl⟩⟩ rfl
  have r7 := r6.answer "app-1:4312" (.leaseUpsert 1) (.ok true) ⟨rfl, rfl, rfl⟩ rfl
  have r8 := r7.answer "app-1:4312" (.load 1) (.ok (some acmeActive)) ⟨rfl, rfl, rfl⟩ rfl
  have r9 := r8.answer "app-1:4312" (.shard "shard1" (.schemaExists "acme")) (.ok true)
    ⟨trivial, .idle, nofun, .inl ⟨1, _, rfl, rfl, rfl⟩⟩ rfl
  have r10 := r9.answer "app-1:4312" (.shard "shard1" (.migrationPlan "acme"))
    (.ok [("cars", "0002")]) ⟨trivial, .idle, nofun, .inl ⟨1, _, rfl, rfl, rfl⟩⟩ rfl
  have r11 := r10.answer "app-1:4312" (.closeShard "shard1") (.ok ()) ⟨trivial, rfl, rfl⟩ rfl
  have r12 := r11.answer "app-1:4312" (.shard "shard1" (.openShard 1)) (.ok ())
    ⟨trivial, .idle, nofun, .inr ⟨World.closeConn_not_connected, 1, rfl, rfl⟩⟩ rfl
  have r13 := r12.inner "app-1:4312"
    (.shard "shard1" (.runMigrations (oneApp.upstream "shard1") "acme"))
    ⟨.active, .inl ⟨1, _, rfl, rfl, rfl⟩⟩ rfl
  have r14 := r13.answer "app-1:4312"
    (.shard "shard1" (.runMigrations (oneApp.upstream "shard1") "acme")) (.error serverClosed)
    ⟨⟨_, rfl⟩, .inr ⟨rfl, rfl⟩⟩ rfl
  have r15 := r14.answer "app-1:4312" (.shardIdle "shard1") (.ok true)
    ⟨World.idle_of_not_connected World.detach_not_connected, rfl, rfl⟩ rfl
  have r16 := r15.answer "app-1:4312" (.closeShard "shard1") (.ok ()) ⟨trivial, rfl, rfl⟩ rfl
  have r17 := r16.answer "app-1:4312" (.leaseRelease 1) (.ok true) ⟨rfl, rfl, rfl⟩ rfl
  have r18 := r17.answer "app-2:77" (.leaseUpsert 1) (.ok true) ⟨rfl, rfl, rfl⟩ rfl
  refine ⟨_, _, ⟨oneTenant_quiet acmeActive, r18⟩, fun hno => ?_⟩
  obtain ⟨a, hphase, hothers⟩ := hno [] _ _ rfl "app-2:77" 1 ⟨⟨_, rfl⟩, nofun⟩
  obtain rfl : "shard1" = a := (Phase.checked.inj hphase).2
  exact hothers "app-1:4312" nofun ⟨1, _, rfl, rfl, rfl, rfl, rfl⟩

/-! ### A careful run -/

/-- One backend changes. -/
def World.setBackend (s : World) (i : Nat) (b : Backend) : World :=
  { s with backends := Function.update s.backends i (some b) }

/-- No backend is executing a statement. -/
def World.Still (s : World) : Prop := ∀ i b, s.backends i = some b → b.state ≠ .active

/-- In a still world nothing is executing. -/
theorem World.Still.not_executing (h : s.Still) : ¬ s.Executing p k a := by
  rintro ⟨i, b, hb, _, _, _, hstate⟩
  exact h i b hb hstate

/-- A step without running backends is careful. -/
theorem Careful.of_still (hpre : s.Still) (hpost : s'.Still) : Careful t ⟨l, s, s'⟩ where
  starts _ _ _ _ _ _ _ _ he := absurd he hpost.not_executing
  keeps _ _ _ _ _ _ he := absurd he hpre.not_executing
  expires _ _ _ _ _ _ he := absurd he hpre.not_executing

/-- A step that starts statements under live leases is careful. -/
theorem Careful.of_starts (hpre : s.Still)
    (hlive : ∀ p k a, s'.Executing p k a → s.Live p k) : Careful t ⟨l, s, s'⟩ where
  starts _ p k a _ _ _ _ he := hlive p k a he
  keeps _ _ _ _ _ _ he := absurd he hpre.not_executing
  expires _ _ _ _ _ _ he := absurd he hpre.not_executing

/-- A shard request that leaves nothing running is careful. -/
theorem Careful.of_ends {b : Alias} {u : ShardReq} {r : Except Exn (Req.shard b u).Ans}
    (hpost : s'.Still) : Careful t ⟨.answer q (.shard b u) r, s, s'⟩ where
  starts _ _ _ _ _ _ _ _ he := absurd he hpost.not_executing
  keeps _ _ _ _ _ _ _ := by
    refine ⟨fun _ hl => ?_, fun _ _ hl => ?_⟩ <;> cases hl
  expires _ _ _ _ _ _ _ hl := by cases hl

/-- A request that returns leaves nothing running. -/
theorem World.Still.answer {op : Req} {r : op.Ans} (hs : s.Still)
    (h : machine.exec p op s (.ok r) s') : s'.Still := by
  cases op with
  | shard b q =>
    obtain ⟨_, st, hst, hu⟩ := h
    rcases hu with ⟨i, c, _, _, rfl⟩ | ⟨_, i, _, rfl⟩
    · exact forall_backends_update hst hs
    · exact forall_backends_update hst hs
  | closeShard b =>
    obtain ⟨_, _, rfl⟩ := h
    intro i c hc
    obtain ⟨d, hd, hcd⟩ := Option.bind_eq_some_iff.mp hc
    split at hcd
    · split at hcd
      · rename_i hactive
        exact absurd hactive (hs i d hd)
      · cases hcd
    · obtain rfl := Option.some.inj hcd
      exact hs i d hd
  | _ =>
    intro i c hc
    exact hs i c (exec_backends rfl h ▸ hc)

/-- A run of careful steps, at the end of which nothing is running. -/
structure StillRun (s₀ : World) (t : SysTrace) (c : SysConfig) : Prop where
  run : Run machine (fun _ => Starts true) (.idle s₀) t c
  still : c.shared.Still
  careful : Throughout Careful t

section StillRun

variable {s₀ : World} {c : SysConfig}

/-- A process that starts leaves the world still. -/
theorem StillRun.start (h : StillRun s₀ t c) (p : Pid) {r : Except Exn Unit} {prog : Prog Unit}
    (hs : Starts true prog) (hp : c.proc p = some (.done r)) :
    StillRun s₀ (⟨.start p, c.shared, c.shared⟩ :: t)
      ⟨c.shared, Function.update c.proc p (some prog)⟩ :=
  ⟨h.run.start p hs hp, h.still, .of_still h.still h.still, h.careful⟩

/-- An answer goes on with the run, in the world that it leaves. -/
theorem StillRun.answer (h : StillRun s₀ t c) (p : Pid) (op : Req) (r : op.Ans)
    {k : Except Exn op.Ans → Prog Unit} (he : machine.exec p op c.shared (.ok r) s')
    (hp : c.proc p = some (.call op k)) :
    StillRun s₀ (⟨.answer p op (.ok r), c.shared, s'⟩ :: t)
      ⟨s', Function.update c.proc p (some (k (.ok r)))⟩ :=
  ⟨h.run.answer p op (.ok r) he hp, h.still.answer he, .of_still h.still (h.still.answer he),
    h.careful⟩

/-- A statement of `p` is executed, under a live lease of `p`, and returns. -/
theorem StillRun.executes (h : StillRun s₀ t c) (p : Pid) (a : Alias) (u : ShardReq)
    (r : (Req.shard a u).Ans) {i : Nat} {b : Backend}
    {f : Except Exn (Req.shard a u).Ans → Prog Unit} (hb : c.shared.backends i = some b)
    (hconn : World.connected p a b = true) (hlive : ∀ k, b.label = some k → c.shared.Live p k)
    (hanswer : (Req.shard a u).Answers p (c.shared.setBackend i { b with state := .active }) r)
    (hp : c.proc p = some (.call (.shard a u) f)) :
    StillRun s₀
      (⟨.answer p (.shard a u) (.ok r), c.shared.setBackend i { b with state := .active },
          c.shared.setBackend i { b with state := .idle, label := Req.relabel u b.label }⟩ ::
        ⟨.inner p (.shard a u), c.shared, c.shared.setBackend i { b with state := .active }⟩ :: t)
      ⟨c.shared.setBackend i { b with state := .idle, label := Req.relabel u b.label },
        Function.update c.proc p (some (f (.ok r)))⟩ := by
  have hstill : (c.shared.setBackend i
      { b with state := .idle, label := Req.relabel u b.label }).Still :=
    forall_backends_update nofun h.still
  have hself : (c.shared.setBackend i { b with state := .active }).backends i =
      some { b with state := .active } := Function.update_self _ _ _
  have hinner := h.run.inner p (.shard a u) ⟨.active, .inl ⟨i, b, hb, hconn, rfl⟩⟩ hp
  refine ⟨hinner.answer p _ _ ⟨hanswer, .idle, nofun, .inl ⟨i, _, hself, hconn, ?_⟩⟩ hp, hstill,
    .of_ends hstill, .of_starts h.still ?_, h.careful⟩
  · simp only [World.setBackend, Function.update_idem]
  · rintro p' k' a' ⟨j, b', hb', hclient, hlabel, _, hstate⟩
    by_cases hj : j = i
    · subst hj
      obtain rfl := Option.some.inj (hself.symm.trans hb')
      have hclient' : b.client = p := by
        simp only [World.connected, Bool.and_eq_true, decide_eq_true_eq] at hconn
        exact hconn.1.2
      obtain rfl : p = p' := hclient'.symm.trans hclient
      exact hlive k' hlabel
    · have hold : c.shared.backends j = some b' :=
        (Function.update_of_ne hj _ _).symm.trans hb'
      exact absurd hstate (h.still j b' hold)

end StillRun

/-- `app-2` checks for sessions and finds none. `app-1` then takes the lease and migrates under
it; `app-2` takes the lease when `app-1` has ended its migration and given the lease back. -/
theorem acquisition_after_migration : ∃ e mid work earlier c,
    SysRun (oneTenant acmeActive) ([] ++ e :: (mid ++ work :: earlier)) c ∧
      Throughout Careful ([] ++ e :: (mid ++ work :: earlier)) ∧
      phaseAt (protocol true) "app-2:77" earlier = .checked 1 "shard1" ∧
      work.post.Executing "app-1:4312" 1 "shard1" ∧ work.post.Live "app-1:4312" 1 ∧
      Acquires "app-2:77" 1 e ∧
      NoAcquisitionOverRunning ([] ++ e :: (mid ++ work :: earlier)) := by
  have r0 : StillRun (oneTenant acmeActive) [] (.idle (oneTenant acmeActive)) :=
    ⟨.nil, nofun, trivial⟩
  have r1 := r0.start "app-2:77" (.migrate 1 oneApp nofun) rfl
  have r2 := r1.answer "app-2:77" (.load 1) (some acmeActive) ⟨rfl, rfl, rfl⟩ rfl
  have r3 := r2.answer "app-2:77" (.shard "shard1" (.sessionActive 1)) none
    ⟨⟨nofun, fun h => absurd h oneTenant_not_busy⟩, .idle, nofun, .inr ⟨nofun, 0, rfl, rfl⟩⟩ rfl
  have r4 := r3.start "app-1:4312" (.migrate 1 oneApp nofun) rfl
  have r5 := r4.answer "app-1:4312" (.load 1) (some acmeActive) ⟨rfl, rfl, rfl⟩ rfl
  have r6 := r5.answer "app-1:4312" (.shard "shard1" (.sessionActive 1)) none
    ⟨⟨nofun, fun h => absurd h (World.not_busy_of_unlabelled (forall_backends_update nofun nofun))⟩,
      .idle, nofun, .inr ⟨forall_backends_update rfl nofun, 1, rfl, rfl⟩⟩ rfl
  have r7 := r6.answer "app-1:4312" (.leaseUpsert 1) true ⟨rfl, rfl, rfl⟩ rfl
  have r8 := r7.answer "app-1:4312" (.load 1) (some acmeActive) ⟨rfl, rfl, rfl⟩ rfl
  have r9 := r8.answer "app-1:4312" (.shard "shard1" (.schemaExists "acme")) true
    ⟨trivial, .idle, nofun, .inl ⟨1, _, rfl, rfl, rfl⟩⟩ rfl
  have r10 := r9.answer "app-1:4312" (.shard "shard1" (.migrationPlan "acme"))
    [("cars", "0002")] ⟨trivial, .idle, nofun, .inl ⟨1, _, rfl, rfl, rfl⟩⟩ rfl
  have r11 := r10.answer "app-1:4312" (.closeShard "shard1") () ⟨trivial, rfl, rfl⟩ rfl
  have r12 := r11.answer "app-1:4312" (.shard "shard1" (.openShard 1)) ()
    ⟨trivial, .idle, nofun, .inr ⟨World.closeConn_not_connected, 1, rfl, rfl⟩⟩ rfl
  have r13 := r12.executes "app-1:4312" "shard1"
    (.runMigrations (oneApp.upstream "shard1") "acme") () (i := 1) rfl rfl
    (fun k hk => Option.some.inj hk ▸ ⟨_, rfl, rfl, Nat.zero_le _⟩) trivial rfl
  have r15 := r13.answer "app-1:4312" (.shard "shard1" (.schemaExists "acme")) true
    ⟨trivial, .idle, nofun, .inl ⟨1, _, rfl, rfl, rfl⟩⟩ rfl
  have r16 := r15.answer "app-1:4312" (.shard "shard1" (.migrationPlan "acme")) []
    ⟨trivial, .idle, nofun, .inl ⟨1, _, rfl, rfl, rfl⟩⟩ rfl
  have r17 := r16.answer "app-1:4312" (.closeShard "shard1") () ⟨trivial, rfl, rfl⟩ rfl
  have r18 := r17.answer "app-1:4312" (.shardIdle "shard1") true
    ⟨World.idle_of_not_connected World.closeConn_not_connected, rfl, rfl⟩ rfl
  have r19 := r18.answer "app-1:4312" (.closeShard "shard1") () ⟨trivial, rfl, rfl⟩ rfl
  have r20 := r19.answer "app-1:4312" (.leaseRelease 1) true ⟨rfl, rfl, rfl⟩ rfl
  have r21 := r20.answer "app-2:77" (.leaseUpsert 1) true ⟨rfl, rfl, rfl⟩ rfl
  have hrun : SysRun (oneTenant acmeActive) ([] ++ _ :: ([_, _, _, _, _, _, _] ++ _ :: _)) _ :=
    ⟨oneTenant_quiet acmeActive, r21.run⟩
  refine ⟨_, _, _, _, _, hrun, r21.careful, rfl, ⟨1, _, rfl, rfl, rfl, rfl, rfl⟩, ⟨_, rfl, rfl, Nat.zero_le _⟩,
    ⟨⟨_, rfl⟩, nofun⟩, no_acquisition_over_running hrun r21.careful⟩

end MtShards.Migrator
