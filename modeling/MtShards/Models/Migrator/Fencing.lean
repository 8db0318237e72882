import MtShards.Models.Migrator.Frames

/-!
# Lease fencing

A fenced status write that returns 1 was made under the writer's latest acquisition, and
nobody has acquired the lease since. The fence compares owner strings only. It is enough
because a takeover rewrites the owner, a release clears it, and a process never attempts a
second acquisition inside one `migrate_tenant`; the expiry plays no part.
-/

namespace MtShards.Migrator

open MtShards.Core

variable {maint : Bool} {φ : Phase} {k k' pk : Pk} {p q : Pid} {seen : Seen} {t : SysTrace}
  {s s' : World} {l : SysLabel}

/-! ### Which phases lead to a lease -/

/-- The lease a phase holds. -/
def Phase.leaseKey : Phase → Option Pk
  | .leased k _ => some k
  | _ => none

theorem Phase.leaseKey_of_plain (h : φ.plain = true) : φ.leaseKey = none := by
  cases φ with
  | leased k seen => exact Bool.noConfusion h
  | _ => rfl

/-- A fenced status write is made by a leaseholder, on a status it has seen. -/
theorem Phase.of_permits_fencedCas {expected : List Status} {w : World.StatusWrite}
    (h : φ.permits maint (.fencedCas pk expected w)) :
    ∃ s, φ = .leased pk (.read s) ∧ CasAllowed s expected w.status := by
  cases φ with
  | leased k seen =>
    obtain ⟨rfl, s, rfl, hs⟩ := h
    exact ⟨s, rfl, hs⟩
  | out => exact Bool.noConfusion h
  | bystander => exact Bool.noConfusion h
  | tx => exact h.elim
  | checked k a => cases h
  | doomed => cases h
  | lost => rcases h with h | h <;> cases h
  | inserted k => rcases h with h | h <;> cases h
  | free k => rcases h with h | ⟨old, h, _⟩ <;> cases h
  | written pk move => rcases h with h | h | ⟨c, h⟩ <;> cases h

/-- A step of `lease_acquire` of `p` on `k`, winning or not. -/
def LeaseAttempt (p : Pid) (k : Pk) (l : SysLabel) : Prop :=
  (∃ a r, l = .answer p (.shard a (.sessionActive k)) r) ∨ ∃ r, l = .answer p (.leaseUpsert k) r

/-- A leaseholder makes no attempt at a lease. -/
theorem not_leaseAttempt_of_move (hm : Move machine (protocol maint) t s l s')
    (hφ : (phaseAt (protocol maint) p t).leaseKey = some k') : ¬ LeaseAttempt p k l := by
  have hpermits : ∀ op r, l = .answer p op r → (phaseAt (protocol maint) p t).permits maint op := by
    rintro op r rfl
    exact hm.permits
  generalize phaseAt (protocol maint) p t = φ at hφ hpermits
  cases φ with
  | leased k'' seen =>
    rintro (⟨a, r, hl⟩ | ⟨r, hl⟩)
    · exact Bool.noConfusion (hpermits _ _ hl).1
    · exact Bool.noConfusion (hpermits _ _ hl).1
  | _ => cases hφ

/-- How a process comes to hold a lease along a run. -/
theorem leaseKey_of_move (hm : Move machine (protocol maint) t s l s')
    (h : (phaseAt (protocol maint) p (⟨l, s, s'⟩ :: t)).leaseKey = some k) :
    l = .answer p (.leaseUpsert k) (.ok true) ∨
      ((phaseAt (protocol maint) p t).leaseKey = some k ∧ ¬ LeaseAttempt p k l) := by
  have hkeep : (phaseAt (protocol maint) p t).leaseKey = some k →
      l = .answer p (.leaseUpsert k) (.ok true) ∨
        ((phaseAt (protocol maint) p t).leaseKey = some k ∧ ¬ LeaseAttempt p k l) :=
    fun hφ => .inr ⟨hφ, not_leaseAttempt_of_move hm hφ⟩
  rcases phase_of_move p hm with ⟨hsame, _⟩ | hout | hnext
  · exact hkeep (hsame ▸ h)
  · rw [hout] at h
    cases h
  · generalize phaseAt (protocol maint) p (⟨l, s, s'⟩ :: t) = ψ at h hnext
    cases hnext with
    | plain hψ =>
      rw [Phase.leaseKey_of_plain hψ] at h
      cases h
    | acquired k' a _ =>
      cases h
      exact .inl rfl
    | told k' seen x hφ _ => exact hkeep (hφ ▸ h)
    | kept k' seen hφ _ => exact hkeep (hφ ▸ h)
    | cutOff k' seen hφ => exact hkeep (hφ ▸ h)
    | checked k' a _ => cases h
    | moved pk old dest _ => cases h
    | saved pk move _ => cases h

/-! ### Live leases -/

/-- `p` holds the lease, and it has not expired. -/
def World.Live (s : World) (p : Pid) (k : Pk) : Prop :=
  ∃ h, s.lease k = some (some h) ∧ h.owner = p ∧ s.now ≤ h.untilAt

theorem World.Live.not_claimable (h : s.Live p k) : s.claimable k = false := by
  obtain ⟨held, hrow, _, hlive⟩ := h
  rw [World.claimable, hrow]
  simp only [decide_eq_false_iff_not, Nat.not_lt]
  exact hlive

/-! ### The invariant -/

/-- An entry of a trace of the system. -/
abbrev SysEntry := Entry Pid Req Req.Ans Exn World

/-- The upsert of `p` takes the lease `k`, whether or not its answer gets through. -/
def Acquires (p : Pid) (k : Pk) (e : SysEntry) : Prop :=
  (∃ r, e.label = .answer p (.leaseUpsert k) r) ∧ e.post.lease k ≠ e.pre.lease k

/-- A fenced status write of `p` on the tenant updates its row, whether or not its answer
gets through. -/
def StatusWritten (p : Pid) (pk : Pk) (e : SysEntry) : Prop :=
  ∃ expected w r, e.label = .answer p (.fencedCas pk expected w) r ∧
    (r = .ok true ∨ e.post.tenant pk ≠ e.pre.tenant pk)

/-- The entries since the latest acquisition of a leaseholder: it made no other attempt, and
as long as it is the owner, it was the owner throughout. -/
structure HeldSince (p : Pid) (k : Pk) (s : World) (mid : SysTrace) (acq : SysEntry) : Prop where
  label : acq.label = .answer p (.leaseUpsert k) (.ok true)
  changed : acq.post.lease k ≠ acq.pre.lease k
  no_attempt : ∀ e ∈ mid, ¬ LeaseAttempt p k e.label
  owner : s.leaseOwner k = some p →
    ∀ e ∈ mid, e.pre.leaseOwner k = some p ∧ e.post.leaseOwner k = some p

/-- A claimable lease changes when it is taken. -/
theorem World.upsert_changes (hc : s.claimable k = true) :
    some (some ⟨p, s.now, s.now + leaseTtl⟩) ≠ s.lease k := by
  intro h
  rw [World.claimable, ← h] at hc
  have hlt : s.now + leaseTtl < s.now := of_decide_eq_true hc
  omega

/-- An owner other than the one before has come by its own upsert. -/
theorem leaseOwner_of_acts (h : machine.Acts l s s') (ho : s'.leaseOwner k = some p) :
    s.leaseOwner k = some p ∨ ∃ r, l = .answer p (.leaseUpsert k) r := by
  cases acts_leaseChange k h with
  | kept hrow =>
    rw [World.leaseOwner, hrow] at ho
    exact .inl ho
  | taken q r hl _ _ hrow =>
    rw [World.leaseOwner, hrow] at ho
    obtain rfl : q = p := Option.some.inj ho
    exact .inr ⟨r, hl⟩
  | released q o _ _ _ hrow =>
    rw [World.leaseOwner, hrow] at ho
    cases ho
  | inserted q x _ _ _ hrow =>
    rw [World.leaseOwner, hrow] at ho
    cases ho

/-- Every leaseholder has an acquisition in the trace, and it is its latest attempt. -/
theorem held_since {s₀ : World} {c : SysConfig} (h : SysRun s₀ t c)
    (hp : (phaseAt (protocol true) p t).leaseKey = some k) :
    ∃ mid acq old, t = mid ++ acq :: old ∧ HeldSince p k c.shared mid acq := by
  refine Run.invariant system_follows (fun t s => ∀ p k,
    (phaseAt (protocol true) p t).leaseKey = some k →
      ∃ mid acq old, t = mid ++ acq :: old ∧ HeldSince p k s mid acq) ?_ ?_ h.2 p k hp
  · intro p k hp
    cases hp
  · intro t s l s' ih hm p k hp
    rcases leaseKey_of_move hm hp with rfl | ⟨hheld, hno⟩
    · obtain ⟨ha, hw, rfl⟩ := hm.acts
      have hc : s.claimable k = true := ha.symm
      refine ⟨[], _, t, rfl, rfl, ?_, ?_, ?_⟩
      rotate_left
      · intro e he
        cases he
      · intro _ e he
        cases he
      change (s.upsertLease p k).lease k ≠ s.lease k
      rw [World.upsertLease, if_pos hc]
      dsimp only
      rw [Function.update_self]
      exact World.upsert_changes hc
    · obtain ⟨mid, acq, old, rfl, hsince⟩ := ih p k hheld
      refine ⟨⟨l, s, s'⟩ :: mid, acq, old, rfl, hsince.label, hsince.changed, ?_, ?_⟩
      · rintro e (_ | ⟨_, he⟩)
        · exact hno
        · exact hsince.no_attempt e he
      · intro ho
        have hs : s.leaseOwner k = some p :=
          (leaseOwner_of_acts hm.acts ho).resolve_right fun hl => hno (.inr hl)
        rintro e (_ | ⟨_, he⟩)
        · exact ⟨hs, ho⟩
        · exact hsince.owner hs e he

/-! ### The fence -/

/-- A carried out upsert found the lease free or expired. -/
theorem Acquires.taken {e : SysEntry} (h : Acquires q k e)
    (ha : machine.Acts e.label e.pre e.post) : e.pre.claimable k = true ∧
      e.post.lease k = some (some ⟨q, e.pre.now, e.pre.now + leaseTtl⟩) := by
  obtain ⟨⟨r, hl⟩, hchange⟩ := h
  cases acts_leaseChange k ha with
  | kept hrow => exact absurd hrow hchange
  | taken q' r' hl' hclaim _ hrow =>
    rw [hl] at hl'
    cases hl'
    exact ⟨hclaim, hrow⟩
  | released q' o hl' _ _ _ =>
    rw [hl] at hl'
    rcases hl' with ⟨_, _, hl'⟩ | ⟨_, hl'⟩ <;> cases hl'
  | inserted q' x hl' _ _ _ =>
    rw [hl] at hl'
    obtain ⟨_, hl'⟩ := hl'
    cases hl'

/-- A carried out upsert makes its process the owner. -/
theorem Acquires.owner {e : SysEntry} (h : Acquires q k e)
    (ha : machine.Acts e.label e.pre e.post) : e.post.leaseOwner k = some q := by
  rw [World.leaseOwner, (h.taken ha).2]
  rfl

/-- A fenced write is carried out only in the name of the owner. -/
theorem StatusWritten.owner {e : SysEntry} (h : StatusWritten q pk e)
    (ha : machine.Acts e.label e.pre e.post) : e.pre.leaseOwner pk = some q := by
  obtain ⟨expected, w, r, hl, hwrite⟩ := h
  rw [hl] at ha
  have hfence : e.pre.fenceHolds q pk expected = true := by
    rcases hwrite with rfl | hchange
    · exact ha.1.symm
    · by_contra hno
      rcases exec_committed ha with hkept | ⟨_, happly⟩
      · exact hchange (congrFun (World.committed_eq_iff.mp hkept).2.1 pk)
      · refine hchange ?_
        rw [(World.committed_eq_iff.mp happly).2.1, Req.apply, World.fencedCas, if_neg hno]
  rw [World.fenceHolds] at hfence
  split at hfence
  · exact of_decide_eq_true (Bool.and_eq_true_iff.mp hfence).2
  · cases hfence

/-- Whenever a fenced status write of `p` is carried out, the latest attempt of `p` at the
lease was an acquisition, nobody has acquired the lease since, and every fenced status write
since then is one of `p`: the writes of a tenant fall into blocks, one per acquisition. -/
theorem fenced_writes_within_acquisition {s₀ : World} {c : SysConfig} {later earlier : SysTrace}
    {e : SysEntry} (h : SysRun s₀ (later ++ e :: earlier) c) (hw : StatusWritten p pk e) :
    ∃ mid acq old, earlier = mid ++ acq :: old ∧
      acq.label = .answer p (.leaseUpsert pk) (.ok true) ∧ Acquires p pk acq ∧
      (∀ e' ∈ mid, ¬ LeaseAttempt p pk e'.label) ∧
      (∀ e' ∈ mid, ∀ q, ¬ Acquires q pk e') ∧
      ∀ e' ∈ mid, ∀ q, StatusWritten q pk e' → q = p := by
  obtain ⟨c₁, c₂, hrun, hstep, hpre, hpost⟩ := h.2.split
  have hacts : machine.Acts e.label e.pre e.post := by
    rw [hpre, hpost]
    exact hstep.acts
  have howner : c₁.shared.leaseOwner pk = some p := hpre ▸ hw.owner hacts
  have hleased : (phaseAt (protocol true) p earlier).leaseKey = some pk := by
    obtain ⟨expected, w, r, hl, _⟩ := hw
    rw [hl] at hstep
    obtain ⟨s, hφ, _⟩ := Phase.of_permits_fencedCas (hrun.move system_follows hstep).permits
    rw [hφ]
    rfl
  obtain ⟨mid, acq, old, rfl, hsince⟩ := held_since ⟨h.1, hrun⟩ hleased
  have hmid : ∀ e' ∈ mid, machine.Acts e'.label e'.pre e'.post :=
    fun e' he' => hrun.acts_of_mem (List.mem_append_left _ he')
  refine ⟨mid, acq, old, rfl, hsince.label, ⟨⟨_, hsince.label⟩, hsince.changed⟩,
    hsince.no_attempt, ?_, ?_⟩
  · intro e' he' q hq
    have hqp : q = p := by
      have hpost' := (hsince.owner howner e' he').2
      rw [hq.owner (hmid e' he')] at hpost'
      exact Option.some.inj hpost'
    subst hqp
    exact hsince.no_attempt e' he' (.inr hq.1)
  · intro e' he' q hq
    have hpre' := (hsince.owner howner e' he').1
    rw [hq.owner (hmid e' he')] at hpre'
    exact Option.some.inj hpre'

/-! ### A run with a status write -/

/-- A tenant that was just created. -/
def acme : Tenant :=
  ⟨"acme", "Acme", "", none, ⟨"shard1", false⟩, .new, .new, 0, ""⟩

/-- A tenant in service. -/
def acmeActive : Tenant := { acme with status := .active }

/-- One tenant, no lease, no backend, no transaction. -/
def oneTenant (t : Tenant) : World :=
  ⟨0, fun _ => none, fun pk => if pk = 1 then some t else none, fun _ => none, fun _ => none,
    fun _ => none, fun _ => none⟩

theorem oneTenant_quiet (t : Tenant) : (oneTenant t).Quiet :=
  ⟨fun _ => rfl, fun _ => rfl, fun _ => rfl⟩

theorem oneTenant_not_busy {t : Tenant} {a : Alias} : ¬ (oneTenant t).Busy p a k := by
  rintro ⟨i, b, h, _⟩
  cases h

/-- A migrator claims the tenant: load, session check, upsert, re-read, two look-ups, claim. -/
theorem claim_run : ∃ e earlier c, SysRun (oneTenant acme) ([] ++ e :: earlier) c ∧
    StatusWritten "app-1:4312" 1 e := by
  have r0 : Run machine (fun _ => Starts true) (.idle (oneTenant acme)) [] (.idle (oneTenant acme)) :=
    .nil
  have r1 := r0.start "app-1:4312" (.migrate 1 .defaults nofun) rfl
  have r2 := r1.answer "app-1:4312" (.load 1) (.ok (some acme)) ⟨rfl, rfl, rfl⟩ rfl
  have r3 := r2.answer "app-1:4312" (.shard "shard1" (.sessionActive 1)) (.ok none)
    ⟨⟨nofun, fun h => absurd h oneTenant_not_busy⟩, .idle, nofun, .inr ⟨nofun, 0, rfl, rfl⟩⟩ rfl
  have r4 := r3.answer "app-1:4312" (.leaseUpsert 1) (.ok true) ⟨rfl, rfl, rfl⟩ rfl
  have r5 := r4.answer "app-1:4312" (.load 1) (.ok (some acme)) ⟨rfl, rfl, rfl⟩ rfl
  have r6 := r5.answer "app-1:4312" .codeOlderThanDb (.ok false) ⟨trivial, rfl, rfl⟩ rfl
  have r7 := r6.answer "app-1:4312" (.shard "shard1" (.schemaHasRelations "acme")) (.ok false)
    ⟨trivial, .idle, nofun, .inl ⟨0, _, rfl, rfl, rfl⟩⟩ rfl
  have r8 := r7.answer "app-1:4312" (.fencedCas 1 provisionable ⟨.pending, .new, ""⟩) (.ok true)
    ⟨rfl, rfl, rfl⟩ rfl
  exact ⟨_, _, _, ⟨oneTenant_quiet acme, r8⟩, ⟨_, _, _, rfl, .inl rfl⟩⟩

/-- The claim of a new tenant was made under an acquisition. -/
theorem fenced_writes_claim : ∃ e earlier c, SysRun (oneTenant acme) ([] ++ e :: earlier) c ∧
    StatusWritten "app-1:4312" 1 e ∧ ∃ mid acq old, earlier = mid ++ acq :: old ∧
      Acquires "app-1:4312" 1 acq ∧ ∀ e' ∈ mid, ∀ q, ¬ Acquires q 1 e' := by
  obtain ⟨e, earlier, c, hrun, hwritten⟩ := claim_run
  obtain ⟨mid, acq, old, ht, _, hacq, _, hothers, _⟩ :=
    fenced_writes_within_acquisition hrun hwritten
  exact ⟨e, earlier, c, hrun, hwritten, mid, acq, old, ht, hacq, hothers⟩

end MtShards.Migrator
