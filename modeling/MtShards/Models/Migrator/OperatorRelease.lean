import MtShards.Models.Migrator.Fencing
import MtShards.Models.Migrator.Inventory

/-!
# `migration_lease --release` against the acquisition it was shown

The command reads the holder of a lease, runs its checks, and frees the row if the owner is
still the one it was shown. An owner is a process and not an acquisition: what the `UPDATE`
frees is the acquisition that was read exactly when that process has not acquired the lease
again in between. A takeover by anyone else makes the `UPDATE` match nothing.
-/

namespace MtShards.Migrator

open MtShards.Core Program

variable {φ : Option (Pk × LeaseHolder)} {p q : Pid} {k : Pk} {t : SysTrace} {s s' : World}
  {l : SysLabel}

/-! ### The read before the `UPDATE` -/

/-- What the latest read of a holder has shown to a process. -/
def shownNext (φ : Option (Pk × LeaseHolder)) :
    (op : Req) → Except Exn op.Ans → Option (Pk × LeaseHolder)
  | .leaseHolder k, .ok h => h.map fun h => (k, h)
  | .leaseHolder _, .error _ => none
  | _, _ => φ

/-- A lease is freed in the name of the owner that was shown, and of no other. -/
def shownPermits (φ : Option (Pk × LeaseHolder)) : Req → Prop
  | .leaseForceRelease k o => ∃ h, φ = some (k, h) ∧ h.owner = o
  | _ => True

/-- The protocol of an operator's release. -/
def shownProtocol : Protocol Req Req.Ans Exn (Option (Pk × LeaseHolder)) where
  init := none
  permits := shownPermits
  next := shownNext
  mayStop _ := True
  mayStop_init := trivial

private theorem shownPermits_of_migrates {pk : Pk} {A : Alias → Prop} {op : Req} (h : op.migrates pk A) :
    shownPermits φ op := by
  cases op with
  | leaseForceRelease k o => exact h.elim
  | _ => trivial

theorem shownPermits_of_edits {op : Req} (h : op.edits) : shownPermits φ op := by
  cases op with
  | leaseForceRelease k o => exact h.elim
  | _ => trivial

/-- A session check shows no holder. -/
theorem shown_of_inspects {op : Req} (h : op.inspects) :
    shownProtocol.permits φ op ∧ ∀ r, shownProtocol.next φ op r = φ := by
  cases op with
  | shard a q => exact ⟨trivial, fun _ => rfl⟩
  | _ => exact h.elim

private theorem releaseCommand_shown (k : Pk) (label : String) (aliases : List Alias) (force : Bool) :
    (releaseCommand k label aliases force).Follows shownProtocol none fun _ _ => True := by
  rw [releaseCommand, follows_bind]
  refine ⟨trivial, fun found => ?_⟩
  cases found with
  | error e => trivial
  | ok found =>
    cases found with
    | none => trivial
    | some h =>
      refine follows_bind.mpr ?_
      refine ((releaseUnlessForced_inspects k label aliases force h).follows
        fun op hop => shown_of_inspects hop).mono fun φ' r hφ => ?_
      cases r with
      | error e => trivial
      | ok _ =>
        subst hφ
        refine follows_bind.mpr ⟨⟨h, rfl, rfl⟩, fun released => ?_⟩
        cases released with
        | error e => trivial
        | ok released =>
          cases released with
          | true => trivial
          | false =>
            refine follows_bind.mpr ⟨trivial, fun cur => ?_⟩
            cases cur <;> trivial

/-- Every program of the system keeps to it. -/
theorem system_shown : AllFollow shownProtocol (fun _ : Pid => Starts true) := by
  intro p prog h
  cases h with
  | migrate pk opts _ =>
    exact ((migrateTenant_migrates pk opts).follows_anywhere
      fun φ op hop => shownPermits_of_migrates hop).void
  | activate pk =>
    exact ((transition_edits pk _ _ _).follows_anywhere
      fun φ op hop => shownPermits_of_edits hop).void
  | deactivate pk =>
    exact ((transition_edits pk _ _ _).follows_anywhere
      fun φ op hop => shownPermits_of_edits hop).void
  | adminChange sub =>
    exact ((adminChange_edits sub).follows_anywhere fun φ op hop => shownPermits_of_edits hop).void
  | serializerUpdate pk ch =>
    exact (serializerUpdate_edits pk ch).follows_anywhere fun φ op hop => shownPermits_of_edits hop
  | releaseCommand k label aliases force => exact (releaseCommand_shown k label aliases force).void

/-! ### From the read to the `UPDATE` -/

/-- The row that a holder was read from. -/
def LeaseHolder.held (h : LeaseHolder) : Held := ⟨h.owner, h.since, h.untilAt⟩

/-- A holder is read from a committed row. -/
theorem World.lease_of_leaseHolder {h : LeaseHolder} (hh : s.leaseHolder p k = some h) :
    s.lease k = some (some h.held) := by
  have hrow : s.leaseRow p k = some (some h.held) := by
    rw [World.leaseHolder] at hh
    obtain ⟨held, hjoin, rfl⟩ := Option.map_eq_some_iff.mp hh
    exact Option.join_eq_some_iff.mp hjoin
  rw [World.leaseRow] at hrow
  split at hrow
  · split at hrow
    · cases hrow
    · exact hrow
  · exact hrow

/-- The entries since `p` read the holder of a lease, within one program. -/
structure ReadSince (p : Pid) (k : Pk) (h : LeaseHolder) (mid : SysTrace) (rd : SysEntry) :
    Prop where
  label : rd.label = .answer p (.leaseHolder k) (.ok (some h))
  row : rd.post.lease k = some (some h.held)
  same_command : ∀ e ∈ mid, e.label ≠ .start p
  no_reread : ∀ e ∈ mid, ∀ k' r, e.label ≠ .answer p (.leaseHolder k') r

/-- The lease row is the acquisition that was shown, and nobody has acquired it since. -/
def StillShown (k : Pk) (h : LeaseHolder) (mid : SysTrace) (s : World) : Prop :=
  s.lease k = some (some h.held) ∧ ∀ e ∈ mid, ∀ q, ¬ Acquires q k e

/-- As long as the shown owner does not acquire the lease again, the row is the one that was
shown or has another owner. -/
def ShownOrMoved (k : Pk) (h : LeaseHolder) (mid : SysTrace) (s : World) : Prop :=
  (∀ e ∈ mid, ¬ Acquires h.owner k e) → StillShown k h mid s ∨ s.leaseOwner k ≠ some h.owner

/-- One more step after the read. -/
theorem ShownOrMoved.step {h : LeaseHolder} {mid : SysTrace} (hs : ShownOrMoved k h mid s)
    (ha : machine.Acts l s s') : ShownOrMoved k h (⟨l, s, s'⟩ :: mid) s' := by
  intro hno
  have hmid : ∀ e ∈ mid, ¬ Acquires h.owner k e := fun e he => hno e (List.mem_cons_of_mem _ he)
  cases acts_leaseChange k ha with
  | kept hrow =>
    rcases hs hmid with ⟨hshown, hnobody⟩ | hmoved
    · refine .inl ⟨hrow.trans hshown, ?_⟩
      intro e he q hq
      rcases List.mem_cons.mp he with rfl | he
      · exact hq.2 hrow
      · exact hnobody e he q hq
    · refine .inr ?_
      rw [World.leaseOwner, hrow]
      exact hmoved
  | taken q r hl hc _ hrow =>
    refine .inr ?_
    rw [World.leaseOwner, hrow]
    intro howner
    obtain rfl : q = h.owner := Option.some.inj howner
    refine hno _ List.mem_cons_self ⟨⟨r, hl⟩, ?_⟩
    change s'.lease k ≠ s.lease k
    rw [hrow]
    exact World.upsert_changes hc
  | released q o _ _ _ hrow =>
    refine .inr ?_
    rw [World.leaseOwner, hrow]
    intro howner
    cases howner
  | inserted q x _ _ _ hrow =>
    refine .inr ?_
    rw [World.leaseOwner, hrow]
    intro howner
    cases howner

/-- Other requests show no holder. -/
theorem shownNext_of_ne {op : Req} {r : Except Exn op.Ans} (hop : ∀ k, op ≠ .leaseHolder k) :
    shownNext φ op r = φ := by
  cases op with
  | leaseHolder k => exact absurd rfl (hop k)
  | _ => rfl

/-- How a process comes to have been shown a holder. -/
theorem shown_of_move (hm : Move machine shownProtocol t s l s') {h : LeaseHolder}
    (hφ : phaseAt shownProtocol p (⟨l, s, s'⟩ :: t) = some (k, h)) :
    l = .answer p (.leaseHolder k) (.ok (some h)) ∨
      (phaseAt shownProtocol p t = some (k, h) ∧ l ≠ .start p ∧
        ∀ k' r, l ≠ .answer p (.leaseHolder k') r) := by
  cases l with
  | start q =>
    by_cases hq : q = p
    · subst hq
      rw [phaseAt_start_self] at hφ
      cases hφ
    · rw [phaseAt_start_of_ne hq] at hφ
      refine .inr ⟨hφ, fun hl => hq ?_, nofun⟩
      cases hl
      rfl
  | inner q op => exact .inr ⟨hφ, nofun, nofun⟩
  | env => exact .inr ⟨hφ, nofun, nofun⟩
  | kill q =>
    by_cases hq : q = p
    · subst hq
      rw [phaseAt_kill_self] at hφ
      cases hφ
    · rw [phaseAt_kill_of_ne hq] at hφ
      exact .inr ⟨hφ, nofun, nofun⟩
  | answer q op r =>
    by_cases hq : q = p
    · subst hq
      rw [phaseAt_answer_self] at hφ
      by_cases hop : ∃ k', op = .leaseHolder k'
      · obtain ⟨k', rfl⟩ := hop
        cases r with
        | error e => cases hφ
        | ok found =>
          cases found with
          | none => cases hφ
          | some h' =>
            cases hφ
            exact .inl rfl
      · have hne : ∀ k', op ≠ .leaseHolder k' := fun k' hk => hop ⟨k', hk⟩
        refine .inr ⟨(shownNext_of_ne hne).symm.trans hφ, nofun, fun k' r' hl => ?_⟩
        cases hl
        exact hne k' rfl
    · rw [phaseAt_answer_of_ne hq] at hφ
      refine .inr ⟨hφ, nofun, fun k' r' hl => hq ?_⟩
      cases hl
      rfl

/-- What a process was shown was read in this very command, and the row is still that
acquisition unless its owner has acquired the lease again. -/
theorem shown_since {s₀ : World} {c : SysConfig} (hrun : SysRun s₀ t c) {h : LeaseHolder}
    (hφ : phaseAt shownProtocol p t = some (k, h)) :
    ∃ mid rd old, t = mid ++ rd :: old ∧ ReadSince p k h mid rd ∧
      ShownOrMoved k h mid c.shared := by
  refine Run.invariant system_shown (fun t s => ∀ p k h, phaseAt shownProtocol p t = some (k, h) →
    ∃ mid rd old, t = mid ++ rd :: old ∧ ReadSince p k h mid rd ∧ ShownOrMoved k h mid s)
    ?_ ?_ hrun.2 p k h hφ
  · intro p k h hφ
    cases hφ
  · intro t s l s' ih hm p k h hφ
    rcases shown_of_move hm hφ with rfl | ⟨hbefore, hstart, hread⟩
    · obtain ⟨hans, _, hs⟩ := hm.acts
      have hrow : s'.lease k = some (some h.held) := by
        rw [show s' = s from hs]
        exact World.lease_of_leaseHolder hans.symm
      refine ⟨[], ⟨_, s, s'⟩, t, rfl, ⟨rfl, hrow, ?_, ?_⟩, fun _ => .inl ⟨hrow, ?_⟩⟩
      · intro e he
        cases he
      · intro e he
        cases he
      · intro e he
        cases he
    · obtain ⟨mid, rd, old, rfl, hsince, hshown⟩ := ih p k h hbefore
      refine ⟨⟨l, s, s'⟩ :: mid, rd, old, rfl, ⟨hsince.label, hsince.row, ?_, ?_⟩,
        hshown.step hm.acts⟩
      · rintro e (_ | ⟨_, he⟩)
        · exact hstart
        · exact hsince.same_command e he
      · rintro e (_ | ⟨_, he⟩)
        · exact hread
        · exact hsince.no_reread e he

/-- Whenever `lease_force_release` returns True, the command has read a holder with that
owner; the row it frees is the very acquisition that was read, with its owner and its
`since`, exactly when that owner has not acquired the lease again after the read. -/
theorem release_frees_shown_iff {s₀ : World} {c : SysConfig} {later earlier : SysTrace}
    {e : SysEntry} {o : Pid} (hrun : SysRun s₀ (later ++ e :: earlier) c)
    (hl : e.label = .answer p (.leaseForceRelease k o) (.ok true)) :
    ∃ mid rd old h, earlier = mid ++ rd :: old ∧ ReadSince p k h mid rd ∧ h.owner = o ∧
      (StillShown k h mid e.pre ↔ ∀ e' ∈ mid, ¬ Acquires o k e') := by
  obtain ⟨c₁, c₂, hearlier, hstep, hpre, hpost⟩ := hrun.2.split
  have howner : e.pre.leaseOwner k = some o := by
    have hacts := hstep.acts
    rw [hl, ← hpre, ← hpost] at hacts
    exact of_decide_eq_true hacts.1.symm
  obtain ⟨h, hφ, rfl⟩ : ∃ h, phaseAt shownProtocol p earlier = some (k, h) ∧ h.owner = o := by
    rw [hl] at hstep
    exact (hearlier.move system_shown hstep).permits
  obtain ⟨mid, rd, old, rfl, hsince, hshown⟩ := shown_since ⟨hrun.1, hearlier⟩ hφ
  refine ⟨mid, rd, old, h, rfl, hsince, rfl, ?_, ?_⟩
  · intro hstill e' he'
    exact hstill.2 e' he' h.owner
  · intro hno
    rw [← hpre] at hshown
    exact (hshown hno).resolve_right fun hmoved => hmoved howner

/-! ### Two releases -/

/-- The lease of the tenant was left behind and has expired. -/
def expiredLease : World :=
  { oneTenant acme with
    now := 4000
    lease := fun k => if k = 1 then some (some ⟨"app-1:4312", 0, 3600⟩) else none }

theorem expiredLease_quiet : expiredLease.Quiet := ⟨fun _ => rfl, fun _ => rfl, fun _ => rfl⟩

theorem expiredLease_not_busy {a : Alias} : ¬ expiredLease.Busy p a k := by
  rintro ⟨i, b, h, _⟩
  cases h

/-- What the operator is shown of it. -/
def expiredHolder : LeaseHolder := ⟨"app-1:4312", 0, 3600, true⟩

/-- Nobody comes in between: the expired acquisition is freed. -/
theorem release_frees_shown_expired : ∃ e earlier c, SysRun expiredLease ([] ++ e :: earlier) c ∧
    e.label = .answer "ops-1:77" (.leaseForceRelease 1 "app-1:4312") (.ok true) ∧
    ∃ mid rd old h, earlier = mid ++ rd :: old ∧ ReadSince "ops-1:77" 1 h mid rd ∧
      (StillShown 1 h mid e.pre ↔ ∀ e' ∈ mid, ¬ Acquires "app-1:4312" 1 e') := by
  have r0 : Run machine (fun _ => Starts true) (.idle expiredLease) [] (.idle expiredLease) := .nil
  have r1 := r0.start "ops-1:77" (.releaseCommand 1 "acme" ["shard1"] false) rfl
  have r2 := r1.answer "ops-1:77" (.leaseHolder 1) (.ok (some expiredHolder)) ⟨rfl, rfl, rfl⟩ rfl
  have r3 := r2.answer "ops-1:77" (.shard "shard1" (.sessionActive 1)) (.ok none)
    ⟨⟨nofun, fun h => absurd h expiredLease_not_busy⟩, .idle, nofun, .inr ⟨nofun, 0, rfl, rfl⟩⟩ rfl
  have r4 := r3.answer "ops-1:77" (.leaseForceRelease 1 "app-1:4312") (.ok true) ⟨rfl, rfl, rfl⟩ rfl
  have hrun : SysRun expiredLease ([] ++ _ :: _) _ := ⟨expiredLease_quiet, r4⟩
  obtain ⟨mid, rd, old, h, ht, hread, _, hiff⟩ := release_frees_shown_iff hrun rfl
  exact ⟨_, _, _, hrun, rfl, mid, rd, old, h, ht, hread, hiff⟩

/-- The worker that had left the lease behind migrates the same tenant again, between the
operator's read and the `UPDATE`: its new acquisition is freed, one hour before it expires. -/
theorem release_frees_new_acquisition : ∃ e mid rd old c,
    SysRun expiredLease (e :: mid ++ rd :: old) c ∧
    e.label = .answer "ops-1:77" (.leaseForceRelease 1 "app-1:4312") (.ok true) ∧
    ReadSince "ops-1:77" 1 expiredHolder mid rd ∧
    e.pre.lease 1 = some (some ⟨"app-1:4312", 4000, 7600⟩) ∧ e.pre.now = 4000 ∧
    e.post.lease 1 = some none := by
  have r0 : Run machine (fun _ => Starts true) (.idle expiredLease) [] (.idle expiredLease) := .nil
  have r1 := r0.start "ops-1:77" (.releaseCommand 1 "acme" ["shard1"] false) rfl
  have r2 := r1.answer "ops-1:77" (.leaseHolder 1) (.ok (some expiredHolder)) ⟨rfl, rfl, rfl⟩ rfl
  have r3 := r2.answer "ops-1:77" (.shard "shard1" (.sessionActive 1)) (.ok none)
    ⟨⟨nofun, fun h => absurd h expiredLease_not_busy⟩, .idle, nofun, .inr ⟨nofun, 0, rfl, rfl⟩⟩ rfl
  have r4 := r3.start "app-1:4312" (.migrate 1 .defaults nofun) rfl
  have r5 := r4.answer "app-1:4312" (.load 1) (.ok (some acme)) ⟨rfl, rfl, rfl⟩ rfl
  have r6 := r5.answer "app-1:4312" (.shard "shard1" (.sessionActive 1)) (.ok none)
    ⟨⟨nofun, fun h => absurd h ?_⟩, .idle, nofun, .inr ⟨?_, 1, rfl, rfl⟩⟩ rfl
  rotate_left
  · rintro ⟨i, b, hb, _, hlabel, _⟩
    by_cases hi : i = 0
    · subst hi
      cases hb
      cases hlabel
    · change Function.update expiredLease.backends 0 _ i = some b at hb
      rw [Function.update_of_ne hi] at hb
      cases hb
  · intro i b hb
    by_cases hi : i = 0
    · subst hi
      cases hb
      rfl
    · change Function.update expiredLease.backends 0 _ i = some b at hb
      rw [Function.update_of_ne hi] at hb
      cases hb
  have r7 := r6.answer "app-1:4312" (.leaseUpsert 1) (.ok true) ⟨rfl, rfl, rfl⟩ rfl
  have r8 := r7.answer "ops-1:77" (.leaseForceRelease 1 "app-1:4312") (.ok true) ⟨rfl, rfl, rfl⟩ rfl
  refine ⟨_, [_, _, _, _, _], _, _, _, ⟨expiredLease_quiet, r8⟩, rfl, ⟨rfl, rfl, ?_, ?_⟩, rfl, rfl,
    rfl⟩
  · intro e he
    simp only [List.mem_cons, List.not_mem_nil, or_false] at he
    rcases he with rfl | rfl | rfl | rfl | rfl <;> simp
  · intro e he k' r
    simp only [List.mem_cons, List.not_mem_nil, or_false] at he
    rcases he with rfl | rfl | rfl | rfl | rfl <;> simp

end MtShards.Migrator
