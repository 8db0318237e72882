import MtShards.Models.Migrator.Frames

/-!
# Transactions and their row locks

What the open transaction of a process has locked and written in each of its phases. A step
of another process cannot change a row that the transaction has locked, so these facts last
until the process itself acts.
-/

namespace MtShards.Migrator

open MtShards.Core

variable {maint : Bool} {φ : Phase} {k pk : Pk} {p q : Pid} {t : SysTrace} {s s' : World}
  {l : SysLabel} {x : Tx}

/-! ### Facts about one process -/

/-- No transaction and no row lock. -/
structure Idle (p : Pid) (s : World) : Prop where
  tx : s.tx p = none
  leaseLock : ∀ k, s.leaseLock k ≠ some p
  tenantLock : ∀ pk, s.tenantLock pk ≠ some p

/-- What a transaction has inserted or written is locked by it. -/
structure Owns (p : Pid) (s : World) : Prop where
  inserted : ∀ x k, s.tx p = some x → x.inserted = some k → s.leaseLock k = some p ∧ s.lease k = none
  staged : ∀ x pk row, s.tx p = some x → x.staged = some (pk, row) → s.tenantLock pk = some p

/-- An open transaction that has locked and written nothing. -/
structure PlainTx (p : Pid) (s : World) (x : Tx) : Prop where
  tx : s.tx p = some x
  start : x.start ≤ s.now
  inserted : x.inserted = none
  staged : x.staged = none
  leaseLock : ∀ k, s.leaseLock k ≠ some p
  tenantLock : ∀ pk, s.tenantLock pk ≠ some p

/-- A transaction after the insert of the lease row: it has inserted and locked the row, or
found it there. -/
structure InsertedTx (p : Pid) (k : Pk) (s : World) (x : Tx) : Prop where
  tx : s.tx p = some x
  start : x.start ≤ s.now
  staged : x.staged = none
  tenantLock : ∀ pk, s.tenantLock pk ≠ some p
  row : (x.inserted = some k ∧ s.leaseLock k = some p ∧ s.lease k = none) ∨
    (x.inserted = none ∧ (∀ k', s.leaseLock k' ≠ some p) ∧ s.lease k ≠ none)

/-- The committed holder of a lease, if there is one, had expired when the transaction began. -/
def NoLiveHolder (k : Pk) (s : World) (x : Tx) : Prop :=
  ∀ h, s.lease k = some (some h) → h.untilAt < x.start

/-- A transaction that has locked a lease row without a live holder. -/
structure FreeTx (p : Pid) (k : Pk) (s : World) (x : Tx) : Prop where
  tx : s.tx p = some x
  start : x.start ≤ s.now
  staged : x.staged = none
  tenantLock : ∀ pk, s.tenantLock pk ≠ some p
  leaseLock : s.leaseLock k = some p
  inserted : ∀ k', x.inserted = some k' → k' = k ∧ s.lease k = none
  dead : NoLiveHolder k s x

/-- What is known of the status of a written row: it is the committed one, or it was moved
from the committed one. -/
def MovedFrom (pk : Pk) (s : World) (row : Tenant) : Option (Status × Status) → Prop
  | none => s.status pk = some row.status
  | some (old, dest) => AdminMove old dest ∧ s.status pk = some old ∧ row.status = dest

/-- A transaction that has locked and written a tenant row. -/
structure WrittenTx (p : Pid) (pk : Pk) (move : Option (Status × Status)) (s : World) (x : Tx)
    (row : Tenant) : Prop where
  tx : s.tx p = some x
  start : x.start ≤ s.now
  staged : x.staged = some (pk, row)
  tenantLock : s.tenantLock pk = some p
  inserted : ∀ k, x.inserted = some k → s.leaseLock k = some p ∧ s.lease k = none
  moved : MovedFrom pk s row move
  maintenance : ∀ old, move = some (old, .maintenance) → s.leaseLock pk = some p ∧
    NoLiveHolder pk s x

/-- The facts that go with a phase. -/
def PhaseOk (p : Pid) (s : World) : Phase → Prop
  | .out | .checked _ _ | .leased _ _ | .bystander => Idle p s
  | .tx => ∃ x, PlainTx p s x
  | .lost => Idle p s ∨ ∃ x, PlainTx p s x
  | .inserted k => ∃ x, InsertedTx p k s x
  | .free k => ∃ x, FreeTx p k s x
  | .written pk move => ∃ x row, WrittenTx p pk move s x row
  | .doomed => Owns p s

/-! ### What every phase owns -/

/-- A process without a transaction owns what it has written. -/
theorem Idle.owns (h : Idle p s) : Owns p s where
  inserted _ _ hx _ := absurd (h.tx.symm.trans hx) nofun
  staged _ _ _ hx _ := absurd (h.tx.symm.trans hx) nofun

/-- A transaction that has written nothing owns what it has written. -/
theorem PlainTx.owns (h : PlainTx p s x) : Owns p s where
  inserted y k hy hk := by
    obtain rfl := Option.some.inj (h.tx.symm.trans hy)
    rw [h.inserted] at hk
    cases hk
  staged y pk row hy hk := by
    obtain rfl := Option.some.inj (h.tx.symm.trans hy)
    rw [h.staged] at hk
    cases hk

/-- After the insert of a lease row the transaction owns what it has written. -/
theorem InsertedTx.owns (h : InsertedTx p k s x) : Owns p s where
  inserted y k' hy hk := by
    obtain rfl := Option.some.inj (h.tx.symm.trans hy)
    rcases h.row with ⟨hi, hlock, hlease⟩ | ⟨hi, _, _⟩
    · obtain rfl := Option.some.inj (hi.symm.trans hk)
      exact ⟨hlock, hlease⟩
    · rw [hi] at hk
      cases hk
  staged y pk row hy hk := by
    obtain rfl := Option.some.inj (h.tx.symm.trans hy)
    rw [h.staged] at hk
    cases hk

/-- With a free lease row locked the transaction owns what it has written. -/
theorem FreeTx.owns (h : FreeTx p k s x) : Owns p s where
  inserted y k' hy hk := by
    obtain rfl := Option.some.inj (h.tx.symm.trans hy)
    obtain ⟨rfl, hlease⟩ := h.inserted k' hk
    exact ⟨h.leaseLock, hlease⟩
  staged y pk row hy hk := by
    obtain rfl := Option.some.inj (h.tx.symm.trans hy)
    rw [h.staged] at hk
    cases hk

/-- With a tenant row written the transaction owns what it has written. -/
theorem WrittenTx.owns {move : Option (Status × Status)} {row : Tenant}
    (h : WrittenTx p pk move s x row) : Owns p s where
  inserted y k hy hk := by
    obtain rfl := Option.some.inj (h.tx.symm.trans hy)
    exact h.inserted k hk
  staged y pk' row' hy hk := by
    obtain rfl := Option.some.inj (h.tx.symm.trans hy)
    rw [h.staged] at hk
    cases hk
    exact h.tenantLock

/-- In every phase a process owns what it has written. -/
theorem PhaseOk.owns (h : PhaseOk p s φ) : Owns p s := by
  cases φ with
  | out => exact Idle.owns h
  | checked k a => exact Idle.owns h
  | leased k seen => exact Idle.owns h
  | bystander => exact Idle.owns h
  | tx =>
    obtain ⟨x, hx⟩ := h
    exact hx.owns
  | lost =>
    rcases h with h | ⟨x, hx⟩
    · exact h.owns
    · exact hx.owns
  | inserted k =>
    obtain ⟨x, hx⟩ := h
    exact hx.owns
  | free k =>
    obtain ⟨x, hx⟩ := h
    exact hx.owns
  | written pk move =>
    obtain ⟨x, row, hx⟩ := h
    exact hx.owns
  | doomed => exact h

/-! ### The frame: what others cannot change -/

/-- What a step leaves to a process that does not act in it. -/
structure Frame (p : Pid) (s s' : World) : Prop where
  tx : s'.tx p = s.tx p
  leaseLock : ∀ k, s'.leaseLock k = some p ↔ s.leaseLock k = some p
  tenantLock : ∀ pk, s'.tenantLock pk = some p ↔ s.tenantLock pk = some p
  lease : ∀ k, s.leaseLock k = some p → s'.lease k = s.lease k
  tenant : ∀ pk, s.tenantLock pk = some p → s'.tenant pk = s.tenant pk
  lease_ne_none : ∀ k, s.lease k ≠ none → s'.lease k ≠ none
  now : s.now ≤ s'.now

/-- What others do leaves a process idle. -/
theorem Idle.frame (h : Idle p s) (hf : Frame p s s') : Idle p s' where
  tx := hf.tx.trans h.tx
  leaseLock k hk := h.leaseLock k ((hf.leaseLock k).mp hk)
  tenantLock pk hk := h.tenantLock pk ((hf.tenantLock pk).mp hk)

/-- What others do leaves a process what it owns. -/
theorem Owns.frame (h : Owns p s) (hf : Frame p s s') : Owns p s' where
  inserted x k hx hk := by
    obtain ⟨hlock, hlease⟩ := h.inserted x k (hf.tx.symm.trans hx) hk
    exact ⟨(hf.leaseLock k).mpr hlock, (hf.lease k hlock).trans hlease⟩
  staged x pk row hx hk := (hf.tenantLock pk).mpr (h.staged x pk row (hf.tx.symm.trans hx) hk)

/-- What others do leaves a plain transaction plain. -/
theorem PlainTx.frame (h : PlainTx p s x) (hf : Frame p s s') : PlainTx p s' x where
  tx := hf.tx.trans h.tx
  start := Nat.le_trans h.start hf.now
  inserted := h.inserted
  staged := h.staged
  leaseLock k hk := h.leaseLock k ((hf.leaseLock k).mp hk)
  tenantLock pk hk := h.tenantLock pk ((hf.tenantLock pk).mp hk)

/-- What others do leaves the insert of a lease row as it is. -/
theorem InsertedTx.frame (h : InsertedTx p k s x) (hf : Frame p s s') : InsertedTx p k s' x where
  tx := hf.tx.trans h.tx
  start := Nat.le_trans h.start hf.now
  staged := h.staged
  tenantLock pk hk := h.tenantLock pk ((hf.tenantLock pk).mp hk)
  row := h.row.imp
    (fun ⟨hi, hlock, hlease⟩ =>
      ⟨hi, (hf.leaseLock k).mpr hlock, (hf.lease k hlock).trans hlease⟩)
    fun ⟨hi, hlock, hlease⟩ =>
      ⟨hi, fun k' hk' => hlock k' ((hf.leaseLock k').mp hk'), hf.lease_ne_none k hlease⟩

/-- What others do leaves a locked lease row without a live holder. -/
theorem FreeTx.frame (h : FreeTx p k s x) (hf : Frame p s s') : FreeTx p k s' x where
  tx := hf.tx.trans h.tx
  start := Nat.le_trans h.start hf.now
  staged := h.staged
  tenantLock pk hk := h.tenantLock pk ((hf.tenantLock pk).mp hk)
  leaseLock := (hf.leaseLock k).mpr h.leaseLock
  inserted k' hk' := (h.inserted k' hk').imp_right fun hl => (hf.lease k h.leaseLock).trans hl
  dead row hrow := h.dead row ((hf.lease k h.leaseLock).symm.trans hrow)

/-- What others do leaves a written tenant row as it is. -/
theorem WrittenTx.frame {move : Option (Status × Status)} {row : Tenant}
    (h : WrittenTx p pk move s x row) (hf : Frame p s s') : WrittenTx p pk move s' x row where
  tx := hf.tx.trans h.tx
  start := Nat.le_trans h.start hf.now
  staged := h.staged
  tenantLock := (hf.tenantLock pk).mpr h.tenantLock
  inserted k hk := by
    obtain ⟨hlock, hlease⟩ := h.inserted k hk
    exact ⟨(hf.leaseLock k).mpr hlock, (hf.lease k hlock).trans hlease⟩
  moved := by
    have hstatus : s'.status pk = s.status pk := congrArg _ (hf.tenant pk h.tenantLock)
    have hmoved := h.moved
    cases move with
    | none => exact hstatus.trans hmoved
    | some m => exact ⟨hmoved.1, hstatus.trans hmoved.2.1, hmoved.2.2⟩
  maintenance old ho := by
    obtain ⟨hlock, hdead⟩ := h.maintenance old ho
    exact ⟨(hf.leaseLock pk).mpr hlock, fun row hrow =>
      hdead row ((hf.lease pk hlock).symm.trans hrow)⟩

/-- What others do leaves the facts of a phase true. -/
theorem PhaseOk.frame (h : PhaseOk p s φ) (hf : Frame p s s') : PhaseOk p s' φ := by
  cases φ with
  | out => exact Idle.frame h hf
  | checked k a => exact Idle.frame h hf
  | leased k seen => exact Idle.frame h hf
  | bystander => exact Idle.frame h hf
  | tx => exact h.imp fun _ hx => hx.frame hf
  | lost => exact h.imp (fun h => h.frame hf) fun h => h.imp fun _ hx => hx.frame hf
  | inserted k => exact h.imp fun _ hx => hx.frame hf
  | free k => exact h.imp fun _ hx => hx.frame hf
  | written pk move => exact h.imp fun _ h => h.imp fun _ hx => hx.frame hf
  | doomed => exact Owns.frame h hf

/-! ### Steps of another process -/

/-- The transaction and the locks of a process are left alone. -/
structure KeepsLocks (p : Pid) (s s' : World) : Prop where
  tx : s'.tx p = s.tx p
  leaseLock : ∀ k, s'.leaseLock k = some p ↔ s.leaseLock k = some p
  tenantLock : ∀ pk, s'.tenantLock pk = some p ↔ s.tenantLock pk = some p

/-- Nothing done leaves a process its transaction and its locks. -/
theorem KeepsLocks.refl (p : Pid) (s : World) : KeepsLocks p s s :=
  ⟨rfl, fun _ => Iff.rfl, fun _ => Iff.rfl⟩

/-- Two steps that leave a process its transaction and its locks do so together. -/
theorem KeepsLocks.trans {s'' : World} (h : KeepsLocks p s s') (h' : KeepsLocks p s' s'') :
    KeepsLocks p s s'' where
  tx := h'.tx.trans h.tx
  leaseLock k := (h'.leaseLock k).trans (h.leaseLock k)
  tenantLock pk := (h'.tenantLock pk).trans (h.tenantLock pk)

/-- A step that touches no lock leaves a process its transaction and its locks. -/
theorem KeepsLocks.of_locks_eq {s₁ : World} (h : KeepsLocks p s s₁) (hs : s'.locks = s₁.locks) :
    KeepsLocks p s s' := by
  obtain ⟨htx, hlease, htenant⟩ := World.locks_eq_iff.mp hs
  refine ⟨?_, fun k => ?_, fun pk => ?_⟩
  · rw [htx]
    exact h.tx
  · rw [hlease]
    exact h.leaseLock k
  · rw [htenant]
    exact h.tenantLock pk

/-- A lock that nobody else holds is not the lock of a third process. -/
theorem not_locked_by_other {lock : Option Pid} (hq : q ≠ p) (h : lock.filter (· ≠ q) = none) :
    lock ≠ some p := by
  rintro rfl
  rw [Option.filter_some, if_pos (decide_eq_true (Ne.symm hq))] at h
  cases h

/-- Taking a free lock, or one of its own, concerns no other process. -/
theorem update_lock_iff {lock : Pk → Option Pid} (hq : q ≠ p)
    (h : (lock k).filter (· ≠ q) = none) (k' : Pk) :
    Function.update lock k (some q) k' = some p ↔ lock k' = some p := by
  by_cases hk : k' = k
  · subst hk
    rw [Function.update_self]
    exact ⟨fun h' => absurd (Option.some.inj h') hq, fun h' => absurd h' (not_locked_by_other hq h)⟩
  · rw [Function.update_of_ne hk]

/-- The end of another transaction leaves a process its transaction and its locks. -/
theorem endTx_keepsLocks (hq : q ≠ p) : KeepsLocks p s (s.endTx q) := by
  have hlock : ∀ o : Option Pid, (if o = some q then none else o) = some p ↔ o = some p := by
    intro o
    split
    · rename_i ho
      rw [ho]
      exact ⟨nofun, fun h => absurd (Option.some.inj h) hq⟩
    · exact Iff.rfl
  exact ⟨Function.update_of_ne (Ne.symm hq) .., fun k => hlock _, fun pk => hlock _⟩

/-- A write to a row that no one else has locked leaves a process its transaction and its locks. -/
theorem stage_keepsLocks {f : Tenant → Tenant} (hq : q ≠ p)
    (hw : (s.tenantLock pk).filter (· ≠ q) = none) : KeepsLocks p s (s.stage q pk f) := by
  unfold World.stage
  split
  · exact ⟨Function.update_of_ne (Ne.symm hq) .., fun _ => Iff.rfl, update_lock_iff hq hw⟩
  · exact KeepsLocks.refl p s

/-- A request that does not have to wait leaves the transactions of others alone. -/
theorem Req.apply_keepsLocks {op : Req} (hq : q ≠ p) (hw : op.waitsFor q s = none) :
    KeepsLocks p s (op.apply q s) := by
  cases ht : op.transacts with
  | false => exact (KeepsLocks.refl p s).of_locks_eq (Req.apply_locks ht)
  | true =>
    cases op with
    | begin =>
      exact ⟨Function.update_of_ne (Ne.symm hq) .., fun _ => Iff.rfl, fun _ => Iff.rfl⟩
    | commit =>
      rw [Req.apply, World.commit]
      split
      · exact KeepsLocks.refl p s
      · exact (endTx_keepsLocks hq).of_locks_eq rfl
    | rollback => exact endTx_keepsLocks hq
    | insertLease k =>
      rw [Req.apply, World.insertLease]
      split
      · rename_i hrow
        rw [Req.waitsFor, if_pos hrow] at hw
        exact ⟨Function.update_of_ne (Ne.symm hq) .., update_lock_iff hq hw, fun _ => Iff.rfl⟩
      · exact KeepsLocks.refl p s
    | lockLease k =>
      rw [Req.apply, World.lockLease]
      split
      · rename_i hrow
        rw [Req.waitsFor, if_neg (by rw [hrow]; exact Option.some_ne_none _)] at hw
        exact ⟨rfl, update_lock_iff hq hw, fun _ => Iff.rfl⟩
      · exact KeepsLocks.refl p s
    | adminUpdate pk old dest =>
      rw [Req.apply, World.adminUpdate]
      split
      · rename_i hm
        rw [Req.waitsFor, if_pos hm] at hw
        exact stage_keepsLocks hq hw
      · exact KeepsLocks.refl p s
    | saveTenant pk c stamp => exact stage_keepsLocks hq hw
    | _ => exact Bool.noConfusion ht

/-- Steps of others leave the transaction of a process alone. -/
theorem acts_keepsLocks (h : machine.Acts l s s') (hl : l.actor ≠ some p) :
    KeepsLocks p s s' := by
  cases l with
  | start q =>
    obtain rfl : s' = s := h
    exact KeepsLocks.refl p s'
  | inner q op =>
    cases op with
    | shard a r =>
      obtain ⟨st, hu⟩ := h
      exact (KeepsLocks.refl p s).of_locks_eq (World.locks_eq_iff.mpr hu.default_eq.2)
    | _ => exact absurd h id
  | answer q op r =>
    have hq : q ≠ p := fun hq => hl (congrArg some hq)
    rcases exec_locks h with h | h | ⟨hw, h | h⟩
    · exact (KeepsLocks.refl p s).of_locks_eq h
    · exact (endTx_keepsLocks hq).of_locks_eq h
    · exact (Req.apply_keepsLocks hq hw).of_locks_eq h
    · exact ((Req.apply_keepsLocks hq hw).trans (endTx_keepsLocks hq)).of_locks_eq h
  | env =>
    rcases h with ⟨n, _, rfl⟩ | ⟨i, b, _, _, rfl⟩ | ⟨pk, _, rfl⟩ <;>
      exact (KeepsLocks.refl p s).of_locks_eq rfl
  | kill q =>
    obtain rfl : s' = s.kill q := h
    exact (endTx_keepsLocks fun hq => hl (congrArg some hq)).of_locks_eq rfl

/-- Steps of others leave the rows alone that a process has locked. -/
theorem frame_of_acts (h : machine.Acts l s s') (hl : l.actor ≠ some p)
    (howns : ∀ q, Owns q s) : Frame p s s' := by
  have hkeep := acts_keepsLocks h hl
  refine ⟨hkeep.tx, hkeep.leaseLock, hkeep.tenantLock, ?_, ?_, ?_, acts_now_le h⟩
  · intro k hlock
    cases acts_leaseChange k h with
    | kept hrow => exact hrow
    | taken q r hlabel _ hfree _ =>
      subst hlabel
      exact absurd hlock (not_locked_by_other (fun hq => hl (congrArg some hq)) hfree)
    | released q o hlabel _ hfree _ =>
      have hq : q ≠ p := by
        rintro rfl
        rcases hlabel with ⟨_, r, rfl⟩ | ⟨r, rfl⟩ <;> exact hl rfl
      exact absurd hlock (not_locked_by_other hq hfree)
    | inserted q x hlabel htx hkey _ =>
      obtain ⟨r, rfl⟩ := hlabel
      have hown := ((howns q).inserted x k htx hkey).1
      exact absurd (congrArg some (Option.some.inj (hown.symm.trans hlock))) hl
  · intro pk hlock
    cases acts_tenantChange pk h with
    | kept hrow => exact hrow
    | fenced q expected w r hlabel _ hfree _ =>
      subst hlabel
      exact absurd hlock (not_locked_by_other (fun hq => hl (congrArg some hq)) hfree)
    | console q source dest r hlabel _ hfree _ =>
      subst hlabel
      exact absurd hlock (not_locked_by_other (fun hq => hl (congrArg some hq)) hfree)
    | committed q x row hlabel htx hstaged _ =>
      obtain ⟨r, rfl⟩ := hlabel
      have hown := (howns q).staged x pk row htx hstaged
      exact absurd (congrArg some (Option.some.inj (hown.symm.trans hlock))) hl
    | deleted _ hfree _ =>
      rw [hfree] at hlock
      cases hlock
  · intro k hk
    cases acts_leaseChange k h with
    | kept hrow => exact fun h' => hk (hrow.symm.trans h')
    | taken q r _ _ _ hrow => exact fun h' => absurd (hrow.symm.trans h') nofun
    | released q o _ _ _ hrow => exact fun h' => absurd (hrow.symm.trans h') nofun
    | inserted q x _ _ _ hrow => exact fun h' => absurd (hrow.symm.trans h') nofun

/-- The use of a shard connection concerns no transaction. -/
theorem frame_of_uses {a : Alias} {st : Activity} {f : Option Pk → Option Pk}
    (h : s.Uses q a st f s') : Frame p s s' := by
  obtain ⟨hcommitted, htx, hlease, htenant⟩ := h.default_eq
  obtain ⟨hrows, htenants, hnow⟩ := World.committed_eq_iff.mp hcommitted
  refine ⟨by rw [htx], fun k => by rw [hlease], fun pk => by rw [htenant],
    fun k _ => by rw [hrows], fun pk _ => by rw [htenants], fun k hk => ?_, Nat.le_of_eq hnow.symm⟩
  rwa [hrows]

/-! ### Steps of the process itself -/

/-- A step that touches no lock leaves a process idle. -/
theorem Idle.of_locks_eq (h : Idle p s) (hs : s'.locks = s.locks) : Idle p s' := by
  obtain ⟨htx, hlease, htenant⟩ := World.locks_eq_iff.mp hs
  exact ⟨htx ▸ h.tx, hlease ▸ h.leaseLock, htenant ▸ h.tenantLock⟩

/-- The end of a transaction gives its locks back. -/
theorem endTx_idle (p : Pid) (s : World) : Idle p (s.endTx p) := by
  have hlock : ∀ o : Option Pid, (if o = some p then none else o) ≠ some p := by
    intro o
    split
    · exact nofun
    · assumption
  exact ⟨Function.update_self .., fun k => hlock _, fun pk => hlock _⟩

/-- After a commit a process is idle, if it is when it has no transaction. -/
theorem commit_idle (h : s.tx p = none → Idle p s) : Idle p (s.commit p) := by
  unfold World.commit
  split
  · rename_i hx
    exact h hx
  · exact (endTx_idle p s).of_locks_eq rfl

/-- A commit or a rollback ends the transaction, also when it raises. -/
theorem exec_end_idle {op : Req} {r : Except Exn op.Ans} (hop : op = .commit ∨ op = .rollback)
    (h : machine.exec p op s r s') (hs : s.tx p = none → Idle p s) : Idle p s' := by
  rcases hop with rfl | rfl
  · cases r with
    | ok a =>
      obtain ⟨_, _, rfl⟩ := h
      exact commit_idle hs
    | error e =>
      rcases h.2 with rfl | rfl
      · exact endTx_idle p s
      · exact commit_idle hs
  · cases r with
    | ok a =>
      obtain ⟨_, _, rfl⟩ := h
      exact endTx_idle p s
    | error e =>
      obtain rfl := h.2
      exact endTx_idle p s

/-- A process without transaction stays so unless it opens one. -/
theorem exec_idle {op : Req} {r : Except Exn op.Ans} (hop : op.transacts = false)
    (h : machine.exec p op s r s') (hs : Idle p s) : Idle p s' := by
  rcases exec_locks h with h | h | ⟨_, h | h⟩
  · exact hs.of_locks_eq h
  · exact (endTx_idle p s).of_locks_eq h
  · exact hs.of_locks_eq (h.trans (Req.apply_locks hop))
  · exact (endTx_idle p _).of_locks_eq h

/-- A process between its transactions has none. -/
theorem phaseOk_iff_idle (hφ : φ.isIdle = true) : PhaseOk p s φ ↔ Idle p s := by
  cases φ with
  | out => exact Iff.rfl
  | checked k a => exact Iff.rfl
  | leased k seen => exact Iff.rfl
  | bystander => exact Iff.rfl
  | _ => exact Bool.noConfusion hφ

private theorem out_transacts {op : Req} (hp : Phase.outPermits op) (hne : op ≠ .begin) :
    op.transacts = false := by
  cases op with
  | begin => exact absurd rfl hne
  | _ => first | rfl | exact Bool.noConfusion hp

private theorem outNext_isIdle {op : Req} {r : Except Exn op.Ans} (hne : op ≠ .begin) :
    (Phase.outNext op r).isIdle = true := by
  unfold Phase.outNext
  split <;> first | rfl | (split <;> rfl) | exact absurd rfl hne

private theorem leasedNext_isIdle {op : Req} {r : Except Exn op.Ans} {seen : Seen} :
    (Phase.leasedNext k seen op r).isIdle = true := by
  unfold Phase.leasedNext
  split <;> first | rfl | (split <;> rfl) | (rename_i b; cases b <;> rfl)

private theorem leased_transacts {op : Req} {seen : Seen} (hp : Phase.leasedPermits maint k seen op) :
    op.transacts = false := by
  cases op with
  | _ => first | rfl | exact Bool.noConfusion hp.1

private theorem bystander_transacts {op : Req} (hp : Phase.bystanderPermits op) :
    op.transacts = false := by
  cases op with
  | _ => first | rfl | exact Bool.noConfusion hp

/-- A request outside of a transaction. -/
theorem idle_step {op : Req} {r : Except Exn op.Ans} (hφ : φ.isIdle = true)
    (hp : φ.permits maint op) (h : machine.exec p op s r s') (hs : Idle p s) :
    PhaseOk p s' (φ.next op r) := by
  cases φ with
  | out =>
    by_cases hb : op = .begin
    · subst hb
      cases r with
      | ok a =>
        obtain ⟨_, _, rfl⟩ := h
        exact ⟨_, Function.update_self .., Nat.le_refl _, rfl, rfl, hs.leaseLock, hs.tenantLock⟩
      | error e =>
        rcases h.2 with rfl | ⟨_, rfl | ⟨_, rfl⟩⟩
        · exact hs
        · exact endTx_idle p s
        · exact endTx_idle p _
    · exact (phaseOk_iff_idle (outNext_isIdle hb)).mpr (exec_idle (out_transacts hp hb) h hs)
  | checked k a =>
    obtain rfl : op = .leaseUpsert k := hp
    have hidle : Idle p s' := exec_idle rfl h hs
    match r with
    | .ok true => exact hidle
    | .ok false => exact hidle
    | .error e => exact hidle
  | leased k seen =>
    exact (phaseOk_iff_idle leasedNext_isIdle).mpr (exec_idle (leased_transacts hp) h hs)
  | bystander => exact exec_idle (bystander_transacts hp) h hs
  | _ => exact Bool.noConfusion hφ

/-- What is owned stays owned when a statement of the transaction raises. -/
theorem fails_owns {op : Req} {e : Exn} (hs : Owns p s)
    (h : s' = s ∨ (e.connError = true ∧
      (s' = s.endTx p ∨ (op.waitsFor p s = none ∧ s' = (op.apply p s).endTx p)))) : Owns p s' := by
  rcases h with rfl | ⟨_, rfl | ⟨_, rfl⟩⟩
  · exact hs
  · exact (endTx_idle p s).owns
  · exact (endTx_idle p _).owns

/-- A transaction that has inserted nothing sees the committed lease row. -/
theorem World.leaseRow_of_tx (hx : s.tx p = some x) (hi : x.inserted = none) :
    s.leaseRow p k = s.lease k := by
  obtain ⟨start, inserted, staged⟩ := x
  obtain rfl : inserted = none := hi
  rw [World.leaseRow, hx]

/-- A transaction sees the lease row that it has inserted, without a holder. -/
theorem World.leaseRow_of_inserted (hx : s.tx p = some x) (hi : x.inserted = some k) :
    s.leaseRow p k = some none := by
  obtain ⟨start, inserted, staged⟩ := x
  obtain rfl : inserted = some k := hi
  rw [World.leaseRow, hx]
  exact if_pos rfl

/-- A transaction that has written no tenant row sees the committed one. -/
theorem World.tenantRow_of_tx (hx : s.tx p = some x) (hs : x.staged = none) :
    s.tenantRow p pk = s.tenant pk := by
  obtain ⟨start, inserted, staged⟩ := x
  obtain rfl : staged = none := hs
  rw [World.tenantRow, hx]

/-- A transaction sees the tenant row that it has written. -/
theorem World.tenantRow_of_staged {row : Tenant} (hx : s.tx p = some x)
    (hs : x.staged = some (pk, row)) : s.tenantRow p pk = some row := by
  obtain ⟨start, inserted, staged⟩ := x
  obtain rfl : staged = some (pk, row) := hs
  rw [World.tenantRow, hx]
  exact if_pos rfl

/-- Writing a tenant row inside a transaction. -/
theorem World.stage_eq {row : Tenant} {f : Tenant → Tenant} (hx : s.tx p = some x)
    (hrow : s.tenantRow p pk = some row) : s.stage p pk f =
      { s with tx := Function.update s.tx p (some { x with staged := some (pk, f row) })
               tenantLock := Function.update s.tenantLock pk (some p) } := by
  rw [World.stage, hx, hrow]

/-- A write of a tenant row by a transaction that has written none, or the same. -/
theorem stage_written {row : Tenant} {f : Tenant → Tenant} {move : Option (Status × Status)}
    (hx : s.tx p = some x) (hstart : x.start ≤ s.now)
    (hrow : s.tenantRow p pk = some row)
    (hins : ∀ k, x.inserted = some k → s.leaseLock k = some p ∧ s.lease k = none)
    (hmoved : MovedFrom pk s (f row) move)
    (hmaint : ∀ old, move = some (old, .maintenance) → s.leaseLock pk = some p ∧
      NoLiveHolder pk s x) :
    PhaseOk p (s.stage p pk f) (.written pk move) := by
  rw [World.stage_eq hx hrow]
  exact ⟨_, f row, Function.update_self .., hstart, rfl, Function.update_self .., hins, hmoved,
    hmaint⟩

/-- `Tenant.save` of a transaction that has written nothing yet. -/
theorem save_step {c : World.Changes} {stamp : Bool} {r : Except Exn Bool}
    (h : machine.exec p (.saveTenant pk c stamp) s r s') (hx : s.tx p = some x)
    (hstart : x.start ≤ s.now) (hstaged : x.staged = none) (howns : Owns p s) :
    PhaseOk p s' (Phase.txNext (.saveTenant pk c stamp) r) := by
  have hrow : s.tenantRow p pk = s.tenant pk := World.tenantRow_of_tx hx hstaged
  cases r with
  | error e => exact fails_owns howns h.2
  | ok found =>
    obtain ⟨hfound, _, rfl⟩ := h
    replace hfound : found = (s.tenantRow p pk).isSome := hfound
    cases hc : s.tenant pk with
    | none =>
      rw [hrow, hc] at hfound
      obtain rfl : found = false := hfound
      change Owns p (s.stage p pk _)
      rw [World.stage, hx, hrow, hc]
      exact howns
    | some row =>
      rw [hrow, hc] at hfound
      obtain rfl : found = true := hfound
      refine stage_written hx hstart (hrow.trans hc) (fun k hk => howns.inserted x k hx hk) ?_
        (fun _ h => by cases h)
      change s.status pk = some row.status
      rw [World.status, hc]
      rfl

/-- An `UPDATE` of the admin that goes through has found the row in its old status. -/
theorem adminUpdate_found {old dest : Status}
    (h : machine.exec p (.adminUpdate pk old dest) s (.ok true) s')
    (hrow : s.tenantRow p pk = s.tenant pk) : ∃ row, s.tenant pk = some row ∧ row.status = old ∧
      s' = s.stage p pk (World.adminRow s.now old dest) := by
  obtain ⟨hmatch, _, rfl⟩ := h
  replace hmatch : s.adminMatches p pk old = true := hmatch.symm
  have hstage : Req.apply p s (.adminUpdate pk old dest) =
      s.stage p pk (World.adminRow s.now old dest) := if_pos hmatch
  rw [World.adminMatches, hrow] at hmatch
  cases hc : s.tenant pk with
  | none =>
    rw [hc] at hmatch
    cases hmatch
  | some row =>
    rw [hc] at hmatch
    exact ⟨row, rfl, of_decide_eq_true hmatch, hstage⟩

/-- The admin's `UPDATE` in a transaction that has written nothing yet. -/
theorem adminUpdate_step {old dest : Status} {r : Except Exn Bool}
    (h : machine.exec p (.adminUpdate pk old dest) s r s') (hx : s.tx p = some x)
    (hstart : x.start ≤ s.now) (hstaged : x.staged = none) (howns : Owns p s)
    (hmove : AdminMove old dest)
    (hmaint : dest = .maintenance → s.leaseLock pk = some p ∧ NoLiveHolder pk s x) :
    PhaseOk p s' (Phase.freeNext (.adminUpdate pk old dest) r) := by
  have hrow : s.tenantRow p pk = s.tenant pk := World.tenantRow_of_tx hx hstaged
  match r with
  | .error e => exact fails_owns howns h.2
  | .ok false =>
    obtain ⟨hupdated, _, rfl⟩ := h
    change Owns p (s.adminUpdate p pk old dest)
    rw [World.adminUpdate, if_neg (by rw [← hupdated]; exact Bool.false_ne_true)]
    exact howns
  | .ok true =>
    obtain ⟨row, hc, hold, rfl⟩ := adminUpdate_found h hrow
    change PhaseOk p _ (.written pk (some (old, dest)))
    refine stage_written hx hstart (hrow.trans hc) (fun k hk => howns.inserted x k hx hk)
      ⟨hmove, ?_, rfl⟩ ?_
    · rw [World.status, hc]
      exact congrArg some hold
    · intro old' ho
      cases ho
      exact hmaint rfl

/-- The insert of the lease row. -/
theorem insertLease_step {r : Except Exn Unit} (h : machine.exec p (.insertLease k) s r s')
    (hs : PlainTx p s x) : PhaseOk p s' (Phase.txNext (.insertLease k) r) := by
  cases r with
  | error e => exact fails_owns hs.owns h.2
  | ok a =>
    obtain ⟨_, hw, rfl⟩ := h
    have hrow := World.leaseRow_of_tx (k := k) hs.tx hs.inserted
    change ∃ x, InsertedTx p k (s.insertLease p k) x
    cases hc : s.lease k with
    | none =>
      rw [World.insertLease, hs.tx, hrow, hc]
      exact ⟨_, Function.update_self .., hs.start, hs.staged, hs.tenantLock,
        .inl ⟨rfl, Function.update_self .., hc⟩⟩
    | some row =>
      rw [World.insertLease, hs.tx, hrow, hc]
      exact ⟨x, hs.tx, hs.start, hs.staged, hs.tenantLock,
        .inr ⟨hs.inserted, hs.leaseLock, by rw [hc]; exact Option.some_ne_none row⟩⟩

/-- A request of a transaction that has written nothing yet. -/
theorem tx_step {op : Req} {r : Except Exn op.Ans} (hp : Phase.txPermits op)
    (h : machine.exec p op s r s') (hs : PlainTx p s x) : PhaseOk p s' (Phase.txNext op r) := by
  have hnow := acts_now_le (l := .answer p op r) h
  have hplain : s'.locks = s.locks → ∃ x, PlainTx p s' x := by
    intro hlocks
    obtain ⟨htx, hlease, htenant⟩ := World.locks_eq_iff.mp hlocks
    exact ⟨x, htx ▸ hs.tx, Nat.le_trans hs.start hnow, hs.inserted, hs.staged,
      hlease ▸ hs.leaseLock, htenant ▸ hs.tenantLock⟩
  cases op with
  | shard a q => exact hplain (exec_shard_locks rfl h)
  | closeShard a => exact hplain (exec_shard_locks rfl h)
  | load pk =>
    cases r with
    | ok b =>
      obtain ⟨_, _, rfl⟩ := h
      exact hplain rfl
    | error e => exact fails_owns hs.owns h.2
  | leaseHolder k =>
    cases r with
    | ok b =>
      obtain ⟨_, _, rfl⟩ := h
      exact hplain rfl
    | error e => exact fails_owns hs.owns h.2
  | codeOlderThanDb =>
    cases r with
    | ok b =>
      obtain ⟨_, _, rfl⟩ := h
      exact hplain rfl
    | error e =>
      rcases h.2 with rfl | ⟨_, rfl | ⟨_, rfl⟩⟩
      · exact .inr (hplain rfl)
      · exact .inl (endTx_idle p s)
      · exact .inl (endTx_idle p _)
  | insertLease k => exact insertLease_step h hs
  | saveTenant pk c stamp => exact save_step h hs.tx hs.start hs.staged hs.owns
  | adminUpdate pk old dest =>
    have hmaint : dest = .maintenance → s.leaseLock pk = some p ∧ NoLiveHolder pk s x :=
      fun hto => absurd hto hp.2
    have hstep := adminUpdate_step h hs.tx hs.start hs.staged hs.owns hp.1 hmaint
    cases r <;> exact hstep
  | commit =>
    exact exec_end_idle (.inl rfl) h fun hnone => absurd (hs.tx.symm.trans hnone) nofun
  | rollback =>
    exact exec_end_idle (.inr rfl) h fun hnone => absurd (hs.tx.symm.trans hnone) nofun
  | _ => exact hp.elim

/-- A holder that the transaction does not find alive had expired when it began. -/
theorem noLiveHolder_of_none (hx : s.tx p = some x) (hrow : s.leaseRow p k = s.lease k)
    (h : s.liveHolder p k = none) : NoLiveHolder k s x := by
  intro held hheld
  have hclock : s.clock p = x.start := by rw [World.clock, hx]
  rw [World.liveHolder, World.leaseHolder, hrow, hheld, hclock] at h
  by_contra hlive
  have hexp : decide (held.untilAt < x.start) = false := decide_eq_false hlive
  simp [hexp] at h

/-- The lock on the lease row: without a live holder it is known to be free. -/
theorem lockLease_step {r : Except Exn (Option LeaseHolder)}
    (h : machine.exec p (.lockLease k) s r s') (hs : InsertedTx p k s x) :
    PhaseOk p s' (Phase.insertedNext k (.lockLease k) r) := by
  cases r with
  | error e => exact fails_owns hs.owns h.2
  | ok holder =>
    obtain ⟨hans, _, rfl⟩ := h
    replace hans : holder = s.liveHolder p k := hans
    have hrow : ∃ row, s.leaseRow p k = some row := by
      rcases hs.row with ⟨hi, _, _⟩ | ⟨hi, _, hne⟩
      · exact ⟨none, World.leaseRow_of_inserted hs.tx hi⟩
      · rw [World.leaseRow_of_tx hs.tx hi]
        exact Option.ne_none_iff_exists'.mp hne
    have hlock : Req.apply p s (.lockLease k) =
        { s with leaseLock := Function.update s.leaseLock k (some p) } := by
      obtain ⟨row, hrow⟩ := hrow
      rw [Req.apply, World.lockLease, hs.tx, hrow]
    rw [hlock]
    cases hh : holder with
    | some h' =>
      have howns := hs.owns
      refine ⟨fun y k' hy hk' => ?_, howns.staged⟩
      obtain ⟨hlocked, hlease⟩ := howns.inserted y k' hy hk'
      refine ⟨?_, hlease⟩
      by_cases hk : k' = k
      · subst hk
        exact Function.update_self ..
      · exact (Function.update_of_ne hk ..).trans hlocked
    | none =>
      refine ⟨x, hs.tx, hs.start, hs.staged, hs.tenantLock, Function.update_self .., ?_, ?_⟩
      · intro k' hk'
        rcases hs.row with ⟨hi, _, hlease⟩ | ⟨hi, _, _⟩
        · exact ⟨Option.some.inj (hk'.symm.trans hi), hlease⟩
        · cases hk'.symm.trans hi
      · rcases hs.row with ⟨_, _, hlease⟩ | ⟨hi, _, _⟩
        · intro held hheld
          cases hlease.symm.trans hheld
        · exact noLiveHolder_of_none hs.tx (World.leaseRow_of_tx hs.tx hi)
            (hans.symm.trans hh)

/-- A further write of the row that the transaction has written. -/
theorem saveAgain_step {c : World.Changes} {move : Option (Status × Status)} {row : Tenant}
    {r : Except Exn Bool} (h : machine.exec p (.saveTenant pk c false) s r s')
    (hs : WrittenTx p pk move s x row) :
    PhaseOk p s' (Phase.writtenNext pk move (.saveTenant pk c false) r) := by
  have hrow := World.tenantRow_of_staged hs.tx hs.staged
  match r with
  | .error e => exact fails_owns hs.owns h.2
  | .ok found =>
    obtain ⟨hfound, _, rfl⟩ := h
    replace hfound : found = (s.tenantRow p pk).isSome := hfound
    rw [hrow] at hfound
    obtain rfl : found = true := hfound
    refine stage_written hs.tx hs.start hrow hs.inserted ?_ hs.maintenance
    have hmoved := hs.moved
    cases move with
    | none => exact hmoved
    | some m => exact hmoved

/-- The facts that go with a phase hold after every request of the process. -/
theorem own_step {op : Req} {r : Except Exn op.Ans} (hp : φ.permits maint op)
    (h : machine.exec p op s r s') (hs : PhaseOk p s φ) : PhaseOk p s' (φ.next op r) := by
  cases φ with
  | out => exact idle_step rfl hp h hs
  | checked k a => exact idle_step rfl hp h hs
  | leased k seen => exact idle_step rfl hp h hs
  | bystander => exact idle_step rfl hp h hs
  | tx =>
    obtain ⟨x, hx⟩ := hs
    exact tx_step hp h hx
  | lost =>
    refine exec_end_idle hp h fun hnone => ?_
    rcases hs with hs | ⟨x, hx⟩
    · exact hs
    · exact absurd (hx.tx.symm.trans hnone) nofun
  | inserted k =>
    obtain ⟨x, hx⟩ := hs
    rcases hp with rfl | rfl
    · exact lockLease_step h hx
    · exact exec_end_idle (.inr rfl) h fun hnone => absurd (hx.tx.symm.trans hnone) nofun
  | free k =>
    obtain ⟨x, hx⟩ := hs
    rcases hp with rfl | ⟨old, rfl, hmove⟩
    · exact exec_end_idle (.inr rfl) h fun hnone => absurd (hx.tx.symm.trans hnone) nofun
    · exact adminUpdate_step h hx.tx hx.start hx.staged hx.owns hmove
        fun _ => ⟨hx.leaseLock, hx.dead⟩
  | written pk move =>
    obtain ⟨x, row, hx⟩ := hs
    rcases hp with rfl | rfl | ⟨c, rfl⟩
    · exact exec_end_idle (.inl rfl) h fun hnone => absurd (hx.tx.symm.trans hnone) nofun
    · exact exec_end_idle (.inr rfl) h fun hnone => absurd (hx.tx.symm.trans hnone) nofun
    · exact saveAgain_step h hx
  | doomed =>
    obtain rfl : op = .rollback := hp
    have hidle : Idle p s' := by
      cases r with
      | ok a =>
        obtain ⟨_, _, rfl⟩ := h
        exact endTx_idle p s
      | error e =>
        obtain rfl := h.2
        exact endTx_idle p s
    exact hidle

/-- The facts that go with the phase of each process are kept by every step. -/
theorem phaseOk_of_move {t : SysTrace} (hinv : ∀ p, PhaseOk p s (phaseAt (protocol maint) p t))
    (hm : Move machine (protocol maint) t s l s') (p : Pid) :
    PhaseOk p s' (phaseAt (protocol maint) p (⟨l, s, s'⟩ :: t)) := by
  have howns : ∀ q, Owns q s := fun q => (hinv q).owns
  cases hm.part p with
  | other hl hphase =>
    rw [hphase]
    exact (hinv p).frame (frame_of_acts hm.acts hl howns)
  | start _ hphase hsame hstop =>
    rw [hphase, hsame]
    exact (phaseOk_iff_idle hstop).mp (hinv p)
  | inner op _ hphase hi =>
    rw [hphase]
    cases op with
    | shard a r =>
      obtain ⟨st, hu⟩ := hi
      exact (hinv p).frame (frame_of_uses hu)
    | _ => exact absurd hi id
  | answer op r _ hphase hp he =>
    rw [hphase]
    exact own_step hp he (hinv p)
  | kill _ hphase hk =>
    rw [hphase]
    obtain rfl : s' = s.kill p := hk
    exact (endTx_idle p s).of_locks_eq rfl

/-- In a quiet world every process is idle. -/
theorem World.Quiet.idle (h : s.Quiet) (p : Pid) : Idle p s where
  tx := h.tx p
  leaseLock k hk := by
    rw [h.leaseLock k] at hk
    cases hk
  tenantLock pk hk := by
    rw [h.tenantLock pk] at hk
    cases hk

/-- Along every run, the facts that go with the phase of each process hold. -/
theorem Run.phaseOk {starts : Pid → Prog Unit → Prop} {s₀ : World} {c : SysConfig}
    (hP : AllFollow (protocol maint) starts) (hs : s₀.Quiet)
    (h : Run machine starts (.idle s₀) t c) (p : Pid) :
    PhaseOk p c.shared (phaseAt (protocol maint) p t) := by
  refine Run.invariant hP (fun t s => ∀ p, PhaseOk p s (phaseAt (protocol maint) p t)) ?_ ?_ h p
  · exact fun p => hs.idle p
  · exact fun t s l s' ih hm p => phaseOk_of_move ih hm p

end MtShards.Migrator
