import MtShards.Models.Migrator.Conformance
import MtShards.Models.Migrator.Phases

/-!
# What a step can do to each part of the shared state

One inversion lemma per part: the clock, the lease table, the tenant table. A step leaves a
lease row as it was, or an upsert takes it, or it becomes free; a step leaves a tenant row as
it was, or one of the four writers has changed it, or it is deleted.
-/

namespace MtShards.Migrator

open MtShards.Core

variable {s s' : World} {p : Pid} {op : Req}

/-- What is committed on `default`, and the clock. -/
def World.committed (s : World) :
    (Pk → Option (Option Held)) × (Pk → Option Tenant) × Nat := (s.lease, s.tenant, s.now)

/-- What is committed are the leases, the tenants and the time. -/
theorem World.committed_eq_iff : s'.committed = s.committed ↔
    s'.lease = s.lease ∧ s'.tenant = s.tenant ∧ s'.now = s.now := by
  simp only [World.committed, Prod.mk.injEq]

/-- The open transactions and their row locks. -/
def World.locks (s : World) : (Pid → Option Tx) × (Pk → Option Pid) × (Pk → Option Pid) :=
  (s.tx, s.leaseLock, s.tenantLock)

/-- What is locked are the transactions and the two kinds of row locks. -/
theorem World.locks_eq_iff : s'.locks = s.locks ↔
    s'.tx = s.tx ∧ s'.leaseLock = s.leaseLock ∧ s'.tenantLock = s.tenantLock := by
  simp only [World.locks, Prod.mk.injEq]

/-- Using a shard touches nothing on `default`. -/
theorem World.Uses.default_eq {a : Alias} {st : Activity} {f : Option Pk → Option Pk}
    (h : s.Uses p a st f s') :
    s'.committed = s.committed ∧ s'.tx = s.tx ∧ s'.leaseLock = s.leaseLock ∧
      s'.tenantLock = s.tenantLock := by
  rcases h with ⟨i, b, _, _, rfl⟩ | ⟨_, i, _, rfl⟩ <;> exact ⟨rfl, rfl, rfl, rfl⟩

/-- The requests that may change a shard backend. -/
def Req.usesShard : Req → Bool
  | shard _ _ | closeShard _ => true
  | _ => false

/-! ### What a request can do -/

/-- What a request that returns or raises has done to the shared state. -/
inductive Executed (p : Pid) (op : Req) (s : World) : World → Prop
  | kept : Executed p op s s
  /-- It has used or lost a connection to a shard. -/
  | shards {s' : World} (usesShard : op.usesShard = true) (committed : s'.committed = s.committed)
      (locks : s'.locks = s.locks) : Executed p op s s'
  /-- It has lost its transaction. -/
  | ended (onDefault : op.usesShard = false) : Executed p op s (s.endTx p)
  | carriedOut (waitsFor : op.waitsFor p s = none) : Executed p op s (op.apply p s)
  /-- It was carried out, and then its transaction was lost. -/
  | cutShort (onDefault : op.usesShard = false) (waitsFor : op.waitsFor p s = none) :
      Executed p op s ((op.apply p s).endTx p)

/-- Using a shard is one way to execute a request. -/
theorem Executed.of_uses {a : Alias} {st : Activity} {f : Option Pk → Option Pk}
    (h : s.Uses p a st f s') (hop : op.usesShard = true) : Executed p op s s' := by
  obtain ⟨hcommitted, hlocks⟩ := h.default_eq
  exact .shards hop hcommitted (World.locks_eq_iff.mpr hlocks)

/-- Every request is executed in one of the ways of `Executed`. -/
theorem exec_cases {r : Except Exn op.Ans} (h : machine.exec p op s r s') :
    Executed p op s s' := by
  cases r with
  | ok a =>
    obtain ⟨_, hr⟩ := h
    cases op with
    | shard al q =>
      obtain ⟨st, _, hu⟩ := hr
      exact .of_uses hu rfl
    | _ =>
      obtain ⟨hw, rfl⟩ := hr
      exact .carriedOut hw
  | error e =>
    obtain ⟨_, hf⟩ := h
    cases op with
    | shard al q =>
      rcases hf with ⟨st, _, hu⟩ | ⟨_, rfl⟩
      · exact .of_uses hu rfl
      · exact .shards rfl rfl rfl
    | commit =>
      rcases hf with rfl | rfl
      · exact .ended rfl
      · exact .carriedOut rfl
    | rollback =>
      obtain rfl := hf
      exact .ended rfl
    | forgetTenant pk =>
      obtain rfl := hf
      exact .kept
    | shardIdle a =>
      obtain rfl := hf
      exact .kept
    | closeShard a =>
      rcases hf with rfl | ⟨_, rfl⟩
      · exact .carriedOut rfl
      · exact .kept
    | _ =>
      rcases hf with rfl | ⟨_, rfl | ⟨hw, rfl⟩⟩
      · exact .kept
      · exact .ended rfl
      · exact .cutShort rfl hw

/-- A request that returns or raises has left what is committed as it was, or it was carried
out without having to wait. -/
theorem exec_committed {r : Except Exn op.Ans} (h : machine.exec p op s r s') :
    s'.committed = s.committed ∨
      (op.waitsFor p s = none ∧ s'.committed = (op.apply p s).committed) := by
  cases exec_cases h with
  | kept => exact .inl rfl
  | shards _ hcommitted _ => exact .inl hcommitted
  | ended _ => exact .inl rfl
  | carriedOut hw => exact .inr ⟨hw, rfl⟩
  | cutShort _ hw => exact .inr ⟨hw, rfl⟩

/-- A request that returns or raises leaves the transactions alone, or ends its own, or is
carried out, with or without the end of its own. -/
theorem exec_locks {r : Except Exn op.Ans} (h : machine.exec p op s r s') :
    s'.locks = s.locks ∨ s'.locks = (s.endTx p).locks ∨
      (op.waitsFor p s = none ∧
        (s'.locks = (op.apply p s).locks ∨ s'.locks = ((op.apply p s).endTx p).locks)) := by
  cases exec_cases h with
  | kept => exact .inl rfl
  | shards _ _ hlocks => exact .inl hlocks
  | ended _ => exact .inr (.inl rfl)
  | carriedOut hw => exact .inr (.inr ⟨hw, .inl rfl⟩)
  | cutShort _ hw => exact .inr (.inr ⟨hw, .inr rfl⟩)

/-! ### Statements that leave the committed rows alone -/

section Statements

variable {k pk : Pk}

/-- Inserting a lease row commits nothing. -/
theorem World.insertLease_committed : (s.insertLease p k).committed = s.committed := by
  unfold World.insertLease
  split <;> rfl

/-- Locking a lease row commits nothing. -/
theorem World.lockLease_committed : (s.lockLease p k).committed = s.committed := by
  unfold World.lockLease
  split <;> rfl

/-- Staging a row commits nothing. -/
theorem World.stage_committed {f : Tenant → Tenant} :
    (s.stage p pk f).committed = s.committed := by
  unfold World.stage
  split <;> rfl

/-- The `UPDATE` of the admin commits nothing. -/
theorem World.adminUpdate_committed {old dest : Status} :
    (s.adminUpdate p pk old dest).committed = s.committed := by
  unfold World.adminUpdate
  split
  · exact World.stage_committed
  · rfl

end Statements

/-- The requests that may change a committed row. -/
def Req.writes : Req → Bool
  | leaseUpsert _ | leaseRelease _ | leaseForceRelease _ _ | fencedCas _ _ _ => true
  | consoleUpdate _ _ _ | commit => true
  | _ => false

/-- A request that does not write commits nothing. -/
theorem Req.apply_committed (h : op.writes = false) :
    (op.apply p s).committed = s.committed := by
  cases op with
  | insertLease k => exact World.insertLease_committed
  | lockLease k => exact World.lockLease_committed
  | adminUpdate pk old dest => exact World.adminUpdate_committed
  | saveTenant pk c stamp => exact World.stage_committed
  | _ => first | exact Bool.noConfusion h | rfl

/-- No request moves the clock. -/
theorem Req.apply_now : (op.apply p s).now = s.now := by
  cases hw : op.writes with
  | false => exact (World.committed_eq_iff.mp (Req.apply_committed hw)).2.2
  | true =>
    cases op with
    | leaseUpsert k => exact apply_ite World.now .. |>.trans (ite_self _)
    | leaseRelease k => exact apply_ite World.now .. |>.trans (ite_self _)
    | leaseForceRelease k o => exact apply_ite World.now .. |>.trans (ite_self _)
    | fencedCas pk expected w => exact apply_ite World.now .. |>.trans (ite_self _)
    | consoleUpdate pk source dest => exact apply_ite World.now .. |>.trans (ite_self _)
    | commit =>
      rw [Req.apply, World.commit]
      split <;> rfl
    | _ => exact Bool.noConfusion hw

/-- How a step may change one lease row. -/
inductive LeaseChange (l : SysLabel) (k : Pk) (s s' : World) : Prop
  | kept (row : s'.lease k = s.lease k)
  /-- The upsert of `lease_acquire` wins. -/
  | taken (p : Pid) (r : Except Exn Bool) (label : l = .answer p (.leaseUpsert k) r)
      (claimable : s.claimable k = true) (unlocked : (s.leaseLock k).filter (· ≠ p) = none)
      (row : s'.lease k = some (some ⟨p, s.now, s.now + leaseTtl⟩))
  /-- The owner, or an operator in its name, gives the lease back. -/
  | released (p o : Pid) (label : (o = p ∧ ∃ r, l = .answer p (.leaseRelease k) r) ∨
      ∃ r, l = .answer p (.leaseForceRelease k o) r) (owner : s.leaseOwner k = some o)
      (unlocked : (s.leaseLock k).filter (· ≠ p) = none) (row : s'.lease k = some none)
  /-- A transaction that has inserted the free row commits. -/
  | inserted (p : Pid) (x : Tx) (label : ∃ r, l = .answer p .commit r) (tx : s.tx p = some x)
      (key : x.inserted = some k) (row : s'.lease k = some none)

/-- Freeing a lease changes it as its label says. -/
theorem World.freeLease_change {l : SysLabel} {k k' : Pk} {o : Pid}
    (hl : (o = p ∧ ∃ r, l = .answer p (.leaseRelease k') r) ∨
      ∃ r, l = .answer p (.leaseForceRelease k' o) r)
    (hw : (if s.leaseOwner k' = some o then (s.leaseLock k').filter (· ≠ p) else none) = none)
    (hrow : s'.lease = (s.freeLease k' o).lease) : LeaseChange l k s s' := by
  by_cases ho : s.leaseOwner k' = some o
  · rw [if_pos ho] at hw
    by_cases hk : k = k'
    · subst hk
      refine .released p o hl ho hw ?_
      rw [hrow, World.freeLease, if_pos ho]
      exact Function.update_self ..
    · refine .kept ?_
      rw [hrow, World.freeLease, if_pos ho]
      exact Function.update_of_ne hk ..
  · refine .kept ?_
    rw [hrow, World.freeLease, if_neg ho]

/-- What a request that was carried out does to a lease row. -/
theorem Req.apply_leaseChange {r : Except Exn op.Ans} {k : Pk} (hw : op.waitsFor p s = none)
    (hrow : s'.lease = (op.apply p s).lease) : LeaseChange (.answer p op r) k s s' := by
  cases op with
  | leaseUpsert k' =>
    by_cases hk : k = k'
    · subst hk
      by_cases hc : s.claimable k = true
      · refine .taken p r rfl hc hw ?_
        rw [hrow, Req.apply, World.upsertLease, if_pos hc]
        exact Function.update_self ..
      · refine .kept ?_
        rw [hrow, Req.apply, World.upsertLease, if_neg hc]
    · refine .kept ?_
      rw [hrow, Req.apply, World.upsertLease]
      split
      · exact Function.update_of_ne hk ..
      · rfl
  | leaseRelease k' => exact World.freeLease_change (.inl ⟨rfl, r, rfl⟩) hw hrow
  | leaseForceRelease k' o => exact World.freeLease_change (.inr ⟨r, rfl⟩) hw hrow
  | commit =>
    rw [Req.apply, World.commit] at hrow
    cases hx : s.tx p with
    | none => exact .kept (by rw [hrow, hx])
    | some x =>
      rw [hx] at hrow
      cases hi : x.inserted with
      | none => exact .kept (by rw [hrow]; simp only [hi])
      | some k' =>
        by_cases hk : k = k'
        · subst hk
          refine .inserted p x ⟨r, rfl⟩ hx hi ?_
          rw [hrow]
          simp only [hi, Function.update_self]
        · refine .kept ?_
          rw [hrow]
          simp only [hi, Function.update_of_ne hk]
  | fencedCas pk expected w =>
    refine .kept ?_
    rw [hrow, Req.apply, World.fencedCas]
    split <;> rfl
  | consoleUpdate pk source dest =>
    refine .kept ?_
    rw [hrow, Req.apply, World.consoleUpdate]
    split <;> rfl
  | _ =>
    refine .kept ?_
    rw [hrow, (World.committed_eq_iff.mp (Req.apply_committed rfl)).1]

/-- What a step does to a lease row. -/
theorem acts_leaseChange {l : SysLabel} (k : Pk) (h : machine.Acts l s s') :
    LeaseChange l k s s' := by
  cases l with
  | start p =>
    obtain rfl : s' = s := h
    exact .kept rfl
  | inner p op =>
    cases op with
    | shard a q =>
      obtain ⟨st, hu⟩ := h
      exact .kept (congrFun (World.committed_eq_iff.mp hu.default_eq.1).1 k)
    | _ => exact absurd h id
  | answer p op r =>
    rcases exec_committed h with hkept | ⟨hw, happly⟩
    · exact .kept (congrFun (World.committed_eq_iff.mp hkept).1 k)
    · exact Req.apply_leaseChange hw (World.committed_eq_iff.mp happly).1
  | env =>
    rcases h with ⟨n, _, rfl⟩ | ⟨i, b, _, _, rfl⟩ | ⟨pk, _, rfl⟩ <;> exact .kept rfl
  | kill p =>
    obtain rfl : s' = s.kill p := h
    exact .kept rfl

/-- Only the environment moves the clock. -/
theorem acts_now_eq {l : SysLabel} (h : machine.Acts l s s') (hl : l ≠ .env) :
    s'.now = s.now := by
  cases l with
  | start p =>
    obtain rfl : s' = s := h
    rfl
  | inner p op =>
    cases op with
    | shard a q =>
      obtain ⟨st, hu⟩ := h
      exact (World.committed_eq_iff.mp hu.default_eq.1).2.2
    | _ => exact absurd h id
  | answer p op r =>
    rcases exec_committed h with hkept | ⟨_, happly⟩
    · exact (World.committed_eq_iff.mp hkept).2.2
    · exact (World.committed_eq_iff.mp happly).2.2.trans Req.apply_now
  | env => exact absurd rfl hl
  | kill p =>
    obtain rfl : s' = s.kill p := h
    rfl

/-- The clock does not go back. -/
theorem acts_now_le {l : SysLabel} (h : machine.Acts l s s') : s.now ≤ s'.now := by
  by_cases hl : l = .env
  · subst hl
    rcases h with ⟨n, hn, rfl⟩ | ⟨i, b, _, _, rfl⟩ | ⟨pk, _, rfl⟩
    · exact hn
    · exact Nat.le_refl _
    · exact Nat.le_refl _
  · exact Nat.le_of_eq (acts_now_eq h hl).symm

/-- How a step may change one tenant row. -/
inductive TenantChange (l : SysLabel) (pk : Pk) (s s' : World) : Prop
  | kept (row : s'.tenant pk = s.tenant pk)
  /-- A fenced status write of the migrator. -/
  | fenced (p : Pid) (expected : List Status) (w : World.StatusWrite) (r : Except Exn Bool)
      (label : l = .answer p (.fencedCas pk expected w) r)
      (fence : s.fenceHolds p pk expected = true)
      (unlocked : (s.tenantLock pk).filter (· ≠ p) = none)
      (row : s'.tenant pk = (s.tenant pk).map (w.row s.now))
  /-- The conditional update of the console. -/
  | console (p : Pid) (source dest : Status) (r : Except Exn Bool)
      (label : l = .answer p (.consoleUpdate pk source dest) r) (found : s.status pk = some source)
      (unlocked : (s.tenantLock pk).filter (· ≠ p) = none)
      (row : s'.tenant pk = (s.tenant pk).map (World.movedRow s.now dest))
  /-- A transaction that has written the row commits. -/
  | committed (p : Pid) (x : Tx) (new : Tenant) (label : ∃ r, l = .answer p .commit r)
      (tx : s.tx p = some x) (staged : x.staged = some (pk, new)) (row : s'.tenant pk = some new)
  | deleted (label : l = .env) (unlocked : s.tenantLock pk = none) (row : s'.tenant pk = none)

/-- What a request that was carried out does to a tenant row. -/
theorem Req.apply_tenantChange {r : Except Exn op.Ans} {pk : Pk} (hw : op.waitsFor p s = none)
    (hrow : s'.tenant = (op.apply p s).tenant) : TenantChange (.answer p op r) pk s s' := by
  cases op with
  | fencedCas pk' expected w =>
    rw [Req.apply, World.fencedCas] at hrow
    rw [Req.waitsFor] at hw
    by_cases hf : s.fenceHolds p pk' expected = true
    · rw [if_pos hf] at hrow hw
      by_cases hk : pk = pk'
      · subst hk
        exact .fenced p expected w r rfl hf hw (by rw [hrow]; exact Function.update_self ..)
      · exact .kept (by rw [hrow]; exact Function.update_of_ne hk ..)
    · rw [if_neg hf] at hrow
      exact .kept (by rw [hrow])
  | consoleUpdate pk' source dest =>
    rw [Req.apply, World.consoleUpdate] at hrow
    rw [Req.waitsFor] at hw
    by_cases hf : s.status pk' = some source
    · rw [if_pos hf] at hrow hw
      by_cases hk : pk = pk'
      · subst hk
        exact .console p source dest r rfl hf hw (by rw [hrow]; exact Function.update_self ..)
      · exact .kept (by rw [hrow]; exact Function.update_of_ne hk ..)
    · rw [if_neg hf] at hrow
      exact .kept (by rw [hrow])
  | commit =>
    rw [Req.apply, World.commit] at hrow
    cases hx : s.tx p with
    | none => exact .kept (by rw [hrow, hx])
    | some x =>
      rw [hx] at hrow
      cases hi : x.staged with
      | none => exact .kept (by rw [hrow]; simp only [hi])
      | some staged =>
        obtain ⟨pk', row⟩ := staged
        by_cases hk : pk = pk'
        · subst hk
          refine .committed p x row ⟨r, rfl⟩ hx hi ?_
          rw [hrow]
          simp only [hi, Function.update_self]
        · refine .kept ?_
          rw [hrow]
          simp only [hi, Function.update_of_ne hk]
  | leaseUpsert k =>
    refine .kept ?_
    rw [hrow, Req.apply, World.upsertLease]
    split <;> rfl
  | leaseRelease k =>
    refine .kept ?_
    rw [hrow, Req.apply, World.freeLease]
    split <;> rfl
  | leaseForceRelease k o =>
    refine .kept ?_
    rw [hrow, Req.apply, World.freeLease]
    split <;> rfl
  | _ =>
    refine .kept ?_
    rw [hrow, (World.committed_eq_iff.mp (Req.apply_committed rfl)).2.1]

/-- What a step does to a tenant row. -/
theorem acts_tenantChange {l : SysLabel} (pk : Pk) (h : machine.Acts l s s') :
    TenantChange l pk s s' := by
  cases l with
  | start p =>
    obtain rfl : s' = s := h
    exact .kept rfl
  | inner p op =>
    cases op with
    | shard a q =>
      obtain ⟨st, hu⟩ := h
      exact .kept (congrFun (World.committed_eq_iff.mp hu.default_eq.1).2.1 pk)
    | _ => exact absurd h id
  | answer p op r =>
    rcases exec_committed h with hkept | ⟨hw, happly⟩
    · exact .kept (congrFun (World.committed_eq_iff.mp hkept).2.1 pk)
    · exact Req.apply_tenantChange hw (World.committed_eq_iff.mp happly).2.1
  | env =>
    rcases h with ⟨n, _, rfl⟩ | ⟨i, b, _, _, rfl⟩ | ⟨pk', hlock, rfl⟩
    · exact .kept rfl
    · exact .kept rfl
    · by_cases hk : pk = pk'
      · subst hk
        exact .deleted rfl hlock (Function.update_self ..)
      · exact .kept (Function.update_of_ne hk ..)
  | kill p =>
    obtain rfl : s' = s.kill p := h
    exact .kept rfl

/-! ### Transactions and locks -/

/-- The requests that may change a transaction or a lock. -/
def Req.transacts : Req → Bool
  | begin | commit | rollback | insertLease _ | lockLease _ | adminUpdate _ _ _ => true
  | saveTenant _ _ _ => true
  | _ => false

/-- A request of no transaction locks nothing. -/
theorem Req.apply_locks (h : op.transacts = false) : (op.apply p s).locks = s.locks := by
  cases op with
  | leaseUpsert k => exact apply_ite World.locks .. |>.trans (ite_self _)
  | leaseRelease k => exact apply_ite World.locks .. |>.trans (ite_self _)
  | leaseForceRelease k o => exact apply_ite World.locks .. |>.trans (ite_self _)
  | fencedCas pk expected w => exact apply_ite World.locks .. |>.trans (ite_self _)
  | consoleUpdate pk source dest => exact apply_ite World.locks .. |>.trans (ite_self _)
  | _ => first | exact Bool.noConfusion h | rfl

/-- A request to a shard leaves the transactions alone. -/
theorem exec_shard_locks {r : Except Exn op.Ans} (hop : op.usesShard = true)
    (h : machine.exec p op s r s') : s'.locks = s.locks := by
  have hplain : op.transacts = false := by
    cases op with
    | shard a q => rfl
    | closeShard a => rfl
    | _ => cases hop
  cases exec_cases h with
  | kept => rfl
  | shards _ _ hlocks => exact hlocks
  | ended hdefault =>
    rw [hop] at hdefault
    cases hdefault
  | carriedOut _ => exact Req.apply_locks hplain
  | cutShort hdefault _ =>
    rw [hop] at hdefault
    cases hdefault

/-! ### Shard backends -/

/-- A request that does not use a shard leaves the sessions alone. -/
theorem Req.apply_backends (h : op.usesShard = false) :
    (op.apply p s).backends = s.backends := by
  cases op with
  | leaseUpsert k => exact apply_ite World.backends .. |>.trans (ite_self _)
  | leaseRelease k => exact apply_ite World.backends .. |>.trans (ite_self _)
  | leaseForceRelease k o => exact apply_ite World.backends .. |>.trans (ite_self _)
  | fencedCas pk expected w => exact apply_ite World.backends .. |>.trans (ite_self _)
  | consoleUpdate pk source dest => exact apply_ite World.backends .. |>.trans (ite_self _)
  | commit =>
    rw [Req.apply, World.commit]
    split <;> rfl
  | insertLease k =>
    rw [Req.apply, World.insertLease]
    split <;> rfl
  | lockLease k =>
    rw [Req.apply, World.lockLease]
    split <;> rfl
  | adminUpdate pk old dest =>
    rw [Req.apply, World.adminUpdate]
    split
    · rw [World.stage]
      split <;> rfl
    · rfl
  | saveTenant pk c stamp =>
    rw [Req.apply, World.saveTenant, World.stage]
    split <;> rfl
  | _ => first | exact Bool.noConfusion h | rfl

/-- A request on `default` leaves the shard backends alone. -/
theorem exec_backends {r : Except Exn op.Ans} (hop : op.usesShard = false)
    (h : machine.exec p op s r s') : s'.backends = s.backends := by
  have happly := Req.apply_backends (p := p) (s := s) hop
  cases exec_cases h with
  | kept => rfl
  | shards hshard _ _ =>
    rw [hop] at hshard
    cases hshard
  | ended _ => rfl
  | carriedOut _ => exact happly
  | cutShort _ _ => exact happly

end MtShards.Migrator
