import MtShards.Models.Migrator.StatusMachine

/-!
# What a transaction commits to a tenant row

A transaction that has written a tenant row holds its lock, so the row it commits comes from
the one that is committed: all columns but those of its own statements are the same. With it,
one inversion lemma says how a step takes one row of a tenant to the next, columns included.
-/

namespace MtShards.Migrator

open MtShards.Core

variable {maint : Bool} {φ : Phase} {k pk : Pk} {p q : Pid} {t : SysTrace} {s s' : World}
  {l : SysLabel} {x : Tx} {found row : Tenant}

/-- How a written row comes from the one it was read from: its status was kept or moved. -/
structure Derived (found row : Tenant) (move : Option (Status × Status)) : Prop where
  schemaName : row.schemaName = found.schemaName
  status : row.status = (move.map Prod.snd).getD found.status
  previousStatus : row.previousStatus = (move.map Prod.fst).getD found.previousStatus

theorem Derived.save {move : Option (Status × Status)} (h : Derived found row move)
    (c : World.Changes) (stamp : Option Nat) : Derived found (c.row stamp row) move :=
  ⟨h.schemaName, h.status, h.previousStatus⟩

/-- A transaction that has written a row has derived it from the committed one. -/
def StagedOk (p : Pid) (s : World) : Phase → Prop
  | .written pk move => ∃ x row found, s.tx p = some x ∧ x.staged = some (pk, row) ∧
      s.tenant pk = some found ∧ Derived found row move
  | _ => True

theorem StagedOk.frame (h : StagedOk p s φ) (howns : Owns p s) (hf : Frame p s s') :
    StagedOk p s' φ := by
  cases φ with
  | written pk move =>
    obtain ⟨x, row, found, htx, hstaged, hfound, hderived⟩ := h
    have hlock := howns.staged x pk row htx hstaged
    exact ⟨x, row, found, hf.tx.trans htx, hstaged, (hf.tenant pk hlock).trans hfound, hderived⟩
  | _ => trivial

/-- Writing a row that the transaction has not written before, or has. -/
theorem stage_stagedOk {f : Tenant → Tenant} {move : Option (Status × Status)}
    (htx : s.tx p = some x) (hrow : s.tenantRow p pk = some row) (hfound : s.tenant pk = some found)
    (h : Derived found (f row) move) : StagedOk p (s.stage p pk f) (.written pk move) := by
  rw [World.stage_eq htx hrow]
  exact ⟨_, f row, found, Function.update_self .., rfl, hfound, h⟩

/-- The admin's `UPDATE` in a transaction that has written nothing yet. -/
theorem adminUpdate_stagedOk {old dest : Status} {r : Except Exn Bool}
    (h : machine.exec p (.adminUpdate pk old dest) s r s') (htx : s.tx p = some x)
    (hstaged : x.staged = none) : StagedOk p s' (Phase.freeNext (.adminUpdate pk old dest) r) := by
  have hrow : s.tenantRow p pk = s.tenant pk := World.tenantRow_of_tx htx hstaged
  match r with
  | .error e => trivial
  | .ok false => trivial
  | .ok true =>
    obtain ⟨found, hc, -, rfl⟩ := adminUpdate_found h hrow
    exact stage_stagedOk htx (hrow.trans hc) hc ⟨rfl, rfl, rfl⟩

/-- `Tenant.save` in a transaction that has written nothing yet. -/
theorem save_stagedOk {c : World.Changes} {stamp : Bool} {r : Except Exn Bool}
    (h : machine.exec p (.saveTenant pk c stamp) s r s') (htx : s.tx p = some x)
    (hstaged : x.staged = none) : StagedOk p s' (Phase.txNext (.saveTenant pk c stamp) r) := by
  have hrow : s.tenantRow p pk = s.tenant pk := World.tenantRow_of_tx htx hstaged
  match r with
  | .error e => trivial
  | .ok false => trivial
  | .ok true =>
    obtain ⟨hfound, _, rfl⟩ := h
    replace hfound : true = (s.tenantRow p pk).isSome := hfound
    rw [hrow] at hfound
    obtain ⟨found, hc⟩ := Option.isSome_iff_exists.mp hfound.symm
    refine stage_stagedOk htx (hrow.trans hc) hc ?_
    exact ⟨rfl, rfl, rfl⟩

/-- A further `Tenant.save` of the row that the transaction has written. -/
theorem saveAgain_stagedOk {c : World.Changes} {move : Option (Status × Status)}
    {r : Except Exn Bool} (h : machine.exec p (.saveTenant pk c false) s r s')
    (hs : StagedOk p s (.written pk move)) :
    StagedOk p s' (Phase.writtenNext pk move (.saveTenant pk c false) r) := by
  obtain ⟨x, row, found, htx, hstaged, hfound, hderived⟩ := hs
  match r with
  | .error e => trivial
  | .ok false => trivial
  | .ok true =>
    obtain ⟨_, _, rfl⟩ := h
    exact stage_stagedOk htx (World.tenantRow_of_staged htx hstaged) hfound (hderived.save c _)

private theorem own_stagedOk {op : Req} {r : Except Exn op.Ans} (hp : φ.permits maint op)
    (h : machine.exec p op s r s') (hok : PhaseOk p s φ) (hs : StagedOk p s φ) :
    StagedOk p s' (φ.next op r) := by
  cases φ with
  | out =>
    simp only [Phase.next, Phase.outNext.eq_def]
    split
    · split <;> trivial
    all_goals trivial
  | checked k a =>
    simp only [Phase.next, Phase.checkedNext.eq_def]
    split
    · rename_i won
      cases won <;> trivial
    · trivial
  | leased k seen =>
    simp only [Phase.next, Phase.leasedNext.eq_def]
    split
    · split <;> trivial
    · trivial
    · rename_i won
      cases won <;> trivial
    · split <;> trivial
    · trivial
    · trivial
  | bystander => trivial
  | lost => trivial
  | doomed => trivial
  | inserted k =>
    simp only [Phase.next, Phase.insertedNext.eq_def]
    split
    · split <;> trivial
    · trivial
    · trivial
  | tx =>
    obtain ⟨x, hx⟩ := hok
    cases op with
    | saveTenant pk c stamp => exact save_stagedOk h hx.tx hx.staged
    | adminUpdate pk old dest =>
      have hstep := adminUpdate_stagedOk h hx.tx hx.staged
      cases r <;> exact hstep
    | shard a q => trivial
    | closeShard a => trivial
    | insertLease k => cases r <;> trivial
    | load k => cases r <;> trivial
    | leaseHolder k => cases r <;> trivial
    | codeOlderThanDb => cases r <;> trivial
    | commit => trivial
    | rollback => trivial
    | _ => exact hp.elim
  | free k =>
    obtain ⟨x, hx⟩ := hok
    rcases hp with rfl | ⟨old, rfl, _⟩
    · trivial
    · exact adminUpdate_stagedOk h hx.tx hx.staged
  | written pk move =>
    rcases hp with rfl | rfl | ⟨c, rfl⟩
    · trivial
    · trivial
    · exact saveAgain_stagedOk h hs

/-- Along every run, what is staged was derived from what is committed. -/
theorem Run.stagedOk {starts : Pid → Prog Unit → Prop} {s₀ : World} {c : SysConfig}
    (hP : AllFollow (protocol maint) starts) (hs : s₀.Quiet)
    (h : Run machine starts (.idle s₀) t c) (p : Pid) :
    StagedOk p c.shared (phaseAt (protocol maint) p t) := by
  refine (Run.invariant hP (fun t s => ∀ p, PhaseOk p s (phaseAt (protocol maint) p t) ∧
    StagedOk p s (phaseAt (protocol maint) p t)) ?_ ?_ h p).2
  · exact fun p => ⟨hs.idle p, trivial⟩
  intro t s l s' hinv hm p
  refine ⟨phaseOk_of_move (fun q => (hinv q).1) hm p, ?_⟩
  have howns : ∀ q, Owns q s := fun q => (hinv q).1.owns
  cases hm.part p with
  | other hl hphase =>
    rw [hphase]
    exact (hinv p).2.frame (howns p) (frame_of_acts hm.acts hl howns)
  | start _ hphase =>
    rw [hphase]
    trivial
  | inner op _ hphase hi =>
    rw [hphase]
    cases op with
    | shard a r =>
      obtain ⟨st, hu⟩ := hi
      exact (hinv p).2.frame (howns p) (frame_of_uses hu)
    | _ => exact absurd hi id
  | answer op r _ hphase hp he =>
    rw [hphase]
    exact own_stagedOk hp he (hinv p).1 (hinv p).2
  | kill _ hphase =>
    rw [hphase]
    trivial

/-- How a step takes a tenant row to the next one. -/
inductive RowStep (maint : Bool) (t : SysTrace) (pk : Pk) (s : World) (l : SysLabel)
    (found row : Tenant) : Prop
  | kept (same : row = found)
  | fenced (p : Pid) (expected : List Status) (w : World.StatusWrite) (r : Except Exn Bool)
      (seen : Status) (label : l = .answer p (.fencedCas pk expected w) r)
      (allowed : CasAllowed seen expected w.status) (expects : found.status ∈ expected)
      (owner : s.leaseOwner pk = some p) (after : row = w.row s.now found)
  | console (p : Pid) (source dest : Status) (r : Except Exn Bool)
      (label : l = .answer p (.consoleUpdate pk source dest) r) (move : ConsoleMove source dest)
      (expects : found.status = source) (after : row = World.movedRow s.now dest found)
  | saved (p : Pid) (r : Except Exn Unit) (label : l = .answer p .commit r)
      (after : Derived found row none)
  | moved (p : Pid) (r : Except Exn Unit) (dest : Status) (label : l = .answer p .commit r)
      (phase : phaseAt (protocol maint) p t = .written pk (some (found.status, dest)))
      (move : AdminMove found.status dest) (after : Derived found row (some (found.status, dest)))

/-- A row after a step comes from one before it, by one of the writers. -/
theorem rowStep_of_move (hm : Move machine (protocol maint) t s l s')
    (hphase : ∀ p, PhaseOk p s (phaseAt (protocol maint) p t))
    (hstaged : ∀ p, StagedOk p s (phaseAt (protocol maint) p t)) (hrow : s'.tenant pk = some row) :
    ∃ found, s.tenant pk = some found ∧ RowStep maint t pk s l found row := by
  cases acts_tenantChange pk hm.acts with
  | kept hkept => exact ⟨row, hkept.symm.trans hrow, .kept rfl⟩
  | fenced p expected w r hlabel hfence _ hnew =>
    subst hlabel
    obtain ⟨seen, _, hallowed⟩ := Phase.of_permits_fencedCas hm.permits
    obtain ⟨found, hfound, hafter⟩ := Option.map_eq_some_iff.mp (hnew.symm.trans hrow)
    rw [World.fenceHolds, hfound] at hfence
    simp only [Bool.and_eq_true, decide_eq_true_eq] at hfence
    exact ⟨found, hfound, .fenced p expected w r seen rfl hallowed hfence.1 hfence.2 hafter.symm⟩
  | console p source dest r hlabel hstatus _ hnew =>
    subst hlabel
    obtain ⟨found, hfound, hafter⟩ := Option.map_eq_some_iff.mp (hnew.symm.trans hrow)
    have hsource : found.status = source :=
      Option.some.inj ((World.status_eq_some hfound).symm.trans hstatus)
    exact ⟨found, hfound,
      .console p source dest r rfl (Phase.of_permits_consoleUpdate hm.permits) hsource hafter.symm⟩
  | committed p x new hlabel htx hst hnew =>
    obtain ⟨r, rfl⟩ := hlabel
    obtain rfl : new = row := Option.some.inj (hnew.symm.trans hrow)
    obtain ⟨move, hwritten, hmoved⟩ := (hphase p).staged hm.permits htx hst
    have hsp := hstaged p
    rw [hwritten] at hsp
    obtain ⟨y, row', found, hy, hyst, hfound, hderived⟩ := hsp
    obtain rfl := Option.some.inj (htx.symm.trans hy)
    obtain ⟨-, rfl⟩ := Prod.mk.inj (Option.some.inj (hst.symm.trans hyst))
    refine ⟨found, hfound, ?_⟩
    cases move with
    | none => exact .saved p r rfl hderived
    | some m =>
      obtain ⟨old, dest⟩ := m
      obtain ⟨hmove, hold, _⟩ := hmoved
      obtain rfl : found.status = old :=
        Option.some.inj ((World.status_eq_some hfound).symm.trans hold)
      exact .moved p r dest rfl hwritten hmove hderived
  | deleted _ _ hnone => cases hnone.symm.trans hrow

end MtShards.Migrator
