import MtShards.Models.Migrator.Fencing
import MtShards.Models.Migrator.Transactions

/-!
# The status of a tenant

Four writers share the column `Tenant.status`. Every committed change is an edge of the state
machine of its writer, and starts from the value that the writer's own condition names: the
action's `from_status` for the console, the expected status for the admin, and for the
migrator the status that it has read or written itself under its lease. The condition is on
the value of the row when it is written; a change that the writer has not seen can have led
to that value.
-/

namespace MtShards.Migrator

open MtShards.Core

variable {maint : Bool} {φ : Phase} {k pk : Pk} {p q : Pid} {t : SysTrace} {s s' : World}
  {l : SysLabel} {a b x : Status}

/-! ### What one step does to a status -/

/-- The console may only write the moves that it has. -/
theorem Phase.of_permits_consoleUpdate {source dest : Status}
    (h : φ.permits maint (.consoleUpdate pk source dest)) : ConsoleMove source dest := by
  cases φ with
  | out => exact h
  | checked k a => cases h
  | leased k seen => exact Bool.noConfusion h.1
  | bystander => exact Bool.noConfusion h
  | tx => exact h.elim
  | lost => rcases h with h | h <;> cases h
  | inserted k => rcases h with h | h <;> cases h
  | free k => rcases h with h | ⟨old, h, _⟩ <;> cases h
  | written pk move => rcases h with h | h | ⟨c, h⟩ <;> cases h
  | doomed => cases h

/-- The phases from which a transaction may commit. -/
theorem Phase.of_permits_commit (h : φ.permits maint .commit) :
    φ = .tx ∨ φ = .lost ∨ ∃ pk move, φ = .written pk move := by
  cases φ with
  | tx => exact .inl rfl
  | lost => exact .inr (.inl rfl)
  | written pk move => exact .inr (.inr ⟨pk, move, rfl⟩)
  | out => exact Bool.noConfusion h
  | checked k a => cases h
  | leased k seen => exact Bool.noConfusion h.1
  | bystander => exact Bool.noConfusion h
  | inserted k => rcases h with h | h <;> cases h
  | free k => rcases h with h | ⟨old, h, _⟩ <;> cases h
  | doomed => cases h

/-- What a committed tenant row of a transaction is: the row that its phase has written. -/
theorem PhaseOk.staged {tx : Tx} {row : Tenant} (hok : PhaseOk p s φ)
    (hp : φ.permits maint .commit) (htx : s.tx p = some tx) (hstaged : tx.staged = some (pk, row)) :
    ∃ move, φ = .written pk move ∧ MovedFrom pk s row move := by
  have hplain : ∀ y, ¬ PlainTx p s y := by
    intro y hy
    obtain rfl := Option.some.inj (hy.tx.symm.trans htx)
    rw [hy.staged] at hstaged
    cases hstaged
  rcases Phase.of_permits_commit hp with rfl | rfl | ⟨pk', move, rfl⟩
  · obtain ⟨y, hy⟩ := hok
    exact absurd hy (hplain y)
  · rcases hok with hidle | ⟨y, hy⟩
    · exact absurd (hidle.tx.symm.trans htx) nofun
    · exact absurd hy (hplain y)
  · obtain ⟨y, row', hy⟩ := hok
    obtain rfl := Option.some.inj (hy.tx.symm.trans htx)
    rw [hy.staged] at hstaged
    cases hstaged
    exact ⟨move, rfl, hy.moved⟩

/-- How a step takes the status of a tenant from `a` to `b`. -/
inductive StatusStep (maint : Bool) (t : SysTrace) (pk : Pk) (s : World) (l : SysLabel) (a b : Status) : Prop
  | kept (same : a = b)
  | fenced (p : Pid) (expected : List Status) (w : World.StatusWrite) (r : Except Exn Bool)
      (seen : Status) (label : l = .answer p (.fencedCas pk expected w) r)
      (phase : phaseAt (protocol maint) p t = .leased pk (.read seen))
      (allowed : CasAllowed seen expected w.status) (found : a ∈ expected) (reached : b = w.status)
      (owner : s.leaseOwner pk = some p)
  | console (p : Pid) (r : Except Exn Bool) (label : l = .answer p (.consoleUpdate pk a b) r)
      (move : ConsoleMove a b)
  | admin (p : Pid) (r : Except Exn Unit) (label : l = .answer p .commit r)
      (phase : phaseAt (protocol maint) p t = .written pk (some (a, b))) (move : AdminMove a b)

/-- The status of a tenant is that of its row. -/
theorem World.status_eq_some {row : Tenant} (h : s.tenant pk = some row) :
    s.status pk = some row.status := by
  rw [World.status, h]
  rfl

/-- A status after a step comes from one before it, by one of the writers. -/
theorem statusStep_of_move (hm : Move machine (protocol maint) t s l s')
    (hphase : ∀ p, PhaseOk p s (phaseAt (protocol maint) p t)) (hb : s'.status pk = some b) :
    ∃ a, s.status pk = some a ∧ StatusStep maint t pk s l a b := by
  cases acts_tenantChange pk hm.acts with
  | kept hkept =>
    rw [World.status, hkept] at hb
    exact ⟨b, hb, .kept rfl⟩
  | fenced p expected w r hlabel hfence _ hnew =>
    subst hlabel
    obtain ⟨seen, hseen, hallowed⟩ := Phase.of_permits_fencedCas hm.permits
    rw [World.status, hnew, Option.map_map] at hb
    obtain ⟨row, hrow, hto⟩ := Option.map_eq_some_iff.mp hb
    rw [World.fenceHolds, hrow] at hfence
    simp only [Bool.and_eq_true, decide_eq_true_eq] at hfence
    exact ⟨row.status, World.status_eq_some hrow,
      .fenced p expected w r seen rfl hseen hallowed hfence.1 hto.symm hfence.2⟩
  | console p source dest r hlabel hfound _ hnew =>
    subst hlabel
    rw [World.status, hnew, Option.map_map] at hb
    obtain ⟨row, _, hto⟩ := Option.map_eq_some_iff.mp hb
    obtain rfl : dest = b := hto
    exact ⟨source, hfound, .console p r rfl (Phase.of_permits_consoleUpdate hm.permits)⟩
  | committed p tx new hlabel htx hstaged hnew =>
    obtain ⟨r, rfl⟩ := hlabel
    obtain ⟨move, hwritten, hmoved⟩ := (hphase p).staged hm.permits htx hstaged
    obtain rfl : new.status = b := Option.some.inj ((World.status_eq_some hnew).symm.trans hb)
    cases move with
    | none => exact ⟨new.status, hmoved, .kept rfl⟩
    | some m =>
      obtain ⟨old, dest⟩ := m
      obtain ⟨hmove, hold, rfl⟩ := hmoved
      exact ⟨old, hold, .admin p r rfl hwritten hmove⟩
  | deleted _ _ hnone =>
    rw [World.status, hnone] at hb
    cases hb

/-! ### What a leaseholder knows -/

/-- How a process comes to know a status under its lease. -/
theorem seen_of_move (hm : Move machine (protocol maint) t s l s')
    (h : phaseAt (protocol maint) p (⟨l, s, s'⟩ :: t) = .leased pk (.read x)) :
    ((∃ seen, phaseAt (protocol maint) p t = .leased pk seen) ∧ Tells p pk x l) ∨
      (phaseAt (protocol maint) p t = .leased pk (.read x) ∧ ∀ b, ¬ Tells p pk b l) := by
  rcases phase_of_move p hm with ⟨hsame, hsilent⟩ | hout | hnext
  · refine .inr ⟨hsame.symm.trans h, ?_⟩
    rintro b (⟨row, hl, _⟩ | ⟨expected, w, hl, _⟩)
    · exact hsilent _ _ hl
    · exact hsilent _ _ hl
  · rw [hout] at h
    cases h
  · rw [h] at hnext
    cases hnext with
    | plain hψ => exact Bool.noConfusion hψ
    | told k seen x hφ htells => exact .inl ⟨⟨seen, hφ⟩, htells⟩
    | kept k seen hφ hsilent => exact .inr ⟨hφ, hsilent⟩

/-- A status that a leaseholder has seen, against the one in the row: nobody but the holder
takes a tenant out of NEW, and nobody but the holder takes it into PENDING or out of it. -/
structure Agrees (seen row : Status) : Prop where
  new : seen = .new → row = .new
  pending : seen = .pending → row = .pending
  not_pending : row = .pending → seen = .pending

/-- A status agrees with itself. -/
theorem Agrees.refl (a : Status) : Agrees a a := ⟨id, id, id⟩

/-- A move by another writer that neither starts from NEW or PENDING nor ends in PENDING. -/
theorem Agrees.move (h : Agrees x a) (hnew : a ≠ .new) (hpending : a ≠ .pending)
    (hto : b ≠ .pending) : Agrees x b where
  new hx := absurd (h.new hx) hnew
  pending hx := absurd (h.pending hx) hpending
  not_pending hb := absurd hb hto

/-- A status that agrees with the old one agrees with the one that the console moves it to. -/
theorem Agrees.console (h : Agrees x a) (hm : ConsoleMove a b) : Agrees x b := by
  cases hm <;> exact h.move nofun nofun nofun

/-- A status that agrees with the old one agrees with the one that the admin moves it to. -/
theorem Agrees.admin (h : Agrees x a) (hm : AdminMove a b) : Agrees x b := by
  obtain ⟨hmem, hne⟩ := hm
  have hnew : a ≠ .new := by
    rintro rfl
    exact hne (List.mem_singleton.mp hmem)
  have hpending : a ≠ .pending := by
    rintro rfl
    exact hne (List.mem_singleton.mp hmem)
  have hto : b ≠ .pending := by
    rintro rfl
    cases a <;> simp [statusTransitions] at hmem hpending
  exact h.move hnew hpending hto

/-- What a leaseholder has seen agrees with the row, as long as it is the owner. -/
def Tracked (t : SysTrace) (s : World) : Prop :=
  ∀ p k x a, phaseAt (protocol true) p t = .leased k (.read x) → s.leaseOwner k = some p →
    s.status k = some a → Agrees x a

/-- What an answer has told a leaseholder is the status of the row. -/
theorem status_of_tells (hm : Move machine (protocol maint) t s l s') (hidle : s.tx p = none)
    (h : Tells p pk x l) (hb : s'.status pk = some b) : b = x := by
  rcases h with ⟨row, rfl, rfl⟩ | ⟨expected, w, rfl, rfl⟩
  · obtain ⟨hans, _, hkept⟩ := hm.acts
    have hread : some row = s.tenantRow p pk := hans
    have hsame : s' = s := hkept
    rw [World.tenantRow, hidle] at hread
    rw [hsame] at hb
    exact Option.some.inj (hb.symm.trans (World.status_eq_some hread.symm))
  · obtain ⟨hans, _, rfl⟩ := hm.acts
    have hfence : s.fenceHolds p pk expected = true := hans.symm
    change (s.fencedCas p pk expected w).status pk = some b at hb
    rw [World.fencedCas, if_pos hfence, World.status] at hb
    simp only [Function.update_self, Option.map_map] at hb
    obtain ⟨row, _, hstatus⟩ := Option.map_eq_some_iff.mp hb
    exact hstatus.symm

/-- An owner that has made no attempt at the lease in this step was the owner before it. -/
theorem leaseOwner_before (hm : Move machine (protocol maint) t s l s')
    (hphase : phaseAt (protocol maint) p t = .leased k (.read x))
    (ho : s'.leaseOwner k = some p) : s.leaseOwner k = some p := by
  refine (leaseOwner_of_acts hm.acts ho).resolve_right ?_
  rintro ⟨r, rfl⟩
  have hp : (Phase.leased k (.read x)).permits maint (.leaseUpsert k) := hphase ▸ hm.permits
  exact Bool.noConfusion hp.1

/-- Under its lease a process has no transaction open. -/
theorem idle_of_leased {seen : Seen} (h : PhaseOk p s φ) (hφ : φ = .leased k seen) :
    s.tx p = none := by
  subst hφ
  exact Idle.tx h

/-- A status write that the leaseholder knows nothing of has changed nothing. -/
theorem kept_of_silent_cas {expected : List Status} {w : World.StatusWrite}
    {r : Except Exn Bool}
    (hm : Move machine (protocol true) t s (.answer p (.fencedCas k expected w) r) s')
    (hbefore : phaseAt (protocol true) p t = .leased k (.read x))
    (hafter : phaseAt (protocol true) p (⟨.answer p (.fencedCas k expected w) r, s, s'⟩ :: t) =
      .leased k (.read x))
    (hsilent : r ≠ .ok true) : s' = s := by
  rcases r with e | _ | _
  · rcases hm.acts.2 with hkept | ⟨hconn, _⟩
    · exact hkept
    · rw [phaseAt_answer_self, hbefore] at hafter
      change (if e.connError = true then Phase.leased k .unknown else _) = _ at hafter
      rw [if_pos hconn] at hafter
      cases hafter
  · obtain ⟨hans, _, rfl⟩ := hm.acts
    have hfence : s.fenceHolds p k expected = false := hans.symm
    change s.fencedCas p k expected w = s
    rw [World.fencedCas, if_neg (by rw [hfence]; exact Bool.false_ne_true)]
  · exact absurd rfl hsilent

private theorem tracked_of_move (hm : Move machine (protocol true) t s l s')
    (hphase : ∀ p, PhaseOk p s (phaseAt (protocol true) p t)) (hinv : Tracked t s) :
    Tracked (⟨l, s, s'⟩ :: t) s' := by
  intro p k x b hp ho hb
  rcases seen_of_move hm hp with ⟨⟨seen, hseen⟩, htells⟩ | ⟨hbefore, hsilent⟩
  · rw [status_of_tells hm (idle_of_leased (hphase p) hseen) htells hb]
    exact Agrees.refl x
  · have hs : s.leaseOwner k = some p := leaseOwner_before hm hbefore ho
    obtain ⟨a, ha, hstep⟩ := statusStep_of_move hm hphase hb
    have hagrees : Agrees x a := hinv p k x a hbefore hs ha
    cases hstep with
    | kept hsame => exact hsame ▸ hagrees
    | console q r _ hmove => exact hagrees.console hmove
    | admin q r _ _ hmove => exact hagrees.admin hmove
    | fenced q expected w r seen hlabel _ _ _ _ howner =>
      obtain rfl : q = p := Option.some.inj (howner.symm.trans hs)
      subst hlabel
      have hkept : s' = s := by
        refine kept_of_silent_cas hm hbefore hp ?_
        rintro rfl
        exact hsilent w.status (.inr ⟨expected, w, rfl, rfl⟩)
      rw [hkept] at hb
      exact Option.some.inj (ha.symm.trans hb) ▸ hagrees

/-- The latest answer that told `p` the status said `a`, and `p` has owned the lease since. -/
def SeenUnderLease (p : Pid) (pk : Pk) (a : Status) (t : SysTrace) : Prop :=
  ∃ mid told rest, t = mid ++ told :: rest ∧ Tells p pk a told.label ∧
    told.post.leaseOwner pk = some p ∧
    ∀ e ∈ mid, (∀ b, ¬ Tells p pk b e.label) ∧ e.post.leaseOwner pk = some p

private theorem seenUnderLease_of_move (hm : Move machine (protocol true) t s l s')
    (hinv : ∀ p k x, phaseAt (protocol true) p t = .leased k (.read x) →
      s.leaseOwner k = some p → SeenUnderLease p k x t)
    (hp : phaseAt (protocol true) p (⟨l, s, s'⟩ :: t) = .leased k (.read x))
    (ho : s'.leaseOwner k = some p) : SeenUnderLease p k x (⟨l, s, s'⟩ :: t) := by
  rcases seen_of_move hm hp with ⟨_, htells⟩ | ⟨hbefore, hsilent⟩
  · refine ⟨[], _, t, rfl, htells, ho, ?_⟩
    intro e he
    cases he
  · obtain ⟨mid, told, rest, rfl, htells, hown, hmid⟩ :=
      hinv p k x hbefore (leaseOwner_before hm hbefore ho)
    refine ⟨⟨l, s, s'⟩ :: mid, told, rest, rfl, htells, hown, ?_⟩
    rintro e (_ | ⟨_, he⟩)
    · exact ⟨hsilent, ho⟩
    · exact hmid e he

/-! ### What the admin has written -/

/-- How a transaction comes to have written a status move. -/
theorem written_of_move (hm : Move machine (protocol true) t s l s')
    (h : phaseAt (protocol true) p (⟨l, s, s'⟩ :: t) = .written pk (some (a, b))) :
    l = .answer p (.adminUpdate pk a b) (.ok true) ∨
      phaseAt (protocol true) p t = .written pk (some (a, b)) := by
  rcases phase_of_move p hm with ⟨hsame, _⟩ | hout | hnext
  · exact .inr (hsame.symm.trans h)
  · rw [hout] at h
    cases h
  · rw [h] at hnext
    cases hnext with
    | plain hψ => exact Bool.noConfusion hψ
    | moved pk old dest _ => exact .inl rfl
    | saved pk move hφ => exact .inr hφ

/-- A step with which `p` or a transaction of `p` begins or ends. -/
def Bounds (p : Pid) : SysLabel → Prop
  | .start q | .kill q | .answer q .begin _ | .answer q .commit _ | .answer q .rollback _ => q = p
  | _ => False

/-- Whatever `p` does in a part of the trace, it does in one transaction. -/
def SameTransaction (p : Pid) (t : SysTrace) : Prop := ∀ e ∈ t, ¬ Bounds p e.label

/-- The empty run is within one transaction. -/
theorem SameTransaction.nil (p : Pid) : SameTransaction p [] := fun _ he => absurd he List.not_mem_nil

/-- A step that neither begins nor ends a transaction stays within it. -/
theorem SameTransaction.cons {e : SysEntry} (h : SameTransaction p t) (he : ¬ Bounds p e.label) :
    SameTransaction p (e :: t) := List.forall_mem_cons.mpr ⟨he, h⟩

/-- The end of a transaction is a step of its process. -/
theorem Bounds.actor (h : Bounds p l) : l.actor = some p := by
  cases l with
  | start q => exact congrArg some h
  | kill q => exact congrArg some h
  | answer q op r =>
    cases op with
    | begin => exact congrArg some h
    | commit => exact congrArg some h
    | rollback => exact congrArg some h
    | _ => exact h.elim
  | inner q op => exact h.elim
  | env => exact h.elim

/-- A transaction that has written a row has neither just begun nor ended. -/
theorem not_bounds_of_written {move : Option (Status × Status)}
    (hm : Move machine (protocol true) t s l s')
    (h : phaseAt (protocol true) p (⟨l, s, s'⟩ :: t) = .written pk move) : ¬ Bounds p l := by
  intro hbounds
  cases hm.part p with
  | other hl _ => exact hl hbounds.actor
  | start _ hphase =>
    rw [hphase] at h
    cases h
  | inner op hl _ _ =>
    subst hl
    exact hbounds.elim
  | answer op r hl hphase _ _ =>
    subst hl
    rw [hphase] at h
    cases op with
    | begin => cases hφ : phaseAt (protocol true) p t <;> rw [hφ] at h <;> cases r <;> cases h
    | commit => cases hφ : phaseAt (protocol true) p t <;> rw [hφ] at h <;> cases r <;> cases h
    | rollback => cases hφ : phaseAt (protocol true) p t <;> rw [hφ] at h <;> cases r <;> cases h
    | _ => exact hbounds.elim
  | kill _ hphase _ =>
    rw [hphase] at h
    cases h

/-- The admin's conditional update from `a` to `b` was carried out in the open transaction of
`p`, and the committed status has been `a` since. -/
def UpdatedByAdmin (p : Pid) (pk : Pk) (a b : Status) (t : SysTrace) : Prop :=
  ∃ mid upd rest, t = mid ++ upd :: rest ∧
    upd.label = .answer p (.adminUpdate pk a b) (.ok true) ∧ upd.post.status pk = some a ∧
    SameTransaction p mid ∧ ∀ e ∈ mid, e.post.status pk = some a

/-- A row that was moved had the status that it was moved from. -/
theorem PhaseOk.status_of_written (h : PhaseOk p s φ) (hφ : φ = .written pk (some (a, b))) :
    s.status pk = some a := by
  subst hφ
  obtain ⟨tx, row, hwritten⟩ := h
  exact hwritten.moved.2.1

private theorem updatedByAdmin_of_move (hm : Move machine (protocol true) t s l s')
    (hphase : ∀ p, PhaseOk p s (phaseAt (protocol true) p t))
    (hinv : ∀ p pk a b, phaseAt (protocol true) p t = .written pk (some (a, b)) →
      UpdatedByAdmin p pk a b t)
    (h : phaseAt (protocol true) p (⟨l, s, s'⟩ :: t) = .written pk (some (a, b))) :
    UpdatedByAdmin p pk a b (⟨l, s, s'⟩ :: t) := by
  have hstatus : s'.status pk = some a := (phaseOk_of_move hphase hm p).status_of_written h
  rcases written_of_move hm h with rfl | hbefore
  · refine ⟨[], _, t, rfl, rfl, hstatus, .nil p, ?_⟩
    intro e he
    cases he
  · obtain ⟨mid, upd, rest, rfl, hlabel, hupd, hsame, hmid⟩ := hinv p pk a b hbefore
    refine ⟨⟨l, s, s'⟩ :: mid, upd, rest, rfl, hlabel, hupd,
      hsame.cons (not_bounds_of_written hm h), ?_⟩
    rintro e (_ | ⟨_, he⟩)
    · exact hstatus
    · exact hmid e he

/-! ### The state machine -/

/-- The status changes of the migrator. -/
inductive MigratorEdge : Status → Status → Prop
  | claim : MigratorEdge .new .pending
  | foreignSchema : MigratorEdge .new .failed
  | provisioned : MigratorEdge .pending .active
  | provisionFailed : MigratorEdge .pending .failed
  | schemaMissing {st : Status} : st = .active ∨ st = .deactivated → MigratorEdge st .failed

/-- A fenced write on what the leaseholder has seen changes the status along an edge of the
migrator, from the status that was seen. -/
theorem CasAllowed.edge {expected : List Status} (h : CasAllowed x expected b)
    (hagrees : Agrees x a) (hfound : a ∈ expected) (hne : a ≠ b) : a = x ∧ MigratorEdge a b := by
  cases h with
  | foreignSchema =>
    obtain rfl := List.mem_singleton.mp hfound
    exact ⟨rfl, .foreignSchema⟩
  | claim hx =>
    rcases List.mem_cons.mp hx with rfl | hx
    · obtain rfl := hagrees.new rfl
      exact ⟨rfl, .claim⟩
    · obtain rfl := List.mem_singleton.mp hx
      exact absurd (hagrees.pending rfl) hne
  | provisioned =>
    obtain rfl := List.mem_singleton.mp hfound
    exact ⟨rfl, .provisioned⟩
  | provisionFailed hx =>
    obtain rfl := List.mem_singleton.mp hfound
    exact ⟨(hagrees.not_pending rfl).symm, .provisionFailed⟩
  | schemaMissing hx =>
    obtain rfl := List.mem_singleton.mp hfound
    refine ⟨rfl, .schemaMissing ?_⟩
    rcases List.mem_cons.mp hx with hx | hx
    · exact .inl hx
    · exact .inr (List.mem_singleton.mp hx)

/-- The committed changes of a status: who makes them, and what they start from. -/
inductive StatusMove (earlier : SysTrace) (pk : Pk) (l : SysLabel) (a b : Status) : Prop
  /-- By the migrator, from the status that it has read or written itself under its lease. -/
  | migrator (p : Pid) (expected : List Status) (w : World.StatusWrite) (r : Except Exn Bool)
      (label : l = .answer p (.fencedCas pk expected w) r) (edge : MigratorEdge a b)
      (seen : SeenUnderLease p pk a earlier)
  /-- By the console, from the action's `from_status`. -/
  | console (p : Pid) (r : Except Exn Bool) (label : l = .answer p (.consoleUpdate pk a b) r)
      (edge : ConsoleMove a b)
  /-- By the admin, from the expected status, held since its update. -/
  | admin (p : Pid) (r : Except Exn Unit) (label : l = .answer p .commit r)
      (edge : AdminMove a b) (updated : UpdatedByAdmin p pk a b earlier)

/-- What is known of every trace of a run. -/
structure Known (t : SysTrace) (s : World) : Prop where
  phase : ∀ p, PhaseOk p s (phaseAt (protocol true) p t)
  tracked : Tracked t s
  seen : ∀ p k x, phaseAt (protocol true) p t = .leased k (.read x) → s.leaseOwner k = some p →
    SeenUnderLease p k x t
  updated : ∀ p pk a b, phaseAt (protocol true) p t = .written pk (some (a, b)) →
    UpdatedByAdmin p pk a b t

/-- In every run the statuses that were seen are known. -/
theorem known_of_run {s₀ : World} {c : SysConfig} (h : SysRun s₀ t c) : Known t c.shared := by
  refine Run.invariant system_follows Known ?_ ?_ h.2
  · refine ⟨fun p => h.1.idle p, ?_, ?_, ?_⟩
    · intro p k x a hp
      cases hp
    · intro p k x hp
      cases hp
    · intro p pk a b hp
      cases hp
  · intro t s l s' hknown hm
    exact ⟨phaseOk_of_move hknown.phase hm, tracked_of_move hm hknown.phase hknown.tracked,
      fun p k x => seenUnderLease_of_move hm hknown.seen,
      fun p pk a b => updatedByAdmin_of_move hm hknown.phase hknown.updated⟩

/-- Every committed change of a status is an edge of its writer, from the value that the
writer's condition names; MAINTENANCE is entered and left by the admin only. -/
theorem status_changes_are_moves {s₀ : World} {c : SysConfig} {later earlier : SysTrace}
    {e : SysEntry} (h : SysRun s₀ (later ++ e :: earlier) c) (ha : e.pre.status pk = some a)
    (hb : e.post.status pk = some b) (hne : a ≠ b) :
    StatusMove earlier pk e.label a b ∧
      (a = .maintenance ∨ b = .maintenance →
        ∃ p r, e.label = .answer p .commit r ∧ AdminMove a b) := by
  obtain ⟨c₁, c₂, hrun, hstep, hpre, hpost⟩ := h.2.split
  have hknown : Known earlier c₁.shared := known_of_run ⟨h.1, hrun⟩
  rw [hpre] at ha
  rw [hpost] at hb
  obtain ⟨a', ha', hmove⟩ :=
    statusStep_of_move (hrun.move system_follows hstep) hknown.phase hb
  obtain rfl : a = a' := Option.some.inj (ha.symm.trans ha')
  cases hmove with
  | kept hsame => exact absurd hsame hne
  | fenced p expected w r seen hlabel hseen hallowed hfound hto howner =>
    rw [← hto] at hallowed
    have hagrees : Agrees seen a := hknown.tracked p pk seen a hseen howner ha
    obtain ⟨rfl, hedge⟩ := hallowed.edge hagrees hfound hne
    refine ⟨.migrator p expected w r hlabel hedge (hknown.seen p pk a hseen howner), ?_⟩
    intro hmaint
    rcases hmaint with hmaint | hmaint
    · rw [hmaint] at hedge
      cases hedge with
      | schemaMissing hst => rcases hst with hst | hst <;> cases hst
    · rw [hmaint] at hedge
      cases hedge
  | console p r hlabel hedge =>
    refine ⟨.console p r hlabel hedge, ?_⟩
    intro hmaint
    cases hedge <;> rcases hmaint with hmaint | hmaint <;> cases hmaint
  | admin p r hlabel hphase hedge =>
    exact ⟨.admin p r hlabel hedge (hknown.updated p pk a b hphase), fun _ => ⟨p, r, hlabel, hedge⟩⟩

end MtShards.Migrator
