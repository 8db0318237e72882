import MtShards.Models.Migrator.Maintenance
import MtShards.Models.Migrator.Sessions

/-!
# What the admin form looks at before MAINTENANCE

`TenantAdminForm.clean` asks for the holder of the lease. It asks for a working backend only
when there is a holder, and its lease has expired; a free lease passes unseen. So a tenant can
enter MAINTENANCE over the migration of a process that has lost its connection and given its
lease back, and in no other way over a busy backend.
-/

namespace MtShards.Migrator

open MtShards.Core

variable {k pk : Pk} {p q : Pid} {t : SysTrace} {s s' : World} {l : SysLabel}

/-! ### Programs without transaction -/

section Only

variable {α β : Type} {row : Tenant} {opts : RunOptions} {c : Target}

/-- The requests that neither open a transaction nor belong to one. -/
def Req.single (op : Req) : Prop := op.transacts = false

/-- A request of no transaction stands alone. -/
theorem only_single {op : Req} (h : op.transacts = false) : (call op).Only Req.single :=
  ⟨h, fun _ => trivial⟩

/-- A program that only looks makes requests that stand alone. -/
theorem looks_single {x : Prog α} (hx : x.Only Req.looks) : x.Only Req.single := by
  refine hx.mono fun op hop => ?_
  cases op with
  | load pk => rfl
  | leaseHolder k => rfl
  | codeOlderThanDb => rfl
  | shard a r => rfl
  | closeShard a => rfl
  | _ => exact hop.elim

/-- The requests of a migrator stand alone. -/
theorem Req.single_of_migrates {A : Alias → Prop} {op : Req} (h : op.migrates pk A) :
    op.single := by
  cases op with
  | begin => exact h.elim
  | commit => exact h.elim
  | rollback => exact h.elim
  | insertLease k => exact h.elim
  | lockLease k => exact h.elim
  | adminUpdate k old dest => exact h.elim
  | saveTenant k ch stamp => exact h.elim
  | _ => rfl

/-- A migrator makes only requests that stand alone. -/
theorem migrateTenant_single (pk : Pk) (opts : RunOptions) :
    (migrateTenant pk opts).Only Req.single :=
  (migrateTenant_migrates pk opts).mono fun _ => Req.single_of_migrates

/-- The `UPDATE` of a console transition stands alone. -/
theorem transitionUpdate_single (source dest : Status) :
    (transitionUpdate pk row source dest).Only Req.single := by
  refine (only_single rfl).bind fun updated => ?_
  split
  · exact (only_single rfl).bind fun _ => (only_single rfl).bind fun _ => trivial
  · trivial

/-- A console transition makes only requests that stand alone. -/
theorem transition_single (source dest : Status) (stopper : Bool) :
    (transition pk source dest stopper).Only Req.single := by
  refine (only_single rfl).bind fun found => ?_
  cases found with
  | none => trivial
  | some row =>
    dsimp only
    split
    · trivial
    · split
      · trivial
      · split
        · refine (looks_single (checkReactivation_looks row)).bind fun b => ?_
          cases b with
          | some b => trivial
          | none => exact transitionUpdate_single source dest
        · exact transitionUpdate_single source dest

/-- The release command makes only requests that stand alone. -/
theorem releaseCommand_single (label : String) (aliases : List Alias) (force : Bool) :
    (releaseCommand k label aliases force).Only Req.single :=
  releaseCommand_only label aliases force rfl (fun _ _ => rfl) fun _ => rfl

end Only

/-! ### The form -/

/-- What a change view has looked at. -/
inductive Form
  | closed
  | opened
  /-- The row it has loaded. -/
  | loaded (pk : Pk) (row : Tenant)
  /-- The lease has a holder, and it has expired. -/
  | expired (pk : Pk) (row : Tenant)
  /-- Nothing stands against MAINTENANCE. -/
  | passed (pk : Pk) (row : Tenant)
  /-- MAINTENANCE is out of reach. -/
  | spoiled
  deriving DecidableEq, Repr

/-- After an answer to a change view that has loaded the row. -/
def Form.loadedNext (pk : Pk) (row : Tenant) : (op : Req) → Except Exn op.Ans → Form
  | .leaseHolder k, .ok holder =>
    if k = pk then
      match holder with
      | none => .passed pk row
      | some h => if h.expired then .expired pk row else .spoiled
    else .spoiled
  | _, _ => .spoiled

/-- After an answer to a change view that has found an expired lease. -/
def Form.expiredNext (pk : Pk) (row : Tenant) : (op : Req) → Except Exn op.Ans → Form
  | .shard a (.sessionActive k), .ok busy =>
    if k = pk ∧ a = row.shard.dbAlias ∧ busy.isNone then .passed pk row else .spoiled
  | _, _ => .spoiled

/-- The requests with which a change is saved. -/
def Req.saves : Req → Bool
  | insertLease _ | lockLease _ | adminUpdate _ _ _ | saveTenant _ _ _ => true
  | _ => false

/-- A move to MAINTENANCE is written only after the form has passed. -/
def form : Protocol Req Req.Ans Exn Form where
  init := .closed
  permits
    | φ, .adminUpdate pk _ .maintenance => ∃ row, φ = .passed pk row
    | _, _ => True
  next
    | .closed, .begin, .ok _ => .opened
    | .closed, _, _ => .closed
    | .opened, .load pk, .ok (some row) => .loaded pk row
    | .loaded pk row, op, r => Form.loadedNext pk row op r
    | .expired pk row, op, r => Form.expiredNext pk row op r
    | .passed pk row, op, _ => if op.saves then .passed pk row else .spoiled
    | _, _, _ => .spoiled
  mayStop _ := True
  mayStop_init := trivial

section Form

variable {α : Type} {x : Prog α} {φ : Form}

/-- A request other than a move to MAINTENANCE is permitted at any time. -/
theorem form_permits {op : Req} (h : ∀ pk old, op ≠ .adminUpdate pk old .maintenance) :
    form.permits φ op := by
  cases op with
  | adminUpdate pk old dest =>
    cases dest with
    | maintenance => exact absurd rfl (h pk old)
    | _ => trivial
  | _ => trivial

/-- A program that moves nothing to MAINTENANCE may be run at any time. -/
theorem only_form (hx : x.Only fun op => ∀ pk old, op ≠ .adminUpdate pk old .maintenance) :
    x.Follows form φ fun _ _ => True := by
  induction x generalizing φ with
  | done r => trivial
  | call op k ih => exact ⟨form_permits hx.1, fun r => ih r (hx.2 r)⟩

/-- Requests that stand alone follow the form from everywhere. -/
theorem single_form (hx : x.Only Req.single) : x.Follows form φ fun _ _ => True := by
  refine only_form (hx.mono fun op hop => ?_)
  rintro pk old rfl
  exact Bool.noConfusion hop

/-- What the form has looked at when it lets a change pass. -/
def FormPassed (pk : Pk) (row : Tenant) (dest : Status) (φ : Form)
    (r : Except Exn (Option FormError)) : Prop :=
  r = .ok none → dest = .maintenance → φ = .passed pk row

private theorem cleanMaintenance_form (pk : Pk) (row : Tenant) :
    (cleanMaintenance pk row).Follows form (.loaded pk row) (FormPassed pk row .maintenance) := by
  refine ⟨trivial, fun r => ?_⟩
  match r with
  | .error e => exact nofun
  | .ok none => exact fun _ _ => if_pos rfl
  | .ok (some h) =>
    change Program.Follows form (if h.expired = true then _ else _)
      (if pk = pk then (if h.expired = true then Form.expired pk row else .spoiled) else _) _
    rw [if_pos rfl]
    cases h.expired with
    | true =>
      refine ⟨trivial, fun r' => ?_⟩
      match r' with
      | .error e => exact nofun
      | .ok none => exact fun _ _ => if_pos ⟨rfl, rfl, rfl⟩
      | .ok (some busy) => exact nofun
    | false => exact nofun

private theorem cleanTarget_form (pk : Pk) (row : Tenant) (old dest : Status) :
    (cleanTarget pk row old dest).Follows form (.loaded pk row) (FormPassed pk row dest) := by
  rw [cleanTarget]
  split
  · rename_i hto
    subst hto
    refine (single_form (looks_single ?_)).mono fun φ r _ _ hmaint => by cases hmaint
    exact (checkReactivation_looks row).bind fun b => trivial
  · split
    · rename_i hto
      subst hto
      exact cleanMaintenance_form pk row
    · rename_i hto
      exact fun _ hmaint => absurd hmaint hto

private theorem cleanChange_form (sub : Submission) (row : Tenant) (old dest : Status) :
    (cleanChange sub row old dest).Follows form (.loaded sub.pk row)
      (FormPassed sub.pk row dest) := by
  rw [cleanChange]
  split
  · intro hok
    cases hok
  · rw [Program.follows_bind]
    refine (cleanTarget_form sub.pk row old dest).mono fun φ r hr => ?_
    cases r with
    | error e =>
      intro hok
      cases hok
    | ok refused =>
      cases refused with
      | some e =>
        intro hok
        cases hok
      | none => exact fun _ => hr rfl

/-- A form without errors has passed, if it asks for MAINTENANCE. -/
theorem clean_form (sub : Submission) (row : Tenant) :
    (clean sub row).Follows form (.loaded sub.pk row) fun φ r => r = .ok none →
      ∀ dest, sub.newStatus (sub.oldStatus row) = some dest → dest ≠ sub.oldStatus row →
        dest = .maintenance → φ = .passed sub.pk row := by
  rw [clean]
  cases hnew : sub.newStatus (sub.oldStatus row) with
  | none =>
    intro _ to' hto
    cases hto
  | some dest =>
    dsimp only
    split
    · rename_i hsame
      intro _ to' hto hne
      obtain rfl := Option.some.inj hto
      exact absurd hsame hne
    · refine (cleanChange_form sub row _ dest).mono fun φ r hr hok to' hto _ hmaint => ?_
      obtain rfl := Option.some.inj hto
      exact hr hok hmaint

/-- A form that has passed stays so while it is saved. -/
theorem passed_saves {row : Tenant} {op : Req} (h : op.saves = true) (r : Except Exn op.Ans) :
    form.next (.passed pk row) op r = .passed pk row := by
  change (if op.saves = true then Form.passed pk row else .spoiled) = _
  rw [if_pos h]

private theorem saveStatus_form (row : Tenant) {old dest : Status}
    (hφ : dest ≠ old → dest = .maintenance → φ = .passed pk row) :
    (saveStatus pk row old dest).Follows form φ fun _ _ => True := by
  rw [saveStatus]
  split
  · rename_i hne
    by_cases hm : dest = .maintenance
    · obtain rfl := hφ hne hm
      subst hm
      have hwrite : ∀ r, (do
          let updated : Bool ← call (.adminUpdate pk old .maintenance)
          if updated then Pure.pure 1 else Program.raise (statusMoved row old) : Prog Nat).Follows
            form (form.next (.passed pk row) (.lockLease pk) r) fun _ _ => True := by
        intro r
        rw [passed_saves rfl]
        refine ⟨⟨row, rfl⟩, fun r' => only_form ?_⟩
        cases r' with
        | error e => trivial
        | ok updated => cases updated <;> trivial
      change Program.Follows form (refuseIfMigrating pk row .maintenance >>= _) _ _
      rw [refuseIfMigrating, if_pos rfl]
      refine ⟨trivial, fun r => ?_⟩
      rw [passed_saves rfl]
      cases r with
      | error e => trivial
      | ok _ =>
        refine ⟨trivial, fun r' => ?_⟩
        cases r' with
        | error e => trivial
        | ok holder =>
          cases holder with
          | some h => trivial
          | none => exact hwrite _
    · refine only_form (Program.Only.bind ?_ fun _ => ?_)
      · rw [refuseIfMigrating, if_neg hm]
        trivial
      · refine Program.Only.bind ⟨?_, fun _ => trivial⟩ fun updated => ?_
        · rintro pk' old' h
          cases h
          exact hm rfl
        · split <;> trivial
  · trivial

private theorem saveModel_form (sub : Submission) (row : Tenant) {old dest : Status}
    (hφ : dest ≠ old → dest = .maintenance → φ = .passed sub.pk row) :
    (saveModel sub row old dest).Follows form φ fun _ _ => True := by
  rw [saveModel, Program.follows_bind]
  refine (saveStatus_form row hφ).mono fun φ' r _ => ?_
  cases r with
  | error e => trivial
  | ok forgets =>
    refine only_form ?_
    split
    · trivial
    · refine Program.Only.bind ?_ fun _ => trivial
      refine Program.Only.bind ⟨(fun _ _ h => by cases h), fun _ => trivial⟩ fun found => ?_
      split <;> trivial

private theorem adminBody_form (sub : Submission) :
    (adminBody sub).Follows form .opened fun _ _ => True := by
  refine ⟨trivial, fun r => ?_⟩
  match r with
  | .error e => trivial
  | .ok none => trivial
  | .ok (some row) =>
    change Program.Follows form (clean sub row >>= _) (Form.loaded sub.pk row) _
    rw [Program.follows_bind]
    refine (clean_form sub row).mono fun φ r hr => ?_
    match r with
    | .error e => trivial
    | .ok (some e) => trivial
    | .ok none =>
      rw [Program.onOutcome_ok]
      dsimp only
      split
      · trivial
      · cases hnew : sub.newStatus (sub.oldStatus row) with
        | none => trivial
        | some dest =>
          change Program.Follows form (saveModel sub row _ dest >>= _) φ _
          rw [Program.follows_bind]
          refine (saveModel_form sub row (hr rfl dest hnew)).mono fun φ' r' _ => ?_
          cases r' <;> trivial

private theorem adminChange_form (sub : Submission) :
    (adminChange sub).Follows form .closed fun _ _ => True := by
  refine ⟨trivial, fun r => ?_⟩
  cases r with
  | error e => trivial
  | ok _ =>
    change Program.Follows form ((adminBody sub).attempt >>= _) Form.opened _
    rw [Program.follows_bind, Program.follows_attempt]
    refine (adminBody_form sub).mono fun φ r _ => only_form ?_
    cases r with
    | ok outcome =>
      refine Program.Only.bind ⟨nofun, fun _ => trivial⟩ fun _ => ?_
      exact (forgetTimes_only nofun _).bind fun _ => trivial
    | error e =>
      refine Program.Only.bind ⟨nofun, fun _ => trivial⟩ fun _ => ?_
      split <;> trivial

private theorem serializerUpdate_form (pk : Pk) (ch : World.Changes) :
    (serializerUpdate pk ch).Follows form .closed fun _ _ => True := by
  refine only_form (Program.Only.bind ⟨nofun, fun _ => trivial⟩ fun found => ?_)
  cases found with
  | none => trivial
  | some row =>
    dsimp only
    split
    · trivial
    · refine Program.Only.bind ⟨nofun, fun _ => trivial⟩ fun _ => ?_
      refine Program.Only.bind (Program.Only.attempt ?_) fun r => ?_
      · refine Program.Only.bind ⟨nofun, fun _ => trivial⟩ fun saved => ?_
        split <;> trivial
      · cases r with
        | ok _ => exact Program.Only.bind ⟨nofun, fun _ => trivial⟩ fun _ => ⟨nofun, fun _ => trivial⟩
        | error e => exact Program.Only.bind ⟨nofun, fun _ => trivial⟩ fun _ => trivial

/-- Every program of the system moves a tenant to MAINTENANCE only after its form has passed. -/
theorem system_form : AllFollow form (fun _ : Pid => Starts true) := by
  intro p prog h
  cases h with
  | migrate pk opts _ => exact (single_form (migrateTenant_single pk opts)).void
  | activate pk => exact (single_form (transition_single _ _ _)).void
  | deactivate pk => exact (single_form (transition_single _ _ _)).void
  | adminChange sub => exact (adminChange_form sub).void
  | serializerUpdate pk ch => exact serializerUpdate_form pk ch
  | releaseCommand k label aliases force =>
    exact (single_form (releaseCommand_single label aliases force)).void

end Form

/-! ### The form in a run -/

/-- `q` has loaded the row, in the transaction that it is in. -/
def LoadedIn (q : Pid) (pk : Pk) (row : Tenant) (t : SysTrace) : Prop :=
  ∃ mid load rest, t = mid ++ load :: rest ∧ load.label = .answer q (.load pk) (.ok (some row)) ∧
    SameTransaction q mid

/-- The step with which the form of `q` lets MAINTENANCE pass: the lease was found free, or no
session was found on the alias. -/
def LetsPass (q : Pid) (pk : Pk) (a : Alias) (l : SysLabel) : Prop :=
  l = .answer q (.leaseHolder pk) (.ok none) ∨
    l = .answer q (.shard a (.sessionActive pk)) (.ok none)

/-- `v` is the step at which the form of `q` was validated, in the transaction that `q` is in: the
row had been loaded before it, and only the save has followed. -/
def ValidatedAt (q : Pid) (pk : Pk) (row : Tenant) (v : SysEntry) (t : SysTrace) : Prop :=
  ∃ mid rest, t = mid ++ v :: rest ∧ LetsPass q pk row.shard.dbAlias v.label ∧
    LoadedIn q pk row rest ∧ SameTransaction q mid ∧
    ∀ e ∈ mid, ∀ op r, e.label = .answer q op r → op.saves = true

/-- What a form has looked at is in the trace. -/
def FormKnown (q : Pid) (t : SysTrace) : Form → Prop
  | .loaded pk row | .expired pk row => LoadedIn q pk row t
  | .passed pk row => ∃ v, ValidatedAt q pk row v t
  | _ => True

/-- A row that was loaded in a transaction stays so until the transaction ends. -/
theorem LoadedIn.cons {row : Tenant} {e : SysEntry} (h : LoadedIn q pk row t)
    (hb : ¬ Bounds q e.label) : LoadedIn q pk row (e :: t) := by
  obtain ⟨mid, load, rest, rfl, hl, hsame⟩ := h
  exact ⟨e :: mid, load, rest, rfl, hl, hsame.cons hb⟩

/-- A form that was validated stays so while it is saved. -/
theorem ValidatedAt.cons {row : Tenant} {v e : SysEntry} (h : ValidatedAt q pk row v t)
    (hb : ¬ Bounds q e.label) (he : ∀ op r, e.label = .answer q op r → op.saves = true) :
    ValidatedAt q pk row v (e :: t) := by
  obtain ⟨mid, rest, rfl, hpass, hloaded, hsame, hmid⟩ := h
  exact ⟨e :: mid, rest, rfl, hpass, hloaded, hsame.cons hb, List.forall_mem_cons.mpr ⟨he, hmid⟩⟩

/-- What is known of a form stays known while it is saved. -/
theorem FormKnown.cons {φ : Form} {e : SysEntry} (h : FormKnown q t φ) (hb : ¬ Bounds q e.label)
    (he : ∀ op r, e.label = .answer q op r → op.saves = true) : FormKnown q (e :: t) φ := by
  cases φ with
  | loaded pk row => exact LoadedIn.cons h hb
  | expired pk row => exact LoadedIn.cons h hb
  | passed pk row => exact h.imp fun v hv => hv.cons hb he
  | _ => trivial

private theorem formKnown_loadedNext {row : Tenant} {op : Req} {r : Except Exn op.Ans}
    (h : LoadedIn q pk row t) :
    FormKnown q (⟨.answer q op r, s, s'⟩ :: t) (Form.loadedNext pk row op r) := by
  unfold Form.loadedNext
  split
  · rename_i k holder
    split
    · rename_i hk
      subst hk
      cases holder with
      | none => exact ⟨_, [], t, rfl, .inl rfl, h, .nil q, fun e he => absurd he List.not_mem_nil⟩
      | some held =>
        dsimp only
        split
        · exact h.cons not_false
        · trivial
    · trivial
  · trivial

private theorem formKnown_expiredNext {row : Tenant} {op : Req} {r : Except Exn op.Ans}
    (h : LoadedIn q pk row t) :
    FormKnown q (⟨.answer q op r, s, s'⟩ :: t) (Form.expiredNext pk row op r) := by
  unfold Form.expiredNext
  split
  · rename_i a k busy
    split
    · rename_i hpass
      obtain ⟨rfl, rfl, hbusy⟩ := hpass
      obtain rfl := Option.isNone_iff_eq_none.mp hbusy
      exact ⟨_, [], t, rfl, .inr rfl, h, .nil q, fun e he => absurd he List.not_mem_nil⟩
    · trivial
  · trivial

private theorem formKnown_next {op : Req} {r : Except Exn op.Ans} {φ : Form} (h : FormKnown q t φ) :
    FormKnown q (⟨.answer q op r, s, s'⟩ :: t) (form.next φ op r) := by
  cases φ with
  | closed =>
    cases op with
    | begin => cases r <;> trivial
    | _ => trivial
  | opened =>
    cases op with
    | load pk =>
      match r with
      | .ok (some row) => exact ⟨[], _, t, rfl, rfl, .nil q⟩
      | .ok none => trivial
      | .error e => trivial
    | _ => trivial
  | loaded pk row => exact formKnown_loadedNext h
  | expired pk row => exact formKnown_expiredNext h
  | passed pk row =>
    change FormKnown q _ (if op.saves = true then Form.passed pk row else .spoiled)
    split
    · rename_i hsaves
      refine FormKnown.cons h (fun hb => ?_) ?_
      · cases op with
        | begin | commit | rollback => cases hsaves
        | _ => exact hb
      · intro op' r' hl
        cases hl
        exact hsaves
    · trivial
  | spoiled => trivial

private theorem formKnown_of_run {s₀ : World} {c : SysConfig} (h : SysRun s₀ t c) (q : Pid) :
    FormKnown q t (phaseAt form q t) := by
  refine Run.invariant system_form (fun t _ => ∀ q, FormKnown q t (phaseAt form q t)) ?_ ?_ h.2 q
  · exact fun q => trivial
  · intro t s l s' hinv hm q
    cases hm.part q with
    | other hl hphase =>
      rw [hphase]
      refine (hinv q).cons (fun hb => hl hb.actor) ?_
      rintro op r rfl
      exact absurd rfl hl
    | start _ hphase =>
      rw [hphase]
      trivial
    | inner op hl hphase =>
      subst hl
      rw [hphase]
      refine (hinv q).cons not_false ?_
      intro op r hl
      cases hl
    | answer op r hl hphase _ _ =>
      subst hl
      rw [hphase]
      exact formKnown_next (hinv q)
    | kill _ hphase =>
      rw [hphase]
      trivial

/-! ### MAINTENANCE over a busy backend -/

/-- The holder of a lease is asked for outside of a transaction, or by one that has written
nothing. -/
theorem leaseOwner_none_of_holder {maint : Bool} {φ : Phase} (hok : PhaseOk q s φ)
    (hp : φ.permits maint (.leaseHolder k)) (h : s.leaseHolder q k = none) :
    s.leaseOwner k = none := by
  have hrow : s.leaseRow q k = s.lease k := by
    have hidle : Idle q s → s.leaseRow q k = s.lease k := by
      intro hidle
      rw [World.leaseRow, hidle.tx]
    cases φ with
    | out => exact hidle hok
    | bystander => exact hidle hok
    | tx =>
      obtain ⟨tx, htx⟩ := hok
      exact World.leaseRow_of_tx htx.tx htx.inserted
    | checked k' a => cases hp
    | leased k' seen => exact Bool.noConfusion hp.1
    | lost => rcases hp with hp | hp <;> cases hp
    | inserted k' => rcases hp with hp | hp <;> cases hp
    | free k' => rcases hp with hp | ⟨old, hp, _⟩ <;> cases hp
    | written pk move => rcases hp with hp | hp | ⟨c, hp⟩ <;> cases hp
    | doomed => cases hp
  rw [World.leaseHolder, hrow, Option.map_eq_none_iff] at h
  rw [World.leaseOwner, h]
  rfl

/-- A form that was validated against a free lease has not looked at the shard; any other has
found no busy backend there. -/
theorem not_busy_iff {row : Tenant} {v : SysEntry} {s₀ : World} {c : SysConfig}
    (h : SysRun s₀ t c) (hv : ValidatedAt q pk row v t) :
    ¬ v.pre.Busy q row.shard.dbAlias pk ↔
      ¬ (v.pre.leaseOwner pk = none ∧ v.pre.Busy q row.shard.dbAlias pk) := by
  obtain ⟨mid, rest, rfl, hpass, _⟩ := hv
  obtain ⟨c₁, c₂, hrun, hstep, hpre, _⟩ := h.2.split
  have hmove := hrun.move system_follows hstep
  refine ⟨fun hno hboth => hno hboth.2, fun hno hbusy => ?_⟩
  rcases hpass with hlabel | hlabel
  · rw [hlabel] at hmove
    have hnone : none = c₁.shared.leaseHolder q pk := hmove.acts.1
    have howner : c₁.shared.leaseOwner pk = none :=
      leaseOwner_none_of_holder (Run.phaseOk system_follows h.1 hrun q) hmove.permits hnone.symm
    exact hno ⟨hpre ▸ howner, hbusy⟩
  · rw [hlabel] at hmove
    have hans : Option.isSome none ↔ c₁.shared.Busy q row.shard.dbAlias pk := hmove.acts.1
    rw [hpre] at hbusy
    exact absurd (hans.mpr hbusy) nofun

/-- The form and the save of `q` have let MAINTENANCE through, in the transaction that `q` is in:
the form was validated at `v`, then the status was written. -/
def LetThrough (q : Pid) (pk : Pk) (row : Tenant) (v : SysEntry) (t : SysTrace) : Prop :=
  ∃ mid upd rest old, t = mid ++ upd :: rest ∧
    upd.label = .answer q (.adminUpdate pk old .maintenance) (.ok true) ∧ SameTransaction q mid ∧
    ValidatedAt q pk row v rest

/-- Whenever MAINTENANCE is committed, no other session labelled `tm:<pk>` was busy on the
shard of the tenant when the form was validated in that transaction. -/
def EntersOverIdle (t : SysTrace) : Prop :=
  ∀ later e earlier, t = later ++ e :: earlier → ∀ pk, e.pre.status pk ≠ some .maintenance →
    e.post.status pk = some .maintenance →
      ∃ q r row v, e.label = .answer q .commit r ∧ LetThrough q pk row v earlier ∧
        ¬ v.pre.Busy q row.shard.dbAlias pk

/-- Whenever MAINTENANCE is committed, a form was validated in that transaction; the shard was idle
then exactly if the lease was not free over a busy backend. -/
theorem maintenance_over_idle_iff {s₀ : World} {c : SysConfig} {later earlier : SysTrace}
    {e : SysEntry} (h : SysRun s₀ (later ++ e :: earlier) c)
    (hbefore : e.pre.status pk ≠ some .maintenance)
    (hafter : e.post.status pk = some .maintenance) :
    ∃ q r row v, e.label = .answer q .commit r ∧ LetThrough q pk row v earlier ∧
      (¬ v.pre.Busy q row.shard.dbAlias pk ↔
        ¬ (v.pre.leaseOwner pk = none ∧ v.pre.Busy q row.shard.dbAlias pk)) := by
  obtain ⟨c₁, c₂, hrun, hstep, hpre, hpost⟩ := h.2.split
  rw [hpre] at hbefore
  rw [hpost] at hafter
  have hknown : Known earlier c₁.shared := known_of_run ⟨h.1, hrun⟩
  obtain ⟨a, ha, hmove⟩ :=
    statusStep_of_move (hrun.move system_follows hstep) hknown.phase hafter
  have hne : a ≠ .maintenance := by
    rintro rfl
    exact hbefore ha
  obtain ⟨q, r, hcommit, hwritten⟩ := hmove.admin_of_maintenance hne
  obtain ⟨mid, upd, rest, rfl, hupd, _, hsame, _⟩ := hknown.updated q pk a .maintenance hwritten
  obtain ⟨c₃, c₄, hrest, hupdate, _, _⟩ := hrun.split
  rw [hupd] at hupdate
  obtain ⟨row, hpassed⟩ := (hrest.move system_form hupdate).permits
  have hform := formKnown_of_run ⟨h.1, hrest⟩ q
  rw [hpassed] at hform
  obtain ⟨v, hv⟩ := hform
  exact ⟨q, r, row, v, hcommit, ⟨mid, upd, rest, a, rfl, hupd, hsame, hv⟩,
    not_busy_iff ⟨h.1, hrest⟩ hv⟩

/-- The admin moves a tenant to MAINTENANCE. -/
theorem enter_run : ∃ e earlier c,
    Run machine (fun _ => Starts true) (.idle (oneTenant acmeActive)) ([] ++ e :: earlier) c ∧
      e.pre.status 1 = some .active ∧ e.post.status 1 = some .maintenance := by
  have r0 : Run machine (fun _ => Starts true) (.idle (oneTenant acmeActive)) []
    (.idle (oneTenant acmeActive)) := .nil
  have r1 := r0.start "web-1:10" (.adminChange toMaintenance) rfl
  have r2 := r1.answer "web-1:10" .begin (.ok ()) ⟨trivial, rfl, rfl⟩ rfl
  have r3 := r2.answer "web-1:10" (.load 1) (.ok (some acmeActive)) ⟨rfl, rfl, rfl⟩ rfl
  have r4 := r3.answer "web-1:10" (.leaseHolder 1) (.ok none) ⟨rfl, rfl, rfl⟩ rfl
  have r5 := r4.answer "web-1:10" (.insertLease 1) (.ok ()) ⟨trivial, rfl, rfl⟩ rfl
  have r6 := r5.answer "web-1:10" (.lockLease 1) (.ok none) ⟨rfl, rfl, rfl⟩ rfl
  have r7 := r6.answer "web-1:10" (.adminUpdate 1 .active .maintenance) (.ok true)
    ⟨rfl, rfl, rfl⟩ rfl
  have r8 := r7.answer "web-1:10" .commit (.ok ()) ⟨trivial, rfl, rfl⟩ rfl
  exact ⟨_, _, _, r8, rfl, rfl⟩

/-- A tenant enters MAINTENANCE with a free lease and nothing running. -/
theorem maintenance_over_idle_entered : ∃ e earlier c,
    SysRun (oneTenant acmeActive) ([] ++ e :: earlier) c ∧
      e.post.status 1 = some .maintenance ∧ ∃ q r row v, e.label = .answer q .commit r ∧
      LetThrough q 1 row v earlier ∧ (¬ v.pre.Busy q row.shard.dbAlias 1 ↔
        ¬ (v.pre.leaseOwner 1 = none ∧ v.pre.Busy q row.shard.dbAlias 1)) := by
  obtain ⟨e, earlier, c, hrun, hbefore, hafter⟩ := enter_run
  have hsys : SysRun (oneTenant acmeActive) ([] ++ e :: earlier) c :=
    ⟨oneTenant_quiet acmeActive, hrun⟩
  have hne : e.pre.status 1 ≠ some .maintenance := by
    rw [hbefore]
    exact nofun
  exact ⟨e, earlier, c, hsys, hafter, maintenance_over_idle_iff hsys hne hafter⟩

/-- A form that lets pass is that of the process that acts. -/
theorem LetsPass.actor {a : Alias} (h : LetsPass q pk a l) : l.actor = some q := by
  rcases h with rfl | rfl <;> rfl

/-- `app-1` starts the migration, loses its connection and gives its lease back; the admin then
moves the tenant to MAINTENANCE while the backend of `app-1` is still executing. -/
theorem maintenance_over_orphan :
    ∃ t c, SysRun (oneTenant acmeActive) t c ∧ ¬ EntersOverIdle t := by
  have r0 : Run machine (fun _ => Starts true) (.idle (oneTenant acmeActive)) []
    (.idle (oneTenant acmeActive)) := .nil
  have r1 := r0.start "app-1:4312" (.migrate 1 oneApp nofun) rfl
  have r2 := r1.answer "app-1:4312" (.load 1) (.ok (some acmeActive)) ⟨rfl, rfl, rfl⟩ rfl
  have r3 := r2.answer "app-1:4312" (.shard "shard1" (.sessionActive 1)) (.ok none)
    ⟨⟨nofun, fun h => absurd h oneTenant_not_busy⟩, .idle, nofun, .inr ⟨nofun, 0, rfl, rfl⟩⟩ rfl
  have r4 := r3.answer "app-1:4312" (.leaseUpsert 1) (.ok true) ⟨rfl, rfl, rfl⟩ rfl
  have r5 := r4.answer "app-1:4312" (.load 1) (.ok (some acmeActive)) ⟨rfl, rfl, rfl⟩ rfl
  have r6 := r5.answer "app-1:4312" (.shard "shard1" (.schemaExists "acme")) (.ok true)
    ⟨trivial, .idle, nofun, .inl ⟨0, _, rfl, rfl, rfl⟩⟩ rfl
  have r7 := r6.answer "app-1:4312" (.shard "shard1" (.migrationPlan "acme"))
    (.ok [("cars", "0002")]) ⟨trivial, .idle, nofun, .inl ⟨0, _, rfl, rfl, rfl⟩⟩ rfl
  have r8 := r7.answer "app-1:4312" (.closeShard "shard1") (.ok ()) ⟨trivial, rfl, rfl⟩ rfl
  have r9 := r8.answer "app-1:4312" (.shard "shard1" (.openShard 1)) (.ok ())
    ⟨trivial, .idle, nofun, .inr ⟨World.closeConn_not_connected, 0, rfl, rfl⟩⟩ rfl
  have r10 := r9.inner "app-1:4312"
    (.shard "shard1" (.runMigrations (oneApp.upstream "shard1") "acme"))
    ⟨.active, .inl ⟨0, _, rfl, rfl, rfl⟩⟩ rfl
  have r11 := r10.answer "app-1:4312"
    (.shard "shard1" (.runMigrations (oneApp.upstream "shard1") "acme")) (.error serverClosed)
    ⟨⟨_, rfl⟩, .inr ⟨rfl, rfl⟩⟩ rfl
  have r12 := r11.answer "app-1:4312" (.shardIdle "shard1") (.ok true)
    ⟨World.idle_of_not_connected World.detach_not_connected, rfl, rfl⟩ rfl
  have r13 := r12.answer "app-1:4312" (.closeShard "shard1") (.ok ()) ⟨trivial, rfl, rfl⟩ rfl
  have r14 := r13.answer "app-1:4312" (.leaseRelease 1) (.ok true) ⟨rfl, rfl, rfl⟩ rfl
  have r15 := r14.start "web-1:10" (.adminChange toMaintenance) rfl
  have r16 := r15.answer "web-1:10" .begin (.ok ()) ⟨trivial, rfl, rfl⟩ rfl
  have r17 := r16.answer "web-1:10" (.load 1) (.ok (some acmeActive)) ⟨rfl, rfl, rfl⟩ rfl
  have r18 := r17.answer "web-1:10" (.leaseHolder 1) (.ok none) ⟨rfl, rfl, rfl⟩ rfl
  have r19 := r18.answer "web-1:10" (.insertLease 1) (.ok ()) ⟨trivial, rfl, rfl⟩ rfl
  have r20 := r19.answer "web-1:10" (.lockLease 1) (.ok none) ⟨rfl, rfl, rfl⟩ rfl
  have r21 := r20.answer "web-1:10" (.adminUpdate 1 .active .maintenance) (.ok true)
    ⟨rfl, rfl, rfl⟩ rfl
  have r22 := r21.answer "web-1:10" .commit (.ok ()) ⟨trivial, rfl, rfl⟩ rfl
  refine ⟨_, _, ⟨oneTenant_quiet acmeActive, r22⟩, fun hidle => ?_⟩
  obtain ⟨q, r, row, v, hcommit, ⟨mid, upd, rest, old, ht, _, _, mid', rest', hrest, hpass, hload, _⟩,
    hbusy⟩ := hidle [] _ _ rfl 1 nofun rfl
  obtain ⟨mid'', load, rest'', hrest', hloadlabel, _⟩ := hload
  have hvmem : v ∈ mid ++ upd :: rest := by simp [hrest]
  have hloadmem : load ∈ mid ++ upd :: rest := by simp [hrest, hrest']
  rw [← ht] at hvmem hloadmem
  simp only [List.mem_cons, List.not_mem_nil, or_false] at hvmem hloadmem
  cases hcommit
  have hrow : row = acmeActive := by
    repeat' (rcases hloadmem with rfl | hloadmem)
    all_goals first
      | exact absurd (Label.answer.inj hloadlabel).1 (by decide)
      | cases hloadlabel
    rfl
  subst hrow
  repeat' (rcases hvmem with rfl | hvmem)
  all_goals first
    | exact absurd hpass.actor (by decide)
    | (rcases hpass with hpass | hpass <;> cases hpass; done)
    | exact hbusy ⟨0, _, rfl, rfl, rfl, nofun, rfl⟩

end MtShards.Migrator
