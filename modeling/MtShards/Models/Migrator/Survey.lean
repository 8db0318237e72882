import MtShards.Models.Migrator.SiteRun
import MtShards.Models.Migrator.Vetting

/-!
# Who may make a tenant ACTIVE

A process makes a tenant ACTIVE after it has loaded its row, found its schema and found nothing
left to apply to it; the migrator does so at the end of `_provision`, the console and the admin
before they leave DEACTIVATED or MAINTENANCE. One way goes past the look: the console asks for it
only when the row it has loaded is DEACTIVATED, and sends its conditional update in any case.
-/

namespace MtShards.Migrator

open MtShards.Core Program

/-- What a process has seen of a tenant and of its schema. -/
inductive Survey
  | blank
  | loaded (k : Pk) (row : Tenant)
  /-- The schema of the row was found. -/
  | found (k : Pk) (row : Tenant)
  /-- Nothing was left to apply to it. -/
  | complete (k : Pk) (row : Tenant)
  deriving DecidableEq, Repr

/-- Requests that activate no tenant, move none to another shard and have no targeted flags. -/
def Req.tame : Req → Prop
  | .fencedCas _ _ w => w.status ≠ .active
  | .adminUpdate _ _ dest | .consoleUpdate _ _ dest => dest ≠ .active
  | .saveTenant _ c _ => c.shard = none
  | .shard _ (.runMigrations o _) => o.targeted = false
  | _ => True

/-- Those among them that load no row. -/
def Req.modest : Req → Prop
  | .load _ => False
  | op => op.tame

namespace Survey

/-- The status writes that what was seen allows. -/
def vouches : Survey → Req → Prop
  | complete k _, .fencedCas k' _ _ | complete k _, .adminUpdate k' _ _
  | complete k _, .consoleUpdate k' _ _ => k' = k
  | loaded k row, .consoleUpdate k' source _ =>
    k' = k ∧ source = .deactivated ∧ row.status ≠ .deactivated ∧ row.status ≠ .maintenance
  | _, _ => False

/-- After a row was loaded. -/
def loadNext (k : Pk) : Except Exn (Option Tenant) → Survey
  | .ok (some row) => loaded k row
  | _ => blank

/-- After an answer to a process that has loaded the row. -/
def loadedNext (k : Pk) (row : Tenant) : (op : Req) → Except Exn op.Ans → Survey
  | .load k', r => loadNext k' r
  | .shard a (.schemaExists schema), .ok there =>
    if there = true ∧ a = row.shard.dbAlias ∧ schema = row.schemaName then found k row
    else loaded k row
  | _, _ => loaded k row

/-- After an answer to a process that has found the schema. -/
def foundNext (k : Pk) (row : Tenant) : (op : Req) → Except Exn op.Ans → Survey
  | .load k', r => loadNext k' r
  | .shard a (.migrationPlan schema), .ok plan =>
    if plan = [] ∧ a = row.shard.dbAlias ∧ schema = row.schemaName then complete k row
    else found k row
  | _, _ => found k row

/-- After an answer to any other process. -/
def otherNext (φ : Survey) : (op : Req) → Except Exn op.Ans → Survey
  | .load k', r => loadNext k' r
  | _, _ => φ

/-- The phase after an answer. -/
def next : Survey → (op : Req) → Except Exn op.Ans → Survey
  | blank => otherNext blank
  | loaded k row => loadedNext k row
  | found k row => foundNext k row
  | complete k row => otherNext (complete k row)

end Survey

/-- A tenant is made ACTIVE only on what was seen of it. -/
def survey : Protocol Req Req.Ans Exn Survey where
  init := .blank
  permits φ op := op.tame ∨ φ.vouches op
  next := Survey.next
  mayStop _ := True
  mayStop_init := trivial

/-- What was seen is about this row. -/
def Survey.About (k : Pk) (row : Tenant) (φ : Survey) : Prop :=
  φ = .loaded k row ∨ φ = .found k row ∨ φ = .complete k row

section Phases

variable {k : Pk} {row : Tenant} {op : Req} {φ : Survey} {α β : Type}

/-- A modest request is tame. -/
theorem Req.modest.tame (h : op.modest) : op.tame := by
  cases op with
  | load k => exact h.elim
  | _ => exact h

/-- Every load begins the survey anew. -/
theorem Survey.next_load (φ : Survey) (k : Pk) (r : Except Exn (Option Tenant)) :
    φ.next (.load k) r = loadNext k r := by
  cases φ <;> rfl

/-- A request that does not load leaves the survey where it is. -/
theorem Survey.otherNext_eq (φ : Survey) (h : ∀ k, op ≠ .load k) (r : Except Exn op.Ans) :
    φ.otherNext op r = φ := by
  cases op with
  | load k' => exact absurd rfl (h k')
  | _ => rfl

/-- A modest request does not load. -/
theorem Req.modest.ne_load (h : op.modest) (k : Pk) : op ≠ .load k := by
  rintro rfl
  exact h

/-- Only a load ends what was seen of a complete schema. -/
theorem Survey.complete_next (h : op.modest) (r : Except Exn op.Ans) :
    (Survey.complete k row).next op r = .complete k row :=
  Survey.otherNext_eq _ h.ne_load r

/-- What was seen stays about the row until another is loaded. -/
theorem Survey.about_next (hφ : φ.About k row) (h : op.modest) (r : Except Exn op.Ans) :
    (φ.next op r).About k row := by
  rcases hφ with rfl | rfl | rfl
  · simp only [Survey.next, Survey.loadedNext.eq_def]
    split
    · exact h.elim
    · split
      · exact .inr (.inl rfl)
      · exact .inl rfl
    · exact .inl rfl
  · simp only [Survey.next, Survey.foundNext.eq_def]
    split
    · exact h.elim
    · split
      · exact .inr (.inr rfl)
      · exact .inr (.inl rfl)
    · exact .inr (.inl rfl)
  · rw [Survey.complete_next h r]
    exact .inr (.inr rfl)

/-- The tenant that a request may make ACTIVE. -/
def Req.subject : Req → Option Pk
  | .fencedCas k _ _ | .adminUpdate k _ _ | .consoleUpdate k _ _ => some k
  | _ => none

/-- What vouches for a status write. -/
theorem Survey.vouches_cases (h : φ.vouches op) : ∃ k row, op.subject = some k ∧
    (φ = .complete k row ∨ (φ = .loaded k row ∧ ∃ dest, op = .consoleUpdate k .deactivated dest ∧
      row.status ≠ .deactivated ∧ row.status ≠ .maintenance)) := by
  cases φ with
  | blank => exact h.elim
  | found k row => exact h.elim
  | loaded k row =>
    cases op with
    | consoleUpdate k' source dest =>
      obtain ⟨rfl, rfl, hst⟩ := h
      exact ⟨k', row, rfl, .inr ⟨rfl, dest, rfl, hst⟩⟩
    | _ => exact h.elim
  | complete k row =>
    cases op with
    | fencedCas k' expected w => exact ⟨k', row, rfl, .inl (by rw [show k' = k from h])⟩
    | adminUpdate k' old dest => exact ⟨k', row, rfl, .inl (by rw [show k' = k from h])⟩
    | consoleUpdate k' source dest => exact ⟨k', row, rfl, .inl (by rw [show k' = k from h])⟩
    | _ => exact h.elim

/-- What the survey permits of no tenant in particular is tame. -/
theorem Survey.tame_of_permits (h : survey.permits φ op) (hop : op.subject = none) : op.tame := by
  refine h.resolve_right fun hv => ?_
  obtain ⟨k, _, hk, _⟩ := Survey.vouches_cases hv
  simp [hop] at hk

/-- Tame requests may be issued at any time. -/
theorem follows_tame {x : Prog α} (hx : x.Only Req.tame) : x.Follows survey φ fun _ _ => True :=
  hx.follows_anywhere fun _ _ hop => .inl hop

/-- Modest requests leave a survey with its row. -/
theorem follows_about {x : Prog α} (hx : x.Only Req.modest) (hφ : φ.About k row) :
    x.Follows survey φ fun φ' _ => φ'.About k row := by
  have hkeeps : ∀ (φ' : Survey) (op : Req), φ'.About k row → op.modest →
      survey.permits φ' op ∧ ∀ r, (survey.next φ' op r).About k row :=
    fun φ' op hφ' hop => ⟨Or.inl hop.tame, Survey.about_next hφ' hop⟩
  exact (hx.within.follows hkeeps hφ).mono fun _ _ h => h.1

/-- A guarded step that is tame. -/
theorem follows_guarded_tame {onError : Exn → Prog β} {x : Prog α} {k : α → Prog β}
    (hx : x.Only Req.tame) (hk : ∀ v φ', (k v).Follows survey φ' fun _ _ => True)
    (he : ∀ e, (onError e).Only Req.tame) :
    (guarded onError x k).Follows survey φ fun _ _ => True := by
  refine follows_guarded ((follows_tame hx).mono fun φ' r _ => ?_)
  cases r with
  | ok v => exact hk v φ'
  | error e => exact ⟨fun _ => trivial, fun _ => follows_tame (he e)⟩

/-- A step that keeps what was seen. -/
theorem follows_bind_about {x : Prog α} {f : α → Prog β} {Q : Survey → Except Exn β → Prop}
    (hφ : φ.About k row) (hx : x.Only Req.modest)
    (hf : ∀ v φ', Survey.About k row φ' → (f v).Follows survey φ' Q)
    (he : ∀ e φ', Q φ' (.error e)) : (x >>= f).Follows survey φ Q := by
  refine follows_bind.mpr ((follows_about hx hφ).mono fun φ' r hφ' => ?_)
  cases r with
  | ok v => exact hf v φ' hφ'
  | error e => exact he e φ'

/-- A guarded step that keeps what was seen. -/
theorem follows_guarded_about {onError : Exn → Prog β} {x : Prog α} {f : α → Prog β}
    (hφ : φ.About k row) (hx : x.Only Req.modest)
    (hf : ∀ v φ', Survey.About k row φ' → (f v).Follows survey φ' fun _ _ => True)
    (he : ∀ e, (onError e).Only Req.tame) :
    (guarded onError x f).Follows survey φ fun _ _ => True := by
  refine follows_guarded ((follows_about hx hφ).mono fun φ' r hφ' => ?_)
  cases r with
  | ok v => exact hf v φ' hφ'
  | error e => exact ⟨fun _ => trivial, fun _ => follows_tame (he e)⟩

/-- A guarded step after a complete look. -/
theorem follows_guarded_complete {onError : Exn → Prog β} {x : Prog α} {f : α → Prog β}
    (hx : x.Only Req.modest)
    (hf : ∀ v, (f v).Follows survey (.complete k row) fun _ _ => True)
    (he : ∀ e, (onError e).Only Req.tame) :
    (guarded onError x f).Follows survey (.complete k row) fun _ _ => True := by
  have hstays : x.Follows survey (.complete k row) fun φ' _ => φ' = .complete k row :=
    hx.follows fun op hop => ⟨.inl hop.tame, Survey.complete_next hop⟩
  refine follows_guarded (hstays.mono fun φ' r hφ' => ?_)
  subst hφ'
  cases r with
  | ok v => exact hf v
  | error e => exact ⟨fun _ => trivial, fun _ => follows_tame (he e)⟩

end Phases

/-! ### Requests that are modest, and requests that are tame -/

section Steady

variable {pk : Pk} {row : Tenant} {opts : RunOptions} {c : Target} {α : Type}

/-- A program of modest requests is one of tame ones. -/
theorem tame_of_modest {x : Prog α} (hx : x.Only Req.modest) : x.Only Req.tame :=
  hx.mono fun _ => Req.modest.tame

/-- Reading the plan makes only modest requests. -/
theorem pendingPlan_modest (row : Tenant) : (pendingPlan row).Only Req.modest := by
  refine Only.bind (only_call trivial) fun there => ?_
  cases there with
  | true =>
    refine Only.tryFinally ?_ (only_call trivial)
    exact Only.bind (only_call trivial) fun plan => trivial
  | false => trivial

/-- Reporting a failure makes only modest requests. -/
theorem failure_modest (e : Exn) (a : Alias) (schema : SchemaName) (c : Target) :
    (failure e a schema c).Only Req.modest := by
  refine Only.bind (only_call trivial) fun _ => Only.bind ?_ fun indexes => trivial
  exact only_guarded (only_call trivial) (fun _ => trivial) fun _ => trivial

/-- Looking into a lost status write makes only modest requests. -/
theorem casLost_modest : (casLost pk c).Only Req.modest := by
  refine Only.bind (only_call trivial) fun row => ?_
  match row with
  | none => trivial
  | some (status, mine) =>
    dsimp only
    split <;> trivial

/-- The handler of `_provision` writes FAILED at most. -/
theorem provisionFailed_modest (side : Side) (claimed : Bool) (e : Exn) :
    (provisionFailed pk row c side claimed e).Only Req.modest := by
  rw [provisionFailed]
  split
  · trivial
  · refine (failure_modest e _ _ c).bind fun res => ?_
    split
    · refine only_guarded ?_ (fun _ => trivial) fun e2 => ?_
      · refine Only.bind (only_call (by simp [Req.modest, Req.tame])) fun won => ?_
        split
        · exact Only.bind (only_call trivial) fun _ => trivial
        · exact casLost_modest.bind fun lost => trivial
      · split <;> trivial
    · trivial

/-- The handler of `_provision` makes only tame requests. -/
theorem provisionFailed_tame (side : Side) (claimed : Bool) (e : Exn) :
    (provisionFailed pk row c side claimed e).Only Req.tame :=
  tame_of_modest (provisionFailed_modest side claimed e)

/-- The handler of `_upgrade` makes only modest requests. -/
theorem upgradeFailed_modest (side : Side) (e : Exn) :
    (upgradeFailed row c side e).Only Req.modest := by
  rw [upgradeFailed]
  split
  · trivial
  · exact failure_modest e _ _ c

private theorem upgradeMissing_modest : (upgradeMissing pk row c).Only Req.modest := by
  rw [upgradeMissing]
  split
  · trivial
  · refine only_guarded (only_call (by simp [Req.modest, Req.tame])) (fun won => ?_)
      (upgradeFailed_modest _)
    split
    · exact only_guarded (only_call trivial) (fun _ => trivial) (upgradeFailed_modest _)
    · exact only_guarded casLost_modest (fun _ => trivial) (upgradeFailed_modest _)

private theorem upgrade_modest (ht : opts.targeted = false) : (upgrade pk row opts c).Only Req.modest := by
  refine only_guarded (pendingPlan_modest row) (fun plan => ?_) (upgradeFailed_modest _)
  cases plan with
  | none => exact upgradeMissing_modest
  | some plan =>
    dsimp only
    split
    · trivial
    · refine only_guarded ?_ (fun _ => ?_) (upgradeFailed_modest _)
      · exact Only.bind (only_call trivial) fun _ => only_call ht
      · split
        · exact only_guarded (pendingPlan_modest row) (fun _ => trivial) (upgradeFailed_modest _)
        · trivial

private theorem noopShortcut_modest : (noopShortcut row opts c).Only Req.modest := by
  rw [noopShortcut]
  split
  · refine only_guarded (pendingPlan_modest row) (fun plan => ?_) fun e => ?_
    · split <;> trivial
    · split
      · trivial
      · exact (failure_modest e _ _ c).bind fun res => trivial
  · trivial

private theorem leaseAcquire_modest (k : Pk) (a : Alias) : (leaseAcquire k a).Only Req.modest := by
  refine Only.bind ?_ fun busy => ?_
  · refine only_guarded (only_call trivial) (fun _ => trivial) fun e => ?_
    split <;> trivial
  · cases busy with
    | some busy => exact Only.bind (only_call trivial) fun h => trivial
    | none =>
      refine Only.bind (only_call trivial) fun won => ?_
      split
      · trivial
      · exact Only.bind (only_call trivial) fun h => trivial

private theorem leasedExit_modest (a : Alias) (finished : Bool) :
    (leasedExit pk a finished).Only Req.modest := by
  refine Only.bind (only_call trivial) fun idle => Only.bind (only_call trivial) fun _ => ?_
  split
  · exact only_guarded (Only.bind (only_call trivial) fun _ => trivial) (fun _ => trivial)
      fun _ => trivial
  · trivial

private theorem checkReactivation_modest (row : Tenant) : (checkReactivation row).Only Req.modest := by
  refine only_guarded (only_call trivial) (fun older => ?_) fun e => ?_
  · cases older with
    | true => trivial
    | false =>
      refine only_guarded (pendingPlan_modest row) (fun plan => ?_) fun e => ?_
      · match plan with
        | none => trivial
        | some [] => trivial
        | some (_ :: _) => trivial
      · split <;> trivial
  · split <;> trivial

/-- A console transition to another status than ACTIVE makes only tame requests. -/
theorem transitionUpdate_tame {source dest : Status} (h : dest ≠ .active) :
    (transitionUpdate pk row source dest).Only Req.tame := by
  refine Only.bind (only_call h) fun updated => ?_
  split
  · exact Only.bind (only_call trivial) fun _ => Only.bind (only_call trivial) fun _ => trivial
  · trivial

private theorem transition_tame {source dest : Status} (stopper : Bool) (h : dest ≠ .active) :
    (transition pk source dest stopper).Only Req.tame := by
  refine Only.bind (only_call trivial) fun loaded => ?_
  cases loaded with
  | none => trivial
  | some row =>
    dsimp only
    split
    · trivial
    · split
      · trivial
      · split
        · refine (tame_of_modest (checkReactivation_modest row)).bind fun b => ?_
          cases b with
          | some b => trivial
          | none => exact transitionUpdate_tame h
        · exact transitionUpdate_tame h

private theorem saveOther_tame {ch : World.Changes} (h : ch.shard = none) :
    (saveOther pk ch).Only Req.tame := by
  refine Only.bind (only_call h) fun saved => ?_
  split <;> trivial

private theorem serializerUpdate_tame {ch : World.Changes} (h : ch.shard = none) :
    (serializerUpdate pk ch).Only Req.tame := by
  refine Only.bind (only_call trivial) fun loaded => ?_
  cases loaded with
  | none => trivial
  | some row =>
    dsimp only
    split
    · trivial
    · refine Only.bind (only_call trivial) fun _ => Only.bind (Only.attempt ?_) fun r => ?_
      · refine Only.bind (only_call h) fun saved => ?_
        split <;> trivial
      · cases r with
        | ok _ => exact Only.bind (only_call trivial) fun _ => only_call trivial
        | error e => exact Only.bind (only_call trivial) fun _ => trivial

private theorem releaseCommand_tame (k : Pk) (label : String) (aliases : List Alias) (force : Bool) :
    (releaseCommand k label aliases force).Only Req.tame :=
  releaseCommand_only label aliases force trivial (fun _ _ => trivial) fun _ => trivial

end Steady

/-! ### Every program keeps to it -/

section Follows

variable {pk : Pk} {row : Tenant} {opts : RunOptions} {c : Target} {φ : Survey} {α : Type}

/-- What `pending_plan` has seen when it returns an empty plan. -/
theorem pendingPlan_survey (hφ : φ.About pk row) :
    (pendingPlan row).Follows survey φ fun φ' r =>
      φ'.About pk row ∧ (r = .ok (some []) → φ' = .complete pk row) := by
  have hthere : Req.modest (.shard row.shard.dbAlias (.schemaExists row.schemaName)) := trivial
  refine ⟨.inl trivial, fun there => ?_⟩
  have hφ₁ := Survey.about_next hφ hthere there
  have hseen : there = .ok true →
      φ.next (.shard row.shard.dbAlias (.schemaExists row.schemaName)) there ≠ .loaded pk row := by
    rintro rfl
    rcases hφ with rfl | rfl | rfl <;> simp [Survey.next, Survey.loadedNext, Survey.foundNext,
      Survey.otherNext]
  change Follows survey _ (φ.next (.shard row.shard.dbAlias (.schemaExists row.schemaName)) there) _
  generalize φ.next (.shard row.shard.dbAlias (.schemaExists row.schemaName)) there = φ₁
    at hφ₁ hseen
  match there with
  | .error e => exact ⟨hφ₁, nofun⟩
  | .ok false => exact ⟨hφ₁, nofun⟩
  | .ok true =>
    have hclose : ∀ (φ₂ : Survey) (r : Except Exn (Option Plan)), φ₂.About pk row →
        (r = .ok (some []) → φ₂ = .complete pk row) →
        (closeShard row.shard.dbAlias).Follows survey φ₂ fun φ₃ u =>
          onOutcome (fun _ => φ₃.About pk row ∧ (r = .ok (some []) → φ₃ = .complete pk row))
            (fun e => φ₃.About pk row ∧ ((.error e : Except Exn (Option Plan)) = .ok (some []) →
              φ₃ = .complete pk row)) u := by
      intro φ₂ r hφ₂ hr
      refine ⟨.inl trivial, fun u => ?_⟩
      have hstays : survey.next φ₂ (.closeShard row.shard.dbAlias) u = φ₂ := by
        rcases hφ₂ with rfl | rfl | rfl <;> rfl
      rw [hstays]
      cases u with
      | ok _ => exact ⟨hφ₂, hr⟩
      | error e => exact ⟨hφ₂, nofun⟩
    refine follows_tryFinally.mpr ⟨.inl trivial, fun plan => ?_⟩
    have hplan : Req.modest (.shard row.shard.dbAlias (.migrationPlan row.schemaName)) := trivial
    have hφ₂ := Survey.about_next hφ₁ hplan plan
    match plan with
    | .error e => exact hclose _ _ hφ₂ nofun
    | .ok (m :: plan) => exact hclose _ _ hφ₂ nofun
    | .ok [] =>
      refine hclose _ _ hφ₂ fun _ => ?_
      rcases hφ₁ with rfl | rfl | rfl
      · exact absurd rfl (hseen rfl)
      · exact if_pos ⟨rfl, rfl, rfl⟩
      · rfl

private theorem provisionSchema_survey (ht : opts.targeted = false) (hφ : φ.About pk row) :
    (provisionSchema pk row opts).Follows survey φ fun φ' r =>
      r = .ok () → φ' = .complete pk row := by
  have hraises : ∀ (e : Exn) (φ' : Survey), (Except.error e : Except Exn Unit) = .ok () →
      φ' = .complete pk row := fun _ _ h => by cases h
  refine follows_bind_about hφ (only_call trivial) (fun _ φ₁ hφ₁ => ?_) hraises
  refine follows_bind_about hφ₁ (only_call trivial) (fun _ φ₂ hφ₂ => ?_) hraises
  refine follows_bind_about hφ₂ (only_call ht) (fun _ φ₃ hφ₃ => ?_) hraises
  refine follows_bind.mpr ((pendingPlan_survey hφ₃).mono fun φ₄ r hr => ?_)
  match r with
  | .error e => exact nofun
  | .ok none => exact nofun
  | .ok (some []) => exact fun _ => hr.2 rfl
  | .ok (some (m :: plan)) => exact nofun

/-- The migrator activates a tenant after its last look at the schema. -/
theorem provisionClaimed_survey (ht : opts.targeted = false) (hφ : φ.About pk row) :
    (provisionClaimed pk row opts c).Follows survey φ fun _ _ => True := by
  refine follows_guarded ((provisionSchema_survey ht hφ).mono fun φ₁ r hr => ?_)
  cases r with
  | error e => exact ⟨fun _ => trivial, fun _ => follows_tame (provisionFailed_tame _ _ e)⟩
  | ok _ =>
    obtain rfl := hr rfl
    refine follows_guarded_complete (only_call trivial) (fun older => ?_) (provisionFailed_tame _ _)
    split
    · trivial
    · refine follows_guarded ⟨.inr rfl, fun won => ?_⟩
      cases won with
      | error e => exact ⟨fun _ => trivial, fun _ => follows_tame (provisionFailed_tame _ _ e)⟩
      | ok won =>
        refine follows_tame ?_
        split
        · refine only_guarded (only_call trivial) (fun _ => ?_) (provisionFailed_tame _ _)
          split <;> trivial
        · exact only_guarded (tame_of_modest casLost_modest) (fun _ => trivial)
            (provisionFailed_tame _ _)

private theorem provision_survey (ht : opts.targeted = false) (hφ : φ.About pk row) :
    (provision pk row opts c).Follows survey φ fun _ _ => True := by
  rw [provision, if_neg (by simp [ht])]
  refine follows_guarded_about hφ (only_call trivial) (fun older φ₁ hφ₁ => ?_)
    (provisionFailed_tame _ _)
  split
  · trivial
  · refine follows_guarded_about hφ₁ ?_ (fun foreign φ₂ hφ₂ => ?_) (provisionFailed_tame _ _)
    · split
      · exact only_call trivial
      · trivial
    · split
      · refine follows_tame (only_guarded (only_call (by simp [Req.tame])) (fun won => ?_)
          (provisionFailed_tame _ _))
        split
        · exact only_guarded (only_call trivial) (fun _ => trivial) (provisionFailed_tame _ _)
        · exact only_guarded (tame_of_modest casLost_modest) (fun _ => trivial)
            (provisionFailed_tame _ _)
      · refine follows_guarded_about hφ₂ (only_call (by simp [Req.modest, Req.tame]))
          (fun won φ₃ hφ₃ => ?_) (provisionFailed_tame _ _)
        split
        · exact provisionClaimed_survey ht hφ₃
        · exact follows_tame (only_guarded (tame_of_modest casLost_modest) (fun _ => trivial)
            (provisionFailed_tame _ _))

private theorem leasedBody_survey (ht : opts.targeted = false) :
    (leasedBody pk opts c).Follows survey φ fun _ _ => True := by
  refine follows_guarded ⟨.inl trivial, fun loaded => ?_⟩
  match loaded with
  | .error e =>
    refine ⟨fun _ => trivial, fun _ => ?_⟩
    split <;> trivial
  | .ok none => trivial
  | .ok (some row) =>
    change Follows survey (workOn pk opts c row) (φ.next (.load pk) _) _
    rw [Survey.next_load, workOn]
    split
    · trivial
    · split
      · exact provision_survey ht (.inl rfl)
      · split
        · exact follows_tame (tame_of_modest (upgrade_modest ht))
        · trivial

private theorem withLease_survey (ht : opts.targeted = false) :
    (withLease pk opts c).Follows survey φ fun _ _ => True := by
  refine follows_guarded_tame (tame_of_modest (leaseAcquire_modest pk c.dbAlias))
    (fun held φ' => ?_) fun e => ?_
  · cases held with
    | some msg => trivial
    | none =>
      refine follows_bind.mpr (follows_attempt.mpr ((leasedBody_survey ht).mono fun φ'' r _ => ?_))
      exact follows_tame ((tame_of_modest (leasedExit_modest _ _)).bind fun _ => trivial)
  · split
    · trivial
    · split <;> trivial

private theorem migrateTenant_survey (ht : opts.targeted = false) :
    (migrateTenant pk opts).Follows survey φ fun _ _ => True := by
  refine follows_guarded_tame (only_call trivial) (fun loaded φ' => ?_) fun e => ?_
  · cases loaded with
    | none => trivial
    | some row =>
      dsimp only
      rw [migrateLoaded]
      split
      · trivial
      · split
        · trivial
        · refine follows_bind.mpr ((follows_tame (tame_of_modest noopShortcut_modest)).mono ?_)
          intro φ'' r _
          rcases r with e | _ | res
          · trivial
          · exact withLease_survey ht
          · trivial
  · split <;> trivial

/-- The stopper lets a tenant pass whose schema it has found complete. -/
theorem checkReactivation_survey (hφ : φ.About pk row) :
    (checkReactivation row).Follows survey φ fun φ' r =>
      r = .ok none → φ' = .complete pk row := by
  have holder : codeOlderThanDb.Only Req.modest := only_call trivial
  refine follows_guarded ((follows_about holder hφ).mono fun φ₁ r hφ₁ => ?_)
  match r with
  | .error e =>
    refine ⟨nofun, fun _ => ?_⟩
    split <;> exact nofun
  | .ok true => exact nofun
  | .ok false =>
    refine follows_guarded ((pendingPlan_survey hφ₁).mono fun φ₂ r hr => ?_)
    match r with
    | .error e =>
      refine ⟨nofun, fun _ => ?_⟩
      split <;> exact nofun
    | .ok none => exact nofun
    | .ok (some []) => exact fun _ => hr.2 rfl
    | .ok (some (m :: plan)) => exact nofun

/-- The console activates a tenant that the stopper let pass, or whose row was not DEACTIVATED. -/
theorem activate_survey (pk : Pk) : (activate pk).Follows survey φ fun _ _ => True := by
  have hwrite : ∀ (φ' : Survey) (row : Tenant),
      φ'.vouches (.consoleUpdate pk .deactivated .active) →
      (transitionUpdate pk row .deactivated .active).Follows survey φ' fun _ _ => True := by
    intro φ' row hφ'
    refine ⟨.inr hφ', fun updated => follows_tame ?_⟩
    cases updated with
    | error e => trivial
    | ok updated =>
      change Only Req.tame (if updated = true then _ else _)
      split
      · exact Only.bind (only_call trivial) fun _ => Only.bind (only_call trivial) fun _ => trivial
      · trivial
  refine ⟨.inl trivial, fun loaded => ?_⟩
  match loaded with
  | .error e => trivial
  | .ok none => trivial
  | .ok (some row) =>
    change Follows survey (if _ then _ else if _ then _ else if _ then _ else _)
      (φ.next (.load pk) _) _
    rw [Survey.next_load]
    split
    · trivial
    · split
      · trivial
      · rename_i hmaint
        split
        · refine follows_bind.mpr ((checkReactivation_survey (.inl rfl)).mono fun φ' r hr => ?_)
          match r with
          | .error e => trivial
          | .ok (some b) => trivial
          | .ok none =>
            obtain rfl := hr rfl
            exact hwrite _ row rfl
        · rename_i hsource
          exact hwrite _ row ⟨rfl, rfl, fun h => hsource (by simp [h]), hmaint⟩

/-- The form lets ACTIVE pass after a look at the schema. -/
theorem clean_survey (sub : Submission) (row : Tenant) :
    (clean sub row).Follows survey (.loaded sub.pk row) fun φ' r => r = .ok none →
      ∀ dest, sub.newStatus (sub.oldStatus row) = some dest → dest ≠ sub.oldStatus row →
        dest = .active → φ' = .complete sub.pk row := by
  rw [clean]
  cases hnew : sub.newStatus (sub.oldStatus row) with
  | none =>
    intro _ dest hdest
    cases hdest
  | some dest =>
    dsimp only
    split
    · rename_i hsame
      intro _ dest' hdest hne
      obtain rfl := Option.some.inj hdest
      exact absurd hsame hne
    · rw [cleanChange]
      split
      · intro hok
        cases hok
      · by_cases hto : dest = .active
        · subst hto
          rw [cleanTarget, if_pos rfl]
          refine follows_bind.mpr (follows_bind.mpr
            ((checkReactivation_survey (.inl rfl)).mono fun φ₁ r hr => ?_))
          rcases r with e | _ | b
          · intro hok
            cases hok
          · exact fun _ _ _ _ _ => hr rfl
          · intro hok
            cases hok
        · have htame : (cleanTarget sub.pk row (sub.oldStatus row) dest).Only Req.tame := by
            rw [cleanTarget, if_neg hto]
            split
            · refine Only.bind (only_call trivial) fun holder => ?_
              cases holder with
              | none => trivial
              | some h =>
                dsimp only
                split
                · exact Only.bind (only_call trivial) fun busy => trivial
                · trivial
            · trivial
          refine (follows_tame (htame.bind fun e => ?_)).mono
            fun φ' r _ _ dest' hdest _ hactive => ?_
          · cases e <;> trivial
          · obtain rfl := Option.some.inj hdest
            exact absurd hactive hto

private theorem saveModel_survey (sub : Submission) (hc : sub.changes.shard = none) {old dest : Status}
    (hφ : dest ≠ old → dest = .active → φ = .complete sub.pk row) :
    (saveModel sub row old dest).Follows survey φ fun _ _ => True := by
  have hother : ∀ forgets : Nat, (if noChanges sub.changes then Pure.pure forgets else do
      saveOther sub.pk sub.changes
      Pure.pure (forgets + 1) : Prog Nat).Only Req.tame := by
    intro forgets
    split
    · trivial
    · exact (saveOther_tame hc).bind fun _ => trivial
  refine follows_bind.mpr ?_
  rw [saveStatus]
  split
  · rename_i hne
    by_cases hto : dest = .active
    · obtain rfl := hφ hne hto
      subst hto
      refine follows_bind.mpr ⟨.inr rfl, fun updated => ?_⟩
      rcases updated with e | _ | _
      · trivial
      · trivial
      · exact follows_tame (hother 1)
    · refine (follows_tame (Only.bind ?_ fun _ => ?_)).mono fun φ' r _ => ?_
      · rw [refuseIfMigrating]
        split
        · refine Only.bind (Only.bind (only_call trivial) fun _ => only_call trivial) ?_
          intro holder
          cases holder <;> trivial
        · trivial
      · refine Only.bind (only_call hto) fun updated => ?_
        split <;> trivial
      · cases r with
        | ok forgets => exact follows_tame (hother forgets)
        | error e => trivial
  · exact follows_tame (hother 0)

private theorem adminBody_survey (sub : Submission) (hc : sub.changes.shard = none) :
    (adminBody sub).Follows survey φ fun _ _ => True := by
  refine ⟨.inl trivial, fun loaded => ?_⟩
  match loaded with
  | .error e => trivial
  | .ok none => trivial
  | .ok (some row) =>
    change Follows survey (clean sub row >>= _) (φ.next (.load sub.pk) _) _
    rw [Survey.next_load]
    refine follows_bind.mpr ((clean_survey sub row).mono fun φ' r hr => ?_)
    match r with
    | .error e => trivial
    | .ok (some e) => trivial
    | .ok none =>
      rw [onOutcome_ok]
      dsimp only
      split
      · trivial
      · cases hnew : sub.newStatus (sub.oldStatus row) with
        | none => trivial
        | some dest =>
          refine follows_bind.mpr ((saveModel_survey sub hc (hr rfl dest hnew)).mono ?_)
          intro φ'' r' _
          cases r' <;> trivial

private theorem adminChange_survey (sub : Submission) (hc : sub.changes.shard = none) :
    (adminChange sub).Follows survey φ fun _ _ => True := by
  refine ⟨.inl trivial, fun begun => ?_⟩
  cases begun with
  | error e => trivial
  | ok _ =>
    change Follows survey ((adminBody sub).attempt >>= _) _ _
    refine follows_bind.mpr (follows_attempt.mpr ((adminBody_survey sub hc).mono fun φ' r _ => ?_))
    cases r with
    | ok outcome =>
      refine follows_tame (Only.bind (only_call trivial) fun _ => ?_)
      exact (forgetTimes_only trivial _).bind fun _ => trivial
    | error e =>
      refine follows_tame (Only.bind (only_call trivial) fun _ => ?_)
      split <;> trivial

/-- Every program that may be started activates a tenant only on what it has seen. -/
theorem inPlace_survey : AllFollow survey (fun _ : Pid => InPlace) := by
  intro p prog h
  cases h with
  | migrate pk opts ht => exact (migrateTenant_survey ht).void
  | activate pk => exact (activate_survey pk).void
  | deactivate pk => exact (follows_tame (transition_tame false (by simp))).void
  | adminChange sub hc => exact (adminChange_survey sub hc).void
  | serializerUpdate pk ch hc => exact follows_tame (serializerUpdate_tame hc)
  | releaseCommand k label aliases force =>
    exact (follows_tame (releaseCommand_tame k label aliases force)).void

end Follows

end MtShards.Migrator
