import MtShards.Models.Tenant.Snapshot

/-!
# When a save stamps `status_changed_at`

`Tenant.from_db` and `Tenant.save`: the instance remembers the status it was loaded with, and a
save that finds another one in the instance, or finds nothing remembered, puts a new time into
`status_changed_at`. The remembered status is set on loading only, so that whether a save is right
is a matter of the saves before it, and of the columns that it writes.
-/

namespace MtShards.Tenants

/-- A moment. -/
abbrev Time := Nat

/-- The text of the column `status`. An assignment is not held to the `choices` of the field. -/
abbrev StatusText := String

/-- What the row of a tenant says of its status. -/
structure Row where
  status : StatusText
  statusChangedAt : Time
  deriving DecidableEq, Repr

/-- The in-memory instance. -/
structure Instance where
  /-- `_state.adding`. -/
  adding : Bool
  pk : Option Nat
  /-- The attribute `status`, or none while its field is deferred. -/
  status : Option StatusText
  statusChangedAt : Time
  /-- The columns that are deferred. -/
  deferred : List String
  /-- `_loaded_status`, or none while it is not set. -/
  loadedStatus : Option StatusText
  deriving DecidableEq, Repr

/-- The table of tenants and the instance. -/
structure World where
  rows : Nat → Option Row
  inst : Instance

/-- A call of `save`. -/
structure Save where
  updateFields : Option (List String)
  /-- `timezone.now()`. -/
  now : Time
  /-- The key that an `INSERT` without one is given. -/
  nextPk : Nat
  /-- The database, or Django before it, refuses. -/
  raises : Bool
  deriving DecidableEq, Repr

/-- One thing that happens to the instance. -/
inductive Event
  /-- The instance is what a query that defers these columns built by `from_db`. -/
  | load (pk : Nat) (deferred : List String)
  /-- `refresh_from_db()`, which leaves deferred what is deferred. -/
  | refresh
  | assignStatus (st : StatusText)
  | assignStatusChangedAt (at' : Time)
  | assignPk (pk : Option Nat)
  /-- Any other field is assigned. -/
  | assign (field : String)
  | save (s : Save)
  deriving DecidableEq, Repr

/-- `Tenant(status=st)`, before it is saved. -/
def Instance.unsaved (pk : Option Nat) (st : StatusText) (now : Time) : Instance :=
  ⟨true, pk, some st, now, [], none⟩

/-- `from_db`. -/
def Instance.fromDb (pk : Nat) (deferred : List String) (r : Row) : Instance where
  adding := false
  pk := some pk
  status := if deferred.contains "status" then none else some r.status
  statusChangedAt := r.statusChangedAt
  deferred := deferred
  loadedStatus := if deferred.contains "status" then none else some r.status

namespace World

/-- The row of the instance, if there is one. -/
def row (w : World) : Option Row := w.inst.pk.bind w.rows

/-- `self.status`; a deferred field is fetched. -/
def status (w : World) : Option StatusText := w.inst.status.or (w.row.map Row.status)

/-- The test of `save`: `self._state.adding or self.status != self._loaded_status`. -/
def stamps (w : World) (st : StatusText) : Bool :=
  w.inst.adding || decide (some st ≠ w.inst.loadedStatus)

/-- The instance once its status has been looked at. -/
def fetched (w : World) (st : StatusText) : Instance :=
  { w.inst with status := some st, deferred := w.inst.deferred.filter (· ≠ "status") }

/-- The instance once `save` has stamped it, or has let it be. -/
def stamped (w : World) (st : StatusText) (now : Time) : Instance :=
  if w.stamps st then
    { w.fetched st with
      statusChangedAt := now
      deferred := (w.fetched st).deferred.filter (· ≠ "status_changed_at") }
  else w.fetched st

/-- The `update_fields` that `save` hands on. -/
def handedOn (w : World) (st : StatusText) (updateFields : Option (List String)) :
    Option (List String) :=
  if w.stamps st then updateFields.map ("status_changed_at" :: ·) else updateFields

end World

/-- What `Model.save` sends to the database. -/
inductive Statement
  | nothing
  | insert (pk : Nat)
  | update (pk : Nat) (writes : String → Bool)

/-- `Model.save`, unless it raises: an empty list skips the save; fields that are named, or those
that are loaded when some are deferred, are written to a row that must be there; else all are, by
an `INSERT` if need be. -/
def superSave (rows : Nat → Option Row) (inst : Instance) (nextPk : Nat)
    (updateFields : Option (List String)) : Option Statement :=
  match updateFields with
  | some [] => some .nothing
  | some names => do
    let pk ← inst.pk
    let _ ← rows pk
    pure (.update pk names.contains)
  | none =>
    if inst.deferred ≠ [] then do
      let pk ← inst.pk
      let _ ← rows pk
      pure (.update pk fun name => !inst.deferred.contains name)
    else
      match inst.pk with
      | none => if (rows nextPk).isSome then none else some (.insert nextPk)
      | some pk => if (rows pk).isSome then some (.update pk fun _ => true) else some (.insert pk)

/-- The row once these of its columns have been written; a deferred time that is named is fetched
first. -/
def Row.written (r : Row) (st : StatusText) (inst : Instance) (writes : String → Bool) : Row where
  status := if writes "status" then st else r.status
  statusChangedAt :=
    if writes "status_changed_at" && !inst.deferred.contains "status_changed_at" then
      inst.statusChangedAt
    else r.statusChangedAt

/-- What a statement does to the table. -/
def Statement.apply (st : StatusText) (inst : Instance) (rows : Nat → Option Row) :
    Statement → Nat → Option Row
  | nothing => rows
  | insert pk => fun k => if k = pk then some ⟨st, inst.statusChangedAt⟩ else rows k
  | update pk writes => fun k =>
    if k = pk then (rows k).map fun r => r.written st inst writes else rows k

/-- What a statement does to the instance. -/
def Statement.saved (inst : Instance) : Statement → Instance
  | nothing => inst
  | insert pk | update pk _ => { inst with adding := false, pk := some pk }

namespace World

/-- The status that a save finds in the instance, and what it sends, unless it raises. -/
def sends (w : World) (s : Save) : Option (StatusText × Statement) := do
  let st ← w.status
  if s.raises then none
  let stmt ← superSave w.rows (w.stamped st s.now) s.nextPk (w.handedOn st s.updateFields)
  pure (st, stmt)

/-- `Tenant.save`. -/
def save (w : World) (s : Save) : World :=
  match w.sends s with
  | none =>
      -- The instance has been stamped when the write raises.
      { w with inst := (w.status.map fun st => w.stamped st s.now).getD w.inst }
  | some (st, stmt) =>
      ⟨stmt.apply st (w.stamped st s.now) w.rows, stmt.saved (w.stamped st s.now)⟩

/-- What an event does. -/
def step (w : World) (e : Event) : World :=
  match e with
  | .load pk deferred =>
      match w.rows pk with
      | none => w
      | some r => { w with inst := .fromDb pk deferred r }
  | .refresh =>
      match w.row with
      | none => w
      | some r =>
          { w with
            inst.status := w.inst.status.map fun _ => r.status
            inst.statusChangedAt := r.statusChangedAt }
  | .assignStatus st => { w with inst.status := some st }
  | .assignStatusChangedAt at' =>
      { w with
        inst.statusChangedAt := at'
        inst.deferred := w.inst.deferred.filter (· ≠ "status_changed_at") }
  | .assignPk pk => { w with inst.pk := pk }
  | .assign field => { w with inst.deferred := w.inst.deferred.filter (· ≠ field) }
  | .save s => w.save s

end World

/-! ### What a save is to do -/

/-- The columns that a statement sets. -/
def Statement.sets : Statement → String → Bool
  | nothing, _ => false
  | insert _, _ => true
  | update _ writes, name => writes name

namespace World

/-- The save writes a new `status_changed_at`: a time that it has just taken, or another one than
the stored. -/
def Restamps (w : World) (s : Save) : Prop :=
  (∃ st stmt, w.sends s = some (st, stmt) ∧ w.stamps st = true ∧
    stmt.sets "status_changed_at" = true) ∨
  ∃ k r r', w.rows k = some r ∧ (w.save s).rows k = some r' ∧
    r'.statusChangedAt ≠ r.statusChangedAt

/-- The save creates a row. -/
def Creates (w : World) (s : Save) : Prop := ∃ k, w.rows k = none ∧ (w.save s).rows k ≠ none

/-- The save changes a stored status. -/
def Moves (w : World) (s : Save) : Prop :=
  ∃ k r r', w.rows k = some r ∧ (w.save s).rows k = some r' ∧ r'.status ≠ r.status

/-- The time goes with the status. -/
def Tracks (w : World) (s : Save) : Prop := w.Restamps s ↔ w.Creates s ∨ w.Moves s

end World

/-- Whether a save with these `update_fields` writes the column `status`. -/
def writesStatus : Option (List String) → Bool
  | none => true
  | some names => names.contains "status"

namespace World

/-- Whether a save with these `update_fields` that does not stamp writes the instance's own
`status_changed_at`. -/
def writesTime (w : World) : Option (List String) → Bool
  | none => !w.inst.deferred.contains "status_changed_at"
  | some names =>
    names.contains "status_changed_at" && !w.inst.deferred.contains "status_changed_at"

/-- What the instance remembers serves the save. Where the row is there, the status is another one
than that remembered, or the instance's own time goes over another one, if and only if the status
is written and another one than the stored. Where a row will be created, the instance is new, or
its status is another one than that remembered. -/
def Served (w : World) (s : Save) : Prop :=
  ∀ st, w.status = some st → s.raises = false →
    match w.row with
    | some r =>
      (w.stamps st = true ∨
        w.writesTime s.updateFields = true ∧ w.inst.statusChangedAt ≠ r.statusChangedAt) ↔
      writesStatus s.updateFields = true ∧ st ≠ r.status
    | none => s.updateFields = none → (∀ name ∈ w.inst.deferred, name = "status") →
        (w.inst.pk = none → w.rows s.nextPk = none) → w.stamps st = true

/-! ### What a save sends -/

variable {w : World} {s : Save} {st : StatusText} {stmt : Statement} {pk : Nat} {r : Row}

/-- An instance with a row has its primary key. -/
theorem row_eq_some (hrow : w.row = some r) : ∃ pk, w.inst.pk = some pk ∧ w.rows pk = some r :=
  Option.bind_eq_some_iff.mp hrow

/-- Stamping leaves the primary key alone. -/
@[simp] theorem stamped_pk (now : Time) : (w.stamped st now).pk = w.inst.pk := by
  unfold stamped
  split <;> rfl

/-- A save that does not stamp leaves the fields as they were fetched. -/
theorem stamped_of_not_stamps (hno : w.stamps st = false) (now : Time) :
    w.stamped st now = w.fetched st :=
  if_neg (by simp [hno])

private theorem contains_stamped_status (now : Time) :
    (w.stamped st now).deferred.contains "status" = false := by
  unfold stamped fetched
  split <;> simp

private theorem contains_stamped_time (hyes : w.stamps st = true) (now : Time) :
    (w.stamped st now).deferred.contains "status_changed_at" = false := by
  unfold stamped
  rw [if_pos hyes]
  simp

/-- Fetching the status leaves the time deferred if it was. -/
theorem contains_fetched_time :
    (w.fetched st).deferred.contains "status_changed_at" =
      w.inst.deferred.contains "status_changed_at" := by
  unfold fetched
  rw [Bool.eq_iff_iff]
  simp

/-- Without `update_fields` none are handed on. -/
theorem handedOn_none : w.handedOn st none = none := by
  unfold handedOn
  split <;> rfl

/-- A save that does not raise sends what the base class sends. -/
theorem sends_eq (hst : w.status = some st) (hraises : s.raises = false) :
    w.sends s = (superSave w.rows (w.stamped st s.now) s.nextPk (w.handedOn st s.updateFields)).map
      (st, ·) := by
  simp only [sends, hst, hraises, Option.bind_eq_bind, Option.bind_some, Bool.false_eq_true, if_false]
  exact Option.map_eq_bind.symm

/-- A save that raises sends nothing. -/
theorem sends_of_raises (hraises : s.raises = true) : w.sends s = none := by
  unfold sends
  cases w.status with
  | none => rfl
  | some st => simp [hraises]

/-- A save without a status sends nothing. -/
theorem sends_of_no_status (hst : w.status = none) : w.sends s = none := by
  simp [sends, hst]

private theorem rows_of_refused (h : w.sends s = none) : (w.save s).rows = w.rows := by
  simp [save, h]

/-- The rows after a save are those after its statement. -/
theorem rows_of_sends (h : w.sends s = some (st, stmt)) :
    (w.save s).rows = stmt.apply st (w.stamped st s.now) w.rows := by
  simp [save, h]

/-- What a save may send to a table that has its row. -/
inductive SendsUpdate (w : World) (s : Save) (st : StatusText) (pk : Nat) : Statement → Prop
  | skips : w.stamps st = false → s.updateFields = some [] → SendsUpdate w s st pk .nothing
  | writes {writes : String → Bool} : writes "status" = writesStatus s.updateFields →
      (w.stamps st = true → writes "status_changed_at" = true) →
      (w.stamps st = false → (writes "status_changed_at" &&
        !w.inst.deferred.contains "status_changed_at") = w.writesTime s.updateFields) →
      SendsUpdate w s st pk (.update pk writes)

/-- A save over a row updates it. -/
theorem sends_of_row (hst : w.status = some st) (hraises : s.raises = false)
    (hpk : w.inst.pk = some pk) (hr : w.rows pk = some r) :
    ∃ stmt, w.sends s = some (st, stmt) ∧ SendsUpdate w s st pk stmt := by
  rw [sends_eq hst hraises]
  cases hfields : s.updateFields with
  | none =>
    rw [handedOn_none, superSave, stamped_pk, hpk, Option.bind_eq_bind, Option.bind_some, hr]
    split
    · refine ⟨_, rfl, .writes ?_ (fun hyes => ?_) fun hno => ?_⟩
      · rw [contains_stamped_status, hfields]
        rfl
      · rw [contains_stamped_time hyes]
        rfl
      · rw [stamped_of_not_stamps hno, contains_fetched_time, Bool.and_self, hfields]
        rfl
    · simp only [hr, Option.isSome_some, if_true]
      refine ⟨_, rfl, .writes ?_ (fun _ => rfl) fun _ => ?_⟩
      · rw [hfields]
        rfl
      · rw [hfields]
        rfl
  | some names =>
    cases hstamps : w.stamps st with
    | true =>
      have hhanded : w.handedOn st (some names) = some ("status_changed_at" :: names) :=
        if_pos hstamps
      rw [hhanded, superSave, stamped_pk, hpk, Option.bind_eq_bind, Option.bind_some, hr]
      · refine ⟨_, rfl, .writes ?_ (fun _ => ?_) fun hno => ?_⟩
        · rw [hfields]
          simp [writesStatus]
        · simp
        · rw [hstamps] at hno
          cases hno
      · exact List.cons_ne_nil _ _
    | false =>
      have hhanded : w.handedOn st (some names) = some names := if_neg (by simp [hstamps])
      rw [hhanded]
      cases names with
      | nil => exact ⟨_, rfl, .skips hstamps hfields⟩
      | cons name names =>
        rw [superSave, stamped_pk, hpk, Option.bind_eq_bind, Option.bind_some, hr]
        · refine ⟨_, rfl, .writes ?_ (fun hyes => ?_) fun _ => ?_⟩
          · rw [hfields]
            rfl
          · rw [hstamps] at hyes
            cases hyes
          · rw [hfields]
            rfl
        · exact List.cons_ne_nil _ _

/-- The save is one that creates a row. -/
def Inserts (w : World) (s : Save) (st : StatusText) : Prop :=
  s.updateFields = none ∧ (w.stamped st s.now).deferred = [] ∧
    (w.inst.pk = none → w.rows s.nextPk = none)

/-- A save without a row that inserts writes a new one. -/
theorem sends_of_inserts (hst : w.status = some st) (hraises : s.raises = false)
    (hrow : w.row = none) (hinserts : w.Inserts s st) :
    ∃ pk, w.rows pk = none ∧ w.sends s = some (st, .insert pk) := by
  obtain ⟨hfields, hdeferred, hnext⟩ := hinserts
  rw [sends_eq hst hraises, hfields, handedOn_none, superSave, if_neg (by simp [hdeferred]),
    stamped_pk]
  cases hpk : w.inst.pk with
  | none =>
    have hfree := hnext hpk
    exact ⟨s.nextPk, hfree, by simp [hfree]⟩
  | some pk =>
    have hgone : w.rows pk = none := by
      rw [row, hpk] at hrow
      exact hrow
    exact ⟨pk, hgone, by simp [hgone]⟩

/-- A save without a row that does not insert writes nothing. -/
theorem sends_of_not_inserts (hst : w.status = some st) (hraises : s.raises = false)
    (hrow : w.row = none) (hnot : ¬w.Inserts s st) :
    w.sends s = none ∨ w.sends s = some (st, .nothing) := by
  have hlost : (do let pk ← w.inst.pk; w.rows pk) = none := hrow
  have hupdate (writes : String → Bool) : (do
      let pk ← w.inst.pk
      let _ ← w.rows pk
      pure (Statement.update pk writes)) = none := by
    cases hpk : w.inst.pk with
    | none => rfl
    | some pk =>
      rw [hpk, Option.bind_eq_bind, Option.bind_some] at hlost
      rw [Option.bind_eq_bind, Option.bind_some, hlost]
      rfl
  rw [sends_eq hst hraises]
  cases hfields : s.updateFields with
  | some names =>
    cases hhanded : w.handedOn st (some names) with
    | none =>
      unfold handedOn at hhanded
      split at hhanded <;> cases hhanded
    | some sent =>
      cases sent with
      | nil => exact .inr rfl
      | cons name sent =>
        rw [superSave, stamped_pk, hupdate]
        · exact .inl rfl
        · exact List.cons_ne_nil _ _
  | none =>
    rw [handedOn_none, superSave, stamped_pk]
    split
    · rw [hupdate]
      exact .inl rfl
    · rename_i hdeferred
      have htaken : ¬(w.inst.pk = none → w.rows s.nextPk = none) :=
        fun hnext => hnot ⟨hfields, Decidable.not_not.mp hdeferred, hnext⟩
      obtain ⟨hpk, htaken⟩ := Classical.not_imp.mp htaken
      rw [hpk]
      exact .inl (by simp [Option.isSome_iff_ne_none.mpr htaken])

/-! ### What a save does -/

/-- An update leaves the other rows alone. -/
theorem SendsUpdate.others {k : Nat} (h : SendsUpdate w s st pk stmt) (hk : k ≠ pk)
    (inst : Instance) : stmt.apply st inst w.rows k = w.rows k := by
  cases h with
  | skips => rfl
  | writes => exact if_neg hk

/-- What a save does to its row. -/
theorem SendsUpdate.row (h : SendsUpdate w s st pk stmt) (hr : w.rows pk = some r) :
    ∃ r', stmt.apply st (w.stamped st s.now) w.rows pk = some r' ∧
      (r'.status ≠ r.status ↔ writesStatus s.updateFields = true ∧ st ≠ r.status) ∧
      (w.stamps st = false → (r'.statusChangedAt ≠ r.statusChangedAt ↔
        w.writesTime s.updateFields = true ∧ w.inst.statusChangedAt ≠ r.statusChangedAt)) := by
  cases h with
  | skips _ hfields =>
    refine ⟨r, hr, ?_, fun _ => ?_⟩
    · simp [hfields, writesStatus]
    · simp [hfields, writesTime]
  | @writes writes hstatus _ htime =>
    refine ⟨r.written st (w.stamped st s.now) writes, ?_, ?_, fun hno => ?_⟩
    · have hself : (Statement.update pk writes).apply st (w.stamped st s.now) w.rows pk =
          (w.rows pk).map (·.written st (w.stamped st s.now) writes) := if_pos rfl
      rw [hself, hr]
      rfl
    · rw [Row.written, hstatus]
      cases writesStatus s.updateFields with
      | true => simp
      | false => simp
    · rw [Row.written, stamped_of_not_stamps hno, contains_fetched_time, htime hno]
      cases w.writesTime s.updateFields with
      | true => simp [fetched]
      | false => simp

/-- Where the row is there, a save tracks the status if and only if it is served. -/
theorem tracks_iff_of_row (hst : w.status = some st) (hraises : s.raises = false)
    (hrow : w.row = some r) : w.Tracks s ↔
      ((w.stamps st = true ∨
        w.writesTime s.updateFields = true ∧ w.inst.statusChangedAt ≠ r.statusChangedAt) ↔
      writesStatus s.updateFields = true ∧ st ≠ r.status) := by
  obtain ⟨pk, hpk, hr⟩ := row_eq_some hrow
  obtain ⟨stmt, hsends, hupdate⟩ := sends_of_row hst hraises hpk hr
  obtain ⟨r', hr', hmoved, htime⟩ := hupdate.row hr
  have hrows := rows_of_sends hsends
  have hothers {k : Nat} (hk : k ≠ pk) : (w.save s).rows k = w.rows k := by
    rw [hrows, hupdate.others hk]
  rw [← hrows] at hr'
  have hcreates : ¬w.Creates s := by
    rintro ⟨k, hk, hnew⟩
    have hne : k ≠ pk := by
      rintro rfl
      rw [hr] at hk
      cases hk
    exact hnew (by rw [hothers hne, hk])
  -- What a save changes, it changes in its row.
  have honly {P : Row → Row → Prop} (hirrefl : ∀ x, ¬P x x) :
      (∃ k x x', w.rows k = some x ∧ (w.save s).rows k = some x' ∧ P x' x) ↔ P r' r := by
    constructor
    · rintro ⟨k, x, x', hx, hx', hP⟩
      by_cases hk : k = pk
      · subst hk
        rw [hr] at hx
        rw [hr'] at hx'
        cases hx
        cases hx'
        exact hP
      · rw [hothers hk, hx] at hx'
        cases hx'
        exact absurd hP (hirrefl _)
    · exact fun hP => ⟨pk, r, r', hr, hr', hP⟩
  have hmoves : w.Moves s ↔ writesStatus s.updateFields = true ∧ st ≠ r.status :=
    (honly (P := fun x' x => x'.status ≠ x.status) fun _ hne => hne rfl).trans hmoved
  have hrestamps : w.Restamps s ↔ (w.stamps st = true ∨
      w.writesTime s.updateFields = true ∧ w.inst.statusChangedAt ≠ r.statusChangedAt) := by
    unfold Restamps
    rw [honly (P := fun x' x => x'.statusChangedAt ≠ x.statusChangedAt) fun _ hne => hne rfl]
    cases hstamps : w.stamps st with
    | true =>
      refine iff_of_true (.inl ⟨st, stmt, hsends, hstamps, ?_⟩) (.inl rfl)
      cases hupdate with
      | skips hno =>
        rw [hstamps] at hno
        cases hno
      | writes _ hyes => exact hyes hstamps
    | false =>
      rw [htime hstamps]
      refine or_congr (iff_of_false ?_ Bool.false_ne_true) Iff.rfl
      rintro ⟨st', stmt', hsends', hstamps', -⟩
      rw [hsends] at hsends'
      cases hsends'
      rw [hstamps] at hstamps'
      cases hstamps'
  rw [Tracks, hrestamps, hmoves, or_iff_right hcreates]

/-- A save that leaves the rows alone and sets no time tracks the status. -/
theorem tracks_of_same_rows (hrows : (w.save s).rows = w.rows)
    (hsets : ∀ st stmt, w.sends s = some (st, stmt) → stmt.sets "status_changed_at" = false) :
    w.Tracks s := by
  refine iff_of_false ?_ ?_
  · rintro (⟨st, stmt, hsends, -, hyes⟩ | ⟨k, x, x', hx, hx', hne⟩)
    · rw [hsets st stmt hsends] at hyes
      cases hyes
    · rw [hrows, hx] at hx'
      cases hx'
      exact hne rfl
  · rintro (⟨k, hk, hnew⟩ | ⟨k, x, x', hx, hx', hne⟩)
    · exact hnew (by rw [hrows, hk])
    · rw [hrows, hx] at hx'
      cases hx'
      exact hne rfl

/-- A save that is refused tracks the status. -/
theorem tracks_of_refused (hrefused : w.sends s = none) : w.Tracks s :=
  tracks_of_same_rows (rows_of_refused hrefused) fun st stmt h => by
    rw [hrefused] at h
    cases h

/-- Where the row is not there, a save tracks the status if and only if it stamps what it
creates. -/
theorem tracks_iff_of_no_row (hst : w.status = some st) (hraises : s.raises = false)
    (hrow : w.row = none) : w.Tracks s ↔ (w.Inserts s st → w.stamps st = true) := by
  by_cases hinserts : w.Inserts s st
  · obtain ⟨pk, hfree, hsends⟩ := sends_of_inserts hst hraises hrow hinserts
    have hrows := rows_of_sends hsends
    have hcreates : w.Creates s := ⟨pk, hfree, by simp [hrows, Statement.apply]⟩
    have hsame {k : Nat} {x x' : Row} (hx : w.rows k = some x) (hx' : (w.save s).rows k = some x') :
        x' = x := by
      have hk : k ≠ pk := by
        rintro rfl
        rw [hfree] at hx
        cases hx
      have hkept : (w.save s).rows k = w.rows k := by
        rw [hrows]
        exact if_neg hk
      rw [hkept, hx] at hx'
      exact (Option.some.inj hx').symm
    have hrestamps : w.Restamps s ↔ w.stamps st = true := by
      constructor
      · rintro (⟨st', stmt', hsends', hstamps, -⟩ | ⟨k, x, x', hx, hx', hne⟩)
        · rw [hsends] at hsends'
          cases hsends'
          exact hstamps
        · exact absurd (congrArg Row.statusChangedAt (hsame hx hx')) hne
      · exact fun hstamps => .inl ⟨st, _, hsends, hstamps, rfl⟩
    rw [Tracks, hrestamps, iff_true_right (Or.inl hcreates)]
    exact ⟨fun hstamps _ => hstamps, fun h => h hinserts⟩
  · refine iff_of_true ?_ fun h => absurd h hinserts
    obtain hrefused | hskips := sends_of_not_inserts hst hraises hrow hinserts
    · exact tracks_of_refused hrefused
    · refine tracks_of_same_rows (rows_of_sends hskips) fun st' stmt' h => ?_
      rw [hskips] at h
      cases h
      rfl

private theorem deferred_stamped_eq_nil (hno : w.stamps st = false) (now : Time) :
    (w.stamped st now).deferred = [] ↔ ∀ name ∈ w.inst.deferred, name = "status" := by
  rw [stamped_of_not_stamps hno, fetched, List.filter_eq_nil_iff]
  simp

/-- A save tracks the status if and only if what the instance remembers serves it. -/
theorem tracks_iff_served (w : World) (s : Save) : w.Tracks s ↔ w.Served s := by
  cases hraises : s.raises with
  | true =>
    refine iff_of_true (tracks_of_refused (sends_of_raises hraises)) fun _ _ hno => ?_
    rw [hraises] at hno
    cases hno
  | false =>
    cases hst : w.status with
    | none =>
      refine iff_of_true (tracks_of_refused (sends_of_no_status hst)) fun _ hsome _ => ?_
      rw [hst] at hsome
      cases hsome
    | some st =>
      cases hrow : w.row with
      | some r =>
        rw [tracks_iff_of_row hst hraises hrow, Served]
        simp only [hst, hraises, hrow, Option.some.injEq, forall_eq', forall_const]
      | none =>
        rw [tracks_iff_of_no_row hst hraises hrow, Served]
        simp only [hst, hraises, hrow, Option.some.injEq, forall_eq', forall_const]
        cases hstamps : w.stamps st with
        | true => exact iff_of_true (fun _ => rfl) fun _ _ _ => rfl
        | false =>
          rw [Inserts, deferred_stamped_eq_nil hstamps, and_imp, and_imp]

/-! ### Over a run -/

/-- Every save of the events is one of which the property holds. -/
def AllSaves (P : World → Save → Prop) : List Event → World → Prop
  | [], _ => True
  | .save s :: es, w => P w s ∧ AllSaves P es (w.step (.save s))
  | e :: es, w => AllSaves P es (w.step e)

private theorem allSaves_congr {P Q : World → Save → Prop} (h : ∀ w s, P w s ↔ Q w s)
    (es : List Event) (w : World) : AllSaves P es w ↔ AllSaves Q es w := by
  induction es generalizing w with
  | nil => exact Iff.rfl
  | cons e es ih =>
    cases e with
    | save s => exact and_congr (h w s) (ih _)
    | _ => exact ih _

/-- The new time goes with the status in every save of a run if and only if what the instance
remembers serves every one of them. -/
theorem saves_track_status (es : List Event) (w : World) :
    AllSaves Tracks es w ↔ AllSaves Served es w :=
  allSaves_congr tracks_iff_served es w

/-- Row 1, loaded while it is active. -/
def loadedActive : World where
  rows := fun pk => if pk = 1 then some ⟨"active", 0⟩ else none
  inst := .fromDb 1 [] ⟨"active", 0⟩

/-- A tenant is set to failed and saved, and then set back and saved. The remembered status is the
one it was loaded with, so that the second save finds no change. -/
def setBack : List Event :=
  [.assignStatus "failed", .save ⟨none, 1, 2, false⟩,
    .assignStatus "active", .save ⟨none, 2, 2, false⟩]

/-- A status that is set back and saved again is a change without a stamp. -/
theorem saves_track_status_fails : ¬AllSaves Tracks setBack loadedActive := by
  rintro ⟨-, hback, -⟩
  have hserved := (tracks_iff_served _ _).mp hback "active" rfl rfl
  obtain hstamps | ⟨-, hne⟩ := hserved.mpr ⟨rfl, by decide⟩
  · exact absurd hstamps (by decide)
  · exact hne rfl

/-- The remembered status is the stored one. -/
def Current (w : World) : Prop :=
  ∀ r, w.row = some r → w.inst.adding = false ∧ w.inst.loadedStatus = some r.status

/-- A save of an instance that remembers the stored status is served if and only if it writes the
status that has changed, and puts no time of its own over another one. -/
theorem served_iff_of_current (hcurrent : w.Current) (hst : w.status = some st)
    (hraises : s.raises = false) (hrow : w.row = some r) : w.Served s ↔
      if st = r.status then
        w.writesTime s.updateFields = true → w.inst.statusChangedAt = r.statusChangedAt
      else writesStatus s.updateFields = true := by
  obtain ⟨hadding, hloaded⟩ := hcurrent r hrow
  have hstamps : w.stamps st = true ↔ st ≠ r.status := by
    simp [stamps, hadding, hloaded]
  rw [Served]
  simp only [hst, hraises, hrow, Option.some.injEq, forall_eq', forall_const, hstamps]
  split
  · rename_i hsame
    simp [hsame]
  · rename_i hother
    simp [hother]

/-- The events that leave the remembered status the stored one. -/
def Keeps (w : World) : Event → Prop
  | .load _ deferred => "status" ∉ deferred
  | .assignPk _ => False
  | .save s => ¬w.Creates s ∧ ¬w.Moves s
  | _ => True

private theorem sends_cases (hsends : w.sends s = some (st, stmt)) :
    stmt = .nothing ∨ (∃ pk writes, stmt = .update pk writes ∧ w.inst.pk = some pk) ∨
      ∃ pk, stmt = .insert pk ∧ w.rows pk = none := by
  have hraises : s.raises = false := by
    refine Bool.eq_false_iff.mpr fun hraises => ?_
    rw [sends_of_raises hraises] at hsends
    cases hsends
  cases hst : w.status with
  | none =>
    rw [sends_of_no_status hst] at hsends
    cases hsends
  | some st' =>
    cases hrow : w.row with
    | some r =>
      obtain ⟨pk, hpk, hr⟩ := row_eq_some hrow
      obtain ⟨stmt', hsends', hupdate⟩ := sends_of_row hst hraises hpk hr
      rw [hsends] at hsends'
      cases hsends'
      cases hupdate with
      | skips => exact .inl rfl
      | writes => exact .inr (.inl ⟨pk, _, rfl, hpk⟩)
    | none =>
      by_cases hinserts : w.Inserts s st'
      · obtain ⟨pk, hfree, hsends'⟩ := sends_of_inserts hst hraises hrow hinserts
        rw [hsends] at hsends'
        cases hsends'
        exact .inr (.inr ⟨pk, rfl, hfree⟩)
      · obtain hsends' | hsends' := sends_of_not_inserts hst hraises hrow hinserts
        · rw [hsends] at hsends'
          cases hsends'
        · rw [hsends] at hsends'
          cases hsends'
          exact .inl rfl

/-- Stamping leaves alone what the instance remembers of its load. -/
theorem stamped_remembers (w : World) (st : StatusText) (now : Time) :
    (w.stamped st now).loadedStatus = w.inst.loadedStatus ∧
      (w.stamped st now).adding = w.inst.adding := by
  unfold stamped
  split <;> exact ⟨rfl, rfl⟩

/-- A save that creates nothing leaves the key and what is remembered. -/
theorem save_remembers (hcreates : ¬w.Creates s) :
    (w.save s).inst.pk = w.inst.pk ∧ (w.save s).inst.loadedStatus = w.inst.loadedStatus ∧
      (w.inst.adding = false → (w.save s).inst.adding = false) := by
  cases hsends : w.sends s with
  | none =>
    rw [save, hsends]
    cases w.status with
    | none => exact ⟨rfl, rfl, fun h => h⟩
    | some st =>
      obtain ⟨hloaded, hadding⟩ := stamped_remembers w st s.now
      exact ⟨stamped_pk s.now, hloaded, hadding.trans⟩
  | some sent =>
    obtain ⟨st, stmt⟩ := sent
    obtain ⟨hloaded, hadding⟩ := stamped_remembers w st s.now
    have hinst : (w.save s).inst = stmt.saved (w.stamped st s.now) := by rw [save, hsends]
    rw [hinst]
    obtain rfl | ⟨pk, writes, rfl, hpk⟩ | ⟨pk, rfl, hfree⟩ := sends_cases hsends
    · exact ⟨stamped_pk s.now, hloaded, hadding.trans⟩
    · exact ⟨hpk.symm, hloaded, fun _ => rfl⟩
    · refine absurd ⟨pk, hfree, ?_⟩ hcreates
      rw [rows_of_sends hsends]
      simp [Statement.apply]

private theorem current_save (hcurrent : w.Current) (hcreates : ¬w.Creates s) (hmoves : ¬w.Moves s) :
    (w.save s).Current := by
  intro r' hr'
  obtain ⟨pk, hpk, hrow'⟩ := row_eq_some hr'
  obtain ⟨hpk', hloaded', hadding'⟩ := save_remembers hcreates
  rw [hpk'] at hpk
  have hrow : w.row = w.rows pk := by rw [row, hpk, Option.bind_some]
  cases hr : w.rows pk with
  | none => exact absurd ⟨pk, hr, by simp [hrow']⟩ hcreates
  | some r =>
    have hsame : r'.status = r.status :=
      Decidable.of_not_not fun hne => hmoves ⟨pk, r, r', hr, hrow', hne⟩
    obtain ⟨hadding, hloaded⟩ := hcurrent r (hrow.trans hr)
    exact ⟨hadding' hadding, by rw [hloaded', hloaded, hsame]⟩

private theorem current_step {e : Event} (hcurrent : w.Current) (hkeeps : w.Keeps e) :
    (w.step e).Current := by
  cases e with
  | load pk deferred =>
    cases hr : w.rows pk with
    | none =>
      have hsame : w.step (.load pk deferred) = w := by simp [step, hr]
      rw [hsame]
      exact hcurrent
    | some r =>
      have hloaded : w.step (.load pk deferred) = { w with inst := .fromDb pk deferred r } := by
        simp [step, hr]
      rw [hloaded]
      intro r' hr'
      have hsame : r = r' := Option.some.inj (hr.symm.trans hr')
      have hnamed : ¬deferred.contains "status" = true := fun h => hkeeps (List.contains_iff_mem.mp h)
      exact ⟨rfl, (if_neg hnamed).trans (congrArg (some ·.status) hsame)⟩
  | refresh =>
    cases hr : w.row with
    | none =>
      have hsame : w.step .refresh = w := by simp [step, hr]
      rw [hsame]
      exact hcurrent
    | some r =>
      intro r' hr'
      have hkept : (w.step .refresh).inst.pk = w.inst.pk ∧ (w.step .refresh).rows = w.rows ∧
          (w.step .refresh).inst.adding = w.inst.adding ∧
          (w.step .refresh).inst.loadedStatus = w.inst.loadedStatus := by
        simp [step, hr]
      obtain ⟨hpk, hrows, hadding, hloaded⟩ := hkept
      rw [row, hpk, hrows] at hr'
      rw [hadding, hloaded]
      exact hcurrent r' hr'
  | assignPk pk => exact hkeeps.elim
  | save s => exact current_save hcurrent hkeeps.1 hkeeps.2
  | _ => exact hcurrent

/-- Every event of a run keeps what is remembered the stored status. -/
def AllKeep : List Event → World → Prop
  | [], _ => True
  | e :: es, w => w.Keeps e ∧ AllKeep es (w.step e)

/-- The remembered status stays the stored one over a run that moves no stored status, creates no
row, leaves the key alone and loads with the status. -/
theorem current_run (es : List Event) (hcurrent : w.Current) (hkeep : AllKeep es w) :
    (es.foldl step w).Current := by
  induction es generalizing w with
  | nil => exact hcurrent
  | cons e es ih => exact ih (current_step hcurrent hkeep.1) hkeep.2

end World

end MtShards.Tenants
