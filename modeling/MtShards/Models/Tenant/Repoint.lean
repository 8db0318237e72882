import MtShards.Core.Blocks
import MtShards.Models.Tenant.Snapshot

/-!
# Re-pointing a domain

`Domain.from_db` and `Domain.save`: the instance remembers the hostname it was loaded with,
and a save that changes it forgets the old host after the commit. The remembered name is
replaced on every save, whether or not the column was written and whether or not the
transaction commits, so that what is forgotten is a matter of whole histories.
-/

namespace MtShards.Domains

open MtShards.Core

/-- A hostname. -/
abbrev Host := String

/-- The in-memory instance. -/
structure Instance where
  /-- The attribute `domain`, or none while its field is deferred. -/
  domain : Option Host
  /-- `_loaded_domain`, or none while it is not set. -/
  loadedDomain : Option Host
  deriving DecidableEq, Repr

/-- The instance, its row and the transaction around them. -/
structure World where
  /-- The hostname in the row, as the connection sees it, if there is a row. -/
  stored : Option Host
  /-- The stored hostname at the start of each atomic block, innermost first. -/
  starts : List (Option Host)
  /-- The hosts for which the hook of `save` has called `forget_host`, or will on commit. -/
  forgets : Deferred Host
  inst : Instance
  /-- The stored hostname when the instance was last loaded or saved. The program does not
  read it. -/
  lastStored : Option Host
  deriving DecidableEq, Repr

/-- One thing that happens to the instance. -/
inductive Event
  /-- The instance is what a query built by `from_db`. -/
  | load (deferred : Bool)
  /-- `refresh_from_db()`; a deferred field stays deferred. -/
  | refresh
  | assign (host : Host)
  /-- `save(update_fields=…)`; `raises` when the database refuses. -/
  | save (updateFields : Option (List String)) (raises : Bool)
  /-- An atomic block around what follows. -/
  | enter
  | commit
  | rollback
  deriving DecidableEq, Repr

/-- `Domain(domain=host)`, before it is saved. -/
def World.unsaved (host : Host) : World := ⟨none, [], .empty, ⟨some host, none⟩, none⟩

/-- A row, and the instance as `from_db` builds it. -/
def World.found (host : Host) (deferred : Bool) : World :=
  ⟨some host, [], .empty, if deferred then ⟨none, none⟩ else ⟨some host, some host⟩, some host⟩

/-- Whether a save with these `update_fields` writes the column `domain`. -/
def writesDomain : Option (List String) → Bool
  | none => true
  | some names => names.contains "domain"

/-- What `Model.save` leaves in the row: all fields are written, inserting the row if need be;
or those named, in a row that must be there; an empty list skips the save. -/
def superSave (updateFields : Option (List String)) (host : Host) (stored : Option Host) :
    Option (Option Host) :=
  match updateFields with
  | none => some (some host)
  | some [] => some stored
  | some names =>
      if stored = none then none
      else some (if names.contains "domain" then some host else stored)

section Steps

/- `normalize_host`. -/
variable (normalize : Host → Host)

/-- `normalize_host(self.domain)`; a deferred field is fetched first. -/
def World.host (w : World) : Option Host := (w.inst.domain.or w.stored).map normalize

/-- What a save that does not raise finds and leaves: the hostname and the new row. -/
def World.saved (w : World) (updateFields : Option (List String)) (raises : Bool) :
    Option (Host × Option Host) := do
  let host ← w.host normalize
  if raises then none
  let stored ← superSave updateFields host w.stored
  pure (host, stored)

/-- `Domain.save`. -/
def World.save (updateFields : Option (List String)) (raises : Bool) (w : World) : World :=
  match w.saved normalize updateFields raises with
  | none =>
      -- The hostname has been normalized when the write raises.
      { w with inst.domain := (w.host normalize).or w.inst.domain }
  | some (host, stored) =>
      { w with
        stored := stored
        forgets :=
          match w.inst.loadedDomain with
          | none => w.forgets
          | some old => if old ≠ host then w.forgets.add old else w.forgets
        inst := ⟨some host, some host⟩
        lastStored := stored }

/-- What an event does. -/
def step (e : Event) (w : World) : World :=
  match e with
  | .load deferred =>
      match w.stored with
      | none => w
      | some host => { w with inst := (World.found host deferred).inst, lastStored := some host }
  | .refresh =>
      match w.stored with
      | none => w
      | some host => { w with inst.domain := w.inst.domain.map fun _ => host }
  | .assign host => { w with inst.domain := some host }
  | .save updateFields raises => w.save normalize updateFields raises
  | .enter => { w with starts := w.stored :: w.starts, forgets := w.forgets.enter }
  | .commit => { w with starts := w.starts.tail, forgets := w.forgets.commit }
  | .rollback =>
      { w with
        stored := w.starts.head?.getD w.stored
        starts := w.starts.tail
        forgets := w.forgets.rollback }

/-- The hostnames that were replaced in the row, by the blocks that replaced them, and those
whose replacement is committed. It looks at the row alone. -/
def replaced (e : Event) (before after : Option Host) (l : Deferred Host) : Deferred Host :=
  match e with
  | .save _ _ =>
      match before with
      | none => l
      | some old => if after ≠ some old then l.add old else l
  | .enter => l.enter
  | .commit => l.commit
  | .rollback => l.rollback
  | _ => l

/-- A history: the world after the events and the replaced hostnames. -/
def history : List Event → World × Deferred Host → World × Deferred Host
  | [], s => s
  | e :: es, (w, l) =>
      let w' := step normalize e w
      history es (w', replaced e w.stored w'.stored l)

/-- What keeps a save in step with the row. -/
structure Careful (updateFields : Option (List String)) (w : World) (host : Host) : Prop where
  /-- It writes the column, or the hostname is the stored one. -/
  written : writesDomain updateFields = true ∨ w.stored = some host
  /-- No rollback took back the stored hostname since the instance was loaded or saved; or it
  took back the row, and the same hostname is saved again. -/
  current : w.stored = w.lastStored ∨ w.stored = none ∧ w.lastStored = some host
  /-- An instance loaded without its hostname is not re-pointed by its first save. -/
  remembered : w.inst.loadedDomain = none → w.stored = none ∨ w.stored = some host

instance (updateFields : Option (List String)) (w : World) (host : Host) :
    Decidable (Careful updateFields w host) :=
  decidable_of_iff ((writesDomain updateFields = true ∨ w.stored = some host) ∧
      (w.stored = w.lastStored ∨ w.stored = none ∧ w.lastStored = some host) ∧
      (w.inst.loadedDomain = none → w.stored = none ∨ w.stored = some host))
    ⟨fun h => ⟨h.1, h.2.1, h.2.2⟩, fun h => ⟨h.written, h.current, h.remembered⟩⟩

/-- Every save of the history that does not raise is careful. -/
def AllCareful : List Event → World → Prop
  | [], _ => True
  | e :: es, w =>
      (match e with
        | .save updateFields raises => ∀ r ∈ w.saved normalize updateFields raises,
            Careful updateFields w r.1
        | _ => True) ∧ AllCareful es (step normalize e w)

/-! ### What a careful save forgets -/

/-- The hook is in step with the row: it forgets what was replaced. -/
structure InStep (w : World) (l : Deferred Host) : Prop where
  forgets : w.forgets = l
  loaded : w.inst.loadedDomain = none ∨ w.inst.loadedDomain = w.lastStored
  tracked : Tracked w.stored w.starts l.blocks

private theorem superSave_cases {updateFields : Option (List String)} {host : Host}
    {before after : Option Host} (h : superSave updateFields host before = some after) :
    (writesDomain updateFields = true ∧ after = some host) ∨
      (writesDomain updateFields = false ∧ after = before) := by
  unfold superSave at h
  split at h
  · cases h
    exact .inl ⟨rfl, rfl⟩
  · cases h
    exact .inr ⟨rfl, rfl⟩
  · split at h
    · cases h
    · next names _ _ =>
      cases h
      by_cases hd : names.contains "domain" = true
      · rw [if_pos hd]
        exact .inl ⟨hd, rfl⟩
      · rw [if_neg hd]
        exact .inr ⟨Bool.eq_false_iff.mpr hd, rfl⟩

variable {normalize : Host → Host}

private theorem saved_some {w : World} {updateFields : Option (List String)} {raises : Bool} {host : Host}
    {after : Option Host} (h : w.saved normalize updateFields raises = some (host, after)) :
    superSave updateFields host w.stored = some after := by
  unfold World.saved at h
  obtain ⟨host', -, h⟩ := Option.bind_eq_some_iff.mp h
  cases raises with
  | true => cases h
  | false =>
    obtain ⟨after', hafter, h⟩ := Option.bind_eq_some_iff.mp h
    cases h
    exact hafter

/-- A careful save leaves its hostname in the row. -/
theorem Careful.stored_eq {w : World} {updateFields : Option (List String)} {host : Host}
    {after : Option Host} (hc : Careful updateFields w host)
    (h : superSave updateFields host w.stored = some after) : after = some host := by
  rcases superSave_cases h with ⟨-, hafter⟩ | ⟨hno, hafter⟩
  · exact hafter
  · rcases hc.written with hyes | hstored
    · rw [hno] at hyes
      cases hyes
    · rw [hafter, hstored]

/-- In a careful save the hook forgets the hostname that is replaced in the row. -/
theorem Careful.forgets_eq {w : World} {l : Deferred Host}
    {updateFields : Option (List String)} {host : Host} (hc : Careful updateFields w host)
    (hloaded : w.inst.loadedDomain = none ∨ w.inst.loadedDomain = w.lastStored) :
    (match w.inst.loadedDomain with
      | none => l
      | some old => if old ≠ host then l.add old else l) =
    (match w.stored with
      | none => l
      | some old => if some host ≠ some old then l.add old else l) := by
  rcases hloaded with hnone | hlast
  · -- No name is remembered: there is no row, or it has the hostname already.
    rw [hnone]
    rcases hc.remembered hnone with hstored | hstored
    · rw [hstored]
    · simp [hstored]
  · rw [hlast]
    rcases hc.current with hcur | ⟨hstored, hcur⟩
    · rw [hcur]
      cases w.lastStored with
      | none => rfl
      | some old => simp [eq_comm]
    · simp [hstored, hcur]

theorem InStep.save {w : World} {l : Deferred Host} (h : InStep w l)
    {updateFields : Option (List String)} {raises : Bool}
    (hc : ∀ r ∈ w.saved normalize updateFields raises, Careful updateFields w r.1) :
    InStep (w.save normalize updateFields raises)
      (replaced (.save updateFields raises) w.stored
        (w.save normalize updateFields raises).stored l) := by
  obtain ⟨hforgets, hloaded, htracked⟩ := h
  unfold World.save
  cases hsaved : w.saved normalize updateFields raises with
  | none =>
    have hsame : replaced (.save updateFields raises) w.stored w.stored l = l := by
      cases hs : w.stored with
      | none => rfl
      | some old => simp [replaced]
    simp only
    rw [hsame]
    exact ⟨hforgets, hloaded, htracked⟩
  | some r =>
    obtain ⟨host, after⟩ := r
    have hcareful : Careful updateFields w host := hc (host, after) hsaved
    obtain rfl : after = some host := hcareful.stored_eq (saved_some hsaved)
    refine ⟨?_, .inr rfl, ?_⟩
    · rw [hforgets]
      exact hcareful.forgets_eq hloaded
    · simp only [replaced]
      cases hstored : w.stored with
      | none =>
        rw [hstored] at htracked
        exact htracked.appear
      | some old =>
        rw [hstored] at htracked
        by_cases hne : some host ≠ some old
        · simp only [if_pos hne]
          exact htracked.add rfl
        · simp only [if_neg hne]
          rw [not_not.mp hne]
          exact htracked

/-- One event of a careful history keeps the hook in step. -/
theorem InStep.step {w : World} {l : Deferred Host} (h : InStep w l) {e : Event}
    (hc : AllCareful normalize [e] w) :
    InStep (step normalize e w) (replaced e w.stored (step normalize e w).stored l) := by
  obtain ⟨hforgets, hloaded, htracked⟩ := h
  cases e with
  | load deferred =>
    cases hstored : w.stored with
    | none =>
      simp only [Domains.step, hstored, replaced]
      exact ⟨hforgets, hloaded, htracked⟩
    | some host =>
      simp only [Domains.step, hstored, replaced]
      refine ⟨hforgets, ?_, hstored ▸ htracked⟩
      cases deferred with
      | true => exact .inl rfl
      | false => exact .inr rfl
  | refresh =>
    cases hstored : w.stored with
    | none =>
      simp only [Domains.step, hstored, replaced]
      exact ⟨hforgets, hloaded, htracked⟩
    | some host =>
      simp only [Domains.step, hstored, replaced]
      exact ⟨hforgets, hloaded, hstored ▸ htracked⟩
  | assign host => exact ⟨hforgets, hloaded, htracked⟩
  | save updateFields raises => exact InStep.save ⟨hforgets, hloaded, htracked⟩ hc.1
  | enter => exact ⟨congrArg Deferred.enter hforgets, hloaded, htracked.enter⟩
  | commit => exact ⟨congrArg Deferred.commit hforgets, hloaded, htracked.commit⟩
  | rollback => exact ⟨congrArg Deferred.rollback hforgets, hloaded, htracked.rollback⟩

/-- A careful history keeps the hook in step. -/
theorem InStep.history {w : World} {l : Deferred Host} (h : InStep w l) {es : List Event}
    (hc : AllCareful normalize es w) :
    InStep (history normalize es (w, l)).1 (history normalize es (w, l)).2 := by
  induction es generalizing w l with
  | nil => exact h
  | cons e es ih =>
    obtain ⟨he, hes⟩ := hc
    exact ih (h.step ⟨he, trivial⟩) hes

/-- How an instance comes about. -/
def Started (w : World) : Prop :=
  (∃ host, w = .unsaved host) ∨ ∃ host deferred, w = .found host deferred

theorem Started.inStep {w : World} (h : Started w) : InStep w .empty := by
  rcases h with ⟨host, rfl⟩ | ⟨host, deferred, rfl⟩
  · exact ⟨rfl, .inl rfl, trivial⟩
  · refine ⟨rfl, ?_, trivial⟩
    cases deferred with
    | true => exact .inl rfl
    | false => exact .inr rfl

/-- In a history of careful saves the hook has forgotten just the hostnames whose replacement
is committed, in their order; and a commit that changes the hostname of the row forgets the
one that was there before. -/
theorem repoint_forgets_replaced {w : World} (hw : Started w) {es : List Event}
    (hc : AllCareful normalize es w) :
    (history normalize es (w, .empty)).1.forgets.done =
        (history normalize es (w, .empty)).2.done ∧
      ∀ old, (history normalize es (w, .empty)).1.starts = [some old] →
        (history normalize es (w, .empty)).1.stored ≠ some old →
        ∃ calls, (step normalize .commit (history normalize es (w, .empty)).1).forgets.done =
          (history normalize es (w, .empty)).1.forgets.done ++ calls ∧ old ∈ calls := by
  obtain ⟨hforgets, -, htracked⟩ := hw.inStep.history hc
  refine ⟨congrArg Deferred.done hforgets, ?_⟩
  intro old hstarts hne
  rw [hstarts, ← hforgets] at htracked
  obtain ⟨calls, hcalls, hmem⟩ := htracked.done_commit
  exact ⟨calls, hcalls, hmem old rfl hne⟩

end Steps

/-- A re-point in a transaction, one that is rolled back with the instance loaded again, and one
outside of any transaction. -/
def careful : List Event :=
  [.enter, .assign "b", .save none false, .commit,
    .enter, .assign "c", .save (some ["domain"]) false, .rollback, .load false,
    .assign "d", .save none false]

theorem repoint_forgets_careful :
    Started (.found "a" false) ∧ AllCareful id careful (.found "a" false) ∧
      (history id careful (.found "a" false, .empty)).1.forgets.done = ["a", "b"] ∧
      (history id careful (.found "a" false, .empty)).1.forgets.done =
        (history id careful (.found "a" false, .empty)).2.done := by
  have hw : Started (.found "a" false) := .inr ⟨"a", false, rfl⟩
  have hc : AllCareful id careful (.found "a" false) := by
    simp only [careful, AllCareful]
    decide
  exact ⟨hw, hc, by decide, (repoint_forgets_replaced hw hc).1⟩

/-- The hostname is assigned and another field is saved. -/
def otherField : List Event := [.assign "b", .save (some ["is_primary"]) false]

/-- A transaction that re-points is rolled back and tried again. -/
def triedAgain : List Event :=
  [.enter, .assign "b", .save none false, .rollback, .save none false]

/-- A save of another field forgets a host that the row still has; and a re-point that is tried
again after a rollback forgets nothing. -/
theorem repoint_forgets_wrong :
    (history id otherField (.found "a" false, .empty)).1.forgets.done = ["a"] ∧
      (history id otherField (.found "a" false, .empty)).2.done = [] ∧
      (history id otherField (.found "a" false, .empty)).1.stored = some "a" ∧
      (history id triedAgain (.found "a" false, .empty)).1.forgets.done = [] ∧
      (history id triedAgain (.found "a" false, .empty)).2.done = ["a"] ∧
      (history id triedAgain (.found "a" false, .empty)).1.stored = some "b" := by
  decide

end MtShards.Domains
