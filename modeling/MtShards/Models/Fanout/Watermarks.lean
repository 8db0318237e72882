import Mathlib.Order.Bounds.Basic
import MtShards.Core.Events
import MtShards.Models.Fanout.Calendar

/-!
# Concurrent stamps of the watermarks

`mark_ran` is two statements outside of a transaction, and each of them deals with its rows one
at a time. Any number of calls may be under way at once, with their rows in any order and
interleaved in any way; the only order there is is that a call starts its `UPDATE` when its
`INSERT` is over.
-/

namespace MtShards.Fanout

open MtShards.Core

/-- The arguments of one `mark_ran`. -/
structure MarkRan where
  task : String
  argsSig : String
  schemas : List SchemaName
  runTs : Int
  deriving DecidableEq, Repr

/-- The rows a call is about. -/
def MarkRan.keys (m : MarkRan) : List RunKey := m.schemas.map fun s => ⟨s, m.task, m.argsSig⟩

/-- The rows that the two statements of a call have still to deal with. -/
structure Todo where
  inserts : List RunKey
  updates : List RunKey
  deriving DecidableEq, Repr

/-- The table, and where each call stands. -/
structure Marking (ι : Type) where
  rows : TaskRuns
  todo : ι → Todo

/-- One row of one statement of a call. -/
inductive Mark (ι : Type)
  | insert (i : ι) (key : RunKey)
  | update (i : ι) (key : RunKey)
  deriving DecidableEq, Repr

variable {ι : Type} {calls : ι → MarkRan} {rows rows₀ : TaskRuns}
  {s s' : Marking ι} {e : Mark ι} {key : RunKey} {i : ι}

/-- No call has begun. -/
def Marking.start (calls : ι → MarkRan) (rows : TaskRuns) : Marking ι :=
  ⟨rows, fun i => ⟨(calls i).keys, (calls i).keys⟩⟩

/-- Every call has returned. -/
def Marking.Finished (s : Marking ι) : Prop := ∀ i, s.todo i = ⟨[], []⟩

section Steps

variable [DecidableEq ι]

/-- A call has tried to insert a row. -/
def Marking.insert (calls : ι → MarkRan) (s : Marking ι) (i : ι) (key : RunKey) : Marking ι :=
  ⟨s.rows.insertRow key (calls i).runTs, Function.update s.todo i
    ⟨(s.todo i).inserts.erase key, (s.todo i).updates⟩⟩

/-- A call has tried to advance a row. -/
def Marking.update (calls : ι → MarkRan) (s : Marking ι) (i : ι) (key : RunKey) : Marking ι :=
  ⟨s.rows.advanceRow key (calls i).runTs, Function.update s.todo i
    ⟨(s.todo i).inserts, (s.todo i).updates.erase key⟩⟩

/-- A row is dealt with. -/
def markStep (calls : ι → MarkRan) (s : Marking ι) : Mark ι → Option (Marking ι)
  | .insert i key => if key ∈ (s.todo i).inserts then some (s.insert calls i key) else none
  | .update i key =>
    if (s.todo i).inserts = [] ∧ key ∈ (s.todo i).updates then some (s.update calls i key)
    else none

/-- The tables that calls may leave on the way from one to another. -/
abbrev Marks (calls : ι → MarkRan) (s s' : Marking ι) : Prop :=
  Trace (markStep calls) (fun _ _ => True) s s'

end Steps

section Fields

variable [DecidableEq ι] (calls s i key) (j : ι) (k : RunKey)

/-- An insert writes its own row, unless it is there. -/
theorem Marking.insert_rows : (s.insert calls i key).rows k =
    if k = key then some ((s.rows k).getD (calls i).runTs) else s.rows k :=
  TaskRuns.insertRow_apply s.rows k _ key

/-- An update advances its own row, if it is there. -/
theorem Marking.update_rows : (s.update calls i key).rows k =
    if k = key then (s.rows k).map (max · (calls i).runTs) else s.rows k :=
  TaskRuns.advanceRow_apply s.rows k _ key

/-- An insert is done for its call. -/
theorem Marking.insert_inserts : ((s.insert calls i key).todo j).inserts =
    if j = i then (s.todo j).inserts.erase key else (s.todo j).inserts := by
  by_cases hj : j = i
  · subst hj
    simp [Marking.insert]
  · simp [Marking.insert, hj]

/-- An insert leaves the updates to be done. -/
theorem Marking.insert_updates :
    ((s.insert calls i key).todo j).updates = (s.todo j).updates := by
  by_cases hj : j = i
  · subst hj
    simp [Marking.insert]
  · simp [Marking.insert, hj]

/-- An update leaves the inserts to be done. -/
theorem Marking.update_inserts :
    ((s.update calls i key).todo j).inserts = (s.todo j).inserts := by
  by_cases hj : j = i
  · subst hj
    simp [Marking.update]
  · simp [Marking.update, hj]

/-- An update is done for its call. -/
theorem Marking.update_updates : ((s.update calls i key).todo j).updates =
    if j = i then (s.todo j).updates.erase key else (s.todo j).updates := by
  by_cases hj : j = i
  · subst hj
    simp [Marking.update]
  · simp [Marking.update, hj]

end Fields

/-! ### One row -/

/-- No row is gone and no watermark has gone back. -/
def NotOlder (rows rows' : TaskRuns) : Prop :=
  ∀ key w, rows key = some w → ∃ w', rows' key = some w' ∧ w ≤ w'

/-- The watermarks are not older than they are. -/
theorem NotOlder.refl (rows : TaskRuns) : NotOlder rows rows := fun _ w h => ⟨w, h, le_rfl⟩

/-- Watermarks that twice do not go back do not go back. -/
theorem NotOlder.trans {rows' rows'' : TaskRuns} (h : NotOlder rows rows')
    (h' : NotOlder rows' rows'') : NotOlder rows rows'' := by
  intro key w hw
  obtain ⟨w', hw', hle⟩ := h key w hw
  obtain ⟨w'', hw'', hle'⟩ := h' key w' hw'
  exact ⟨w'', hw'', hle.trans hle'⟩

/-- An insert lets no watermark go back. -/
theorem notOlder_insertRow (rows : TaskRuns) (key : RunKey) (ts : Int) :
    NotOlder rows (rows.insertRow key ts) := by
  intro k w hw
  refine ⟨w, ?_, le_rfl⟩
  rw [TaskRuns.insertRow_apply, hw]
  by_cases hk : k = key
  · simp [hk]
  · simp [hk]

/-- An update lets no watermark go back. -/
theorem notOlder_advanceRow (rows : TaskRuns) (key : RunKey) (ts : Int) :
    NotOlder rows (rows.advanceRow key ts) := by
  intro k w hw
  rw [TaskRuns.advanceRow_apply, hw]
  by_cases hk : k = key
  · exact ⟨max w ts, by simp [hk], le_max_left w ts⟩
  · exact ⟨w, by simp [hk], le_rfl⟩

section Steps

variable [DecidableEq ι]

/-- What a step can be. -/
theorem markStep_cases (h : markStep calls s e = some s') :
    (∃ i key, e = .insert i key ∧ key ∈ (s.todo i).inserts ∧ s' = s.insert calls i key) ∨
    ∃ i key, e = .update i key ∧ (s.todo i).inserts = [] ∧ key ∈ (s.todo i).updates ∧
      s' = s.update calls i key := by
  cases e with
  | insert i key =>
    simp only [markStep] at h
    split at h
    · exact .inl ⟨i, key, rfl, ‹_›, (Option.some.inj h).symm⟩
    · cases h
  | update i key =>
    simp only [markStep] at h
    split at h
    · rename_i hmem
      exact .inr ⟨i, key, rfl, hmem.1, hmem.2, (Option.some.inj h).symm⟩
    · cases h

/-- Calls that have not returned can go on. -/
theorem exists_markStep (h : ¬ s.Finished) : ∃ e s', markStep calls s e = some s' := by
  rw [Marking.Finished, not_forall] at h
  obtain ⟨i, hi⟩ := h
  cases hins : (s.todo i).inserts with
  | cons key rest =>
    have hmem : key ∈ (s.todo i).inserts := by simp [hins]
    exact ⟨.insert i key, _, if_pos hmem⟩
  | nil =>
    cases hupd : (s.todo i).updates with
    | cons key rest =>
      have hmem : (s.todo i).inserts = [] ∧ key ∈ (s.todo i).updates := by simp [hins, hupd]
      exact ⟨.update i key, _, if_pos hmem⟩
    | nil =>
      refine absurd ?_ hi
      cases htodo : s.todo i
      simp_all

private theorem markStep_notOlder (h : markStep calls s e = some s') : NotOlder s.rows s'.rows := by
  rcases markStep_cases h with ⟨i, key, _, _, rfl⟩ | ⟨i, key, _, _, _, rfl⟩
  · exact notOlder_insertRow s.rows key _
  · exact notOlder_advanceRow s.rows key _

end Steps

/-! ### The invariant -/

/-- The watermarks that a row may show: its first one, and those of the calls that name it. -/
def Candidate (calls : ι → MarkRan) (rows₀ : TaskRuns) (key : RunKey) (w : Int) : Prop :=
  rows₀ key = some w ∨ ∃ i, key ∈ (calls i).keys ∧ w = (calls i).runTs

/-- What holds while calls are under way. -/
structure Marked (calls : ι → MarkRan) (rows₀ : TaskRuns) (s : Marking ι) : Prop where
  inserts : ∀ i, (s.todo i).inserts ⊆ (calls i).keys
  updates : ∀ i, (s.todo i).updates ⊆ (calls i).keys
  kept : NotOlder rows₀ s.rows
  source : ∀ key w, s.rows key = some w → Candidate calls rows₀ key w
  /-- A row that a call has tried to insert is there. -/
  inserted : ∀ i, ∀ key ∈ (calls i).keys, key ∉ (s.todo i).inserts → s.rows key ≠ none
  /-- A row that a call has tried to advance is as late as the call. -/
  advanced : ∀ i, ∀ key ∈ (calls i).keys, key ∉ (s.todo i).updates →
    ∃ w, s.rows key = some w ∧ (calls i).runTs ≤ w

private theorem marked_start : Marked calls rows₀ (.start calls rows₀) where
  inserts _ := List.Subset.refl _
  updates _ := List.Subset.refl _
  kept := NotOlder.refl rows₀
  source _ _ h := .inl h
  inserted _ _ hkey hnot := absurd hkey hnot
  advanced _ _ hkey hnot := absurd hkey hnot

/-- What is left of a list without one element, for an element that is not left. -/
theorem eq_of_notMem_erase {x y : RunKey} {l : List RunKey} (hmem : x ∈ l)
    (hnot : x ∉ l.erase y) : x = y := by
  by_contra hne
  exact hnot ((List.mem_erase_of_ne hne).mpr hmem)

section Step

variable [DecidableEq ι] (h : Marked calls rows₀ s)
include h

/-- An insert that is to be done keeps the rows as marked. -/
theorem Marked.insert (hkey : key ∈ (s.todo i).inserts) :
    Marked calls rows₀ (s.insert calls i key) := by
  have hlater : NotOlder s.rows (s.insert calls i key).rows := notOlder_insertRow s.rows key _
  refine ⟨fun j k hk => ?_, fun j => ?_, h.kept.trans hlater, fun k w hw => ?_,
    fun j k hk hnot => ?_, fun j k hk hnot => ?_⟩
  · rw [Marking.insert_inserts] at hk
    split at hk
    · exact h.inserts j (List.mem_of_mem_erase hk)
    · exact h.inserts j hk
  · rw [Marking.insert_updates]
    exact h.updates j
  · -- A row that was not there shows the call's own time.
    rw [Marking.insert_rows] at hw
    split at hw
    · rename_i hkk
      subst hkk
      cases hrow : s.rows k with
      | none =>
        simp only [hrow, Option.getD_none, Option.some.injEq] at hw
        exact .inr ⟨i, h.inserts i hkey, hw.symm⟩
      | some v =>
        simp only [hrow, Option.getD_some, Option.some.injEq] at hw
        exact h.source k w (hw ▸ hrow)
    · exact h.source k w hw
  · by_cases hrow : s.rows k = none
    · -- The call has just tried this row, so it is there now.
      have hmem : k ∈ (s.todo j).inserts := by
        by_contra hno
        exact h.inserted j k hk hno hrow
      rw [Marking.insert_inserts] at hnot
      split at hnot
      · obtain rfl := eq_of_notMem_erase hmem hnot
        rw [Marking.insert_rows, if_pos rfl]
        exact Option.some_ne_none _
      · exact absurd hmem hnot
    · obtain ⟨w, hw⟩ := Option.ne_none_iff_exists'.mp hrow
      obtain ⟨w', hw', _⟩ := hlater k w hw
      rw [hw']
      exact Option.some_ne_none w'
  · rw [Marking.insert_updates] at hnot
    obtain ⟨w, hw, hle⟩ := h.advanced j k hk hnot
    obtain ⟨w', hw', hle'⟩ := hlater k w hw
    exact ⟨w', hw', hle.trans hle'⟩

/-- An update of a call whose inserts are done keeps the rows as marked. -/
theorem Marked.update (hins : (s.todo i).inserts = []) (hkey : key ∈ (s.todo i).updates) :
    Marked calls rows₀ (s.update calls i key) := by
  have hlater : NotOlder s.rows (s.update calls i key).rows := notOlder_advanceRow s.rows key _
  refine ⟨fun j => ?_, fun j k hk => ?_, h.kept.trans hlater, fun k w hw => ?_,
    fun j k hk hnot => ?_, fun j k hk hnot => ?_⟩
  · rw [Marking.update_inserts]
    exact h.inserts j
  · rw [Marking.update_updates] at hk
    split at hk
    · exact h.updates j (List.mem_of_mem_erase hk)
    · exact h.updates j hk
  · rw [Marking.update_rows] at hw
    split at hw
    · rename_i hkk
      subst hkk
      obtain ⟨v, hv, rfl⟩ := Option.map_eq_some_iff.mp hw
      rcases le_total v (calls i).runTs with hle | hle
      · rw [max_eq_right hle]
        exact .inr ⟨i, h.updates i hkey, rfl⟩
      · rw [max_eq_left hle]
        exact h.source k v hv
    · exact h.source k w hw
  · rw [Marking.update_inserts] at hnot
    obtain ⟨w, hw⟩ := Option.ne_none_iff_exists'.mp (h.inserted j k hk hnot)
    obtain ⟨w', hw', _⟩ := hlater k w hw
    rw [hw']
    exact Option.some_ne_none w'
  · by_cases hrow : j = i ∧ k = key
    · -- The insert of this call is over, so the row is there to be advanced.
      obtain ⟨rfl, rfl⟩ := hrow
      have hnone : k ∉ (s.todo j).inserts := by simp [hins]
      obtain ⟨w, hw⟩ := Option.ne_none_iff_exists'.mp (h.inserted j k hk hnone)
      refine ⟨max w (calls j).runTs, ?_, le_max_right w _⟩
      rw [Marking.update_rows, if_pos rfl, hw]
      rfl
    · have hbefore : k ∉ (s.todo j).updates := by
        rw [Marking.update_updates] at hnot
        split at hnot
        · rename_i hj
          exact fun hmem => hrow ⟨hj, eq_of_notMem_erase hmem hnot⟩
        · exact hnot
      obtain ⟨w, hw, hle⟩ := h.advanced j k hk hbefore
      obtain ⟨w', hw', hle'⟩ := hlater k w hw
      exact ⟨w', hw', hle.trans hle'⟩

end Step

/-- However the calls interleave, the rows stay as marked. -/
theorem marked_of_marks [DecidableEq ι] (h : Marks calls (.start calls rows₀) s) : Marked calls rows₀ s := by
  refine h.invariant marked_start fun s e s' hinv _ hs => ?_
  rcases markStep_cases hs with ⟨i, key, _, hkey, rfl⟩ | ⟨i, key, _, hins, hkey, rfl⟩
  · exact hinv.insert hkey
  · exact hinv.update hins hkey

/-- However many steps follow, no watermark goes back. -/
theorem notOlder_of_marks [DecidableEq ι] (h : Marks calls s s') : NotOlder s.rows s'.rows := by
  refine h.invariant (I := fun s' => NotOlder s.rows s'.rows) (NotOlder.refl s.rows) ?_
  intro s₁ e s₂ hinv _ hs
  exact hinv.trans (markStep_notOlder hs)

/-! ### Whole runs -/

/-- A row that no call names stays as it was. -/
theorem Marked.unnamed (h : Marked calls rows₀ s) (hkey : ∀ i, key ∉ (calls i).keys) :
    s.rows key = rows₀ key := by
  cases hrow : s.rows key with
  | some w =>
    rcases h.source key w hrow with hfirst | ⟨i, hi, _⟩
    · exact hfirst.symm
    · exact absurd hi (hkey i)
  | none =>
    cases hfirst : rows₀ key with
    | none => rfl
    | some w =>
      obtain ⟨w', hw', _⟩ := h.kept key w hfirst
      cases hrow.symm.trans hw'

/-- When every call has returned, a row that is named shows the latest candidate. -/
theorem Marked.finished (h : Marked calls rows₀ s) (hdone : s.Finished)
    (hkey : key ∈ (calls i).keys) :
    ∃ w, s.rows key = some w ∧ IsGreatest {w | Candidate calls rows₀ key w} w := by
  have hover : ∀ j, key ∉ (s.todo j).updates := by
    intro j
    simp [hdone j]
  obtain ⟨w, hw, _⟩ := h.advanced i key hkey (hover i)
  refine ⟨w, hw, h.source key w hw, ?_⟩
  rintro v (hfirst | ⟨j, hj, rfl⟩)
  · obtain ⟨w', hw', hle⟩ := h.kept key v hfirst
    rwa [Option.some.inj (hw.symm.trans hw')]
  · obtain ⟨w', hw', hle⟩ := h.advanced j key hj (hover j)
    rwa [Option.some.inj (hw.symm.trans hw')]

/-- Any number of `mark_ran` calls, from any table, with the rows of their statements in any
interleaving: no watermark ever goes back, rows that no call names are left alone, and when all
calls have returned each named row shows the latest of its first watermark and the times of the
calls that name it. -/
theorem watermarks_converge [DecidableEq ι] (h : Marks calls (.start calls rows₀) s) :
    (∀ s', Marks calls s s' → NotOlder s.rows s'.rows) ∧
    (∀ key, (∀ i, key ∉ (calls i).keys) → s.rows key = rows₀ key) ∧
    (s.Finished → ∀ i, ∀ key ∈ (calls i).keys,
      ∃ w, s.rows key = some w ∧ IsGreatest {w | Candidate calls rows₀ key w} w) := by
  have hinv := marked_of_marks h
  refine ⟨fun s' hs' => notOlder_of_marks hs', fun key hkey => hinv.unnamed hkey, ?_⟩
  intro hdone i key hkey
  exact hinv.finished hdone hkey

/-- Two waves over tenants they share: the later one overtakes the earlier one between its two
statements. -/
def twoWaves : Bool → MarkRan
  | false => ⟨"x.report", "", ["acme", "beta"], 60⟩
  | true => ⟨"x.report", "", ["beta", "acme"], 120⟩

/-- The rows in the order in which they are dealt with. -/
def overtaken : List (Mark Bool) :=
  let acme : RunKey := ⟨"acme", "x.report", ""⟩
  let beta : RunKey := ⟨"beta", "x.report", ""⟩
  [.insert false acme, .insert true acme, .insert true beta, .update true acme,
    .insert false beta, .update false beta, .update true beta, .update false acme]

/-- A wave that is overtaken by a later one leaves the later watermark. -/
theorem watermarks_converge_overtaken : ∃ s : Marking Bool, s.Finished ∧
    s.rows ⟨"acme", "x.report", ""⟩ = some 120 ∧
    IsGreatest {w | Candidate twoWaves (fun _ => none) ⟨"acme", "x.report", ""⟩ w} 120 := by
  have hrun : (runEvents (markStep twoWaves) (.start twoWaves fun _ => none) overtaken).isSome :=
    rfl
  obtain ⟨s, hs⟩ := Option.isSome_iff_exists.mp hrun
  have htrace : Marks twoWaves (.start twoWaves fun _ => none) s :=
    Trace.of_runEvents .start (.of_forall fun _ _ => trivial) hs
  have hdone : s.Finished := by
    obtain rfl := Option.some.inj hs
    rintro (_ | _) <;> rfl
  have hrow : s.rows ⟨"acme", "x.report", ""⟩ = some 120 := by
    obtain rfl := Option.some.inj hs
    rfl
  obtain ⟨w, hw, hgreatest⟩ := (watermarks_converge htrace).2.2 hdone true
    ⟨"acme", "x.report", ""⟩ (by decide)
  obtain rfl := Option.some.inj (hrow.symm.trans hw)
  exact ⟨s, hdone, hrow, hgreatest⟩

/-- One call that nobody disturbs leaves the table that `markRan` says, in whatever order it deals
with its rows. -/
theorem rows_of_single_call {m : MarkRan} {s : Marking Unit}
    (h : Marks (fun _ => m) (.start (fun _ => m) rows₀) s) (hdone : s.Finished) :
    s.rows = rows₀.markRan m.task m.argsSig m.schemas m.runTs := by
  have hinv := marked_of_marks h
  funext key
  have hrow : rows₀.markRan m.task m.argsSig m.schemas m.runTs key =
      if key ∈ m.keys then stampedAt m.runTs (rows₀ key) else rows₀ key :=
    TaskRuns.markRan_apply rows₀ key m.runTs m.task m.argsSig m.schemas
  rw [hrow]
  by_cases hkey : key ∈ m.keys
  · obtain ⟨w, hw, hmem, hmax⟩ := hinv.finished hdone (i := ()) hkey
    have hts : m.runTs ≤ w := hmax (.inr ⟨(), hkey, rfl⟩)
    rw [hw, if_pos hkey]
    rcases hmem with hfirst | ⟨_, _, rfl⟩
    · rw [hfirst, stampedAt, max_eq_left hts]
    · cases hfirst : rows₀ key with
      | none => rfl
      | some v =>
        have hle : v ≤ m.runTs := hmax (.inl hfirst)
        rw [stampedAt, max_eq_right hle]
  · rw [if_neg hkey]
    exact hinv.unnamed fun _ => hkey

end MtShards.Fanout
