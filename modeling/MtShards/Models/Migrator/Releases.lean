import Mathlib.Data.List.Nodup
import MtShards.Core.Events

/-!
# Releases and the table of applied migrations

`code_older_than_db` compares what is on the disk of a process with the rows of
`public.django_migrations`. The table is shared by every release that is deployed, and what the
function answers is made precise over whole histories of it.
-/

namespace MtShards.Migrator

open MtShards.Core

/-- A migration, `(app_label, name)`. -/
abbrev MigrationKey := String × String

/-- What `MigrationLoader` finds on the disk of a release. -/
structure Release where
  /-- `disk_migrations`, each with what it `replaces`. -/
  disk : List (MigrationKey × List MigrationKey)
  /-- `migrated_apps`. -/
  migratedApps : List String

/-- A row of `django_migrations`. -/
structure AppliedRow where
  key : MigrationKey
  applied : Nat
  deriving DecidableEq, Repr

/-- `public.django_migrations`: the rows, each of another migration. -/
structure AppliedTable where
  rows : List AppliedRow
  nodup : (rows.map AppliedRow.key).Nodup

namespace Release

/-- The names that the code knows: those on the disk, and those that a squashed one replaces. -/
def known (r : Release) : List MigrationKey := r.disk.map Prod.fst ++ r.disk.flatMap Prod.snd

/-- The row is of an app that the code has migrations for. -/
def relevant (r : Release) (x : AppliedRow) : Bool := r.migratedApps.contains x.key.1

/-- The `unknown` of `code_older_than_db`. -/
def unknown (r : Release) (rows : List AppliedRow) : List AppliedRow :=
  (rows.filter r.relevant).filter fun x => !r.known.contains x.key

/-- The `latest_known` of `code_older_than_db`. -/
def latestKnown (r : Release) (rows : List AppliedRow) : Option Nat :=
  (((rows.filter r.relevant).filter fun x => r.known.contains x.key).map AppliedRow.applied).max?

/-- `code_older_than_db`, over the rows of `applied_migrations()`. -/
def codeOlderThanDb (r : Release) (rows : List AppliedRow) : Bool :=
  if (r.unknown rows).isEmpty then false
  else match r.latestKnown rows with
    | none => true
    | some latestKnown => (r.unknown rows).any fun x => latestKnown < x.applied

/-- A row of an app of the release that the release does not know. -/
def Foreign (r : Release) (x : AppliedRow) : Prop := r.relevant x ∧ x.key ∉ r.known

/-- A row of an app of the release that the release knows. -/
def Own (r : Release) (x : AppliedRow) : Prop := r.relevant x ∧ x.key ∈ r.known

end Release

variable {r : Release} {rows : List AppliedRow}

theorem mem_unknown {x : AppliedRow} : x ∈ r.unknown rows ↔ x ∈ rows ∧ r.Foreign x := by
  simp only [Release.unknown, Release.Foreign, List.mem_filter, Bool.not_eq_true',
    List.contains_eq_mem, decide_eq_false_iff_not, and_assoc]

private theorem latestKnown_eq_none_iff : r.latestKnown rows = none ↔ ∀ y ∈ rows, ¬ r.Own y := by
  simp only [Release.latestKnown, Release.Own, List.max?_eq_none_iff, List.map_eq_nil_iff,
    List.filter_eq_nil_iff, List.mem_filter, List.contains_eq_mem, decide_eq_true_eq, and_imp,
    not_and]

private theorem latestKnown_eq_some_iff {n : Nat} : r.latestKnown rows = some n ↔
    (∃ y ∈ rows, r.Own y ∧ y.applied = n) ∧ ∀ y ∈ rows, r.Own y → y.applied ≤ n := by
  simp only [Release.latestKnown, Release.Own, List.max?_eq_some_iff, List.mem_map,
    List.mem_filter, List.contains_eq_mem, decide_eq_true_eq, forall_exists_index, and_imp,
    and_assoc]
  refine and_congr_right fun _ => ⟨fun h y hy hrel hk => h _ y hy hrel hk rfl, ?_⟩
  rintro h n' y hy hrel hk rfl
  exact h y hy hrel hk

/-- The code is older exactly if some row that it does not know is later than each that it knows. -/
theorem codeOlderThanDb_iff : r.codeOlderThanDb rows = true ↔
    ∃ x ∈ rows, r.Foreign x ∧ ∀ y ∈ rows, r.Own y → y.applied < x.applied := by
  unfold Release.codeOlderThanDb
  by_cases hnone : (r.unknown rows).isEmpty
  · simp only [hnone, if_true, Bool.false_eq_true, false_iff]
    rintro ⟨x, hx, hforeign, _⟩
    have := mem_unknown.mpr ⟨hx, hforeign⟩
    simp [List.isEmpty_iff.mp hnone] at this
  · simp only [hnone, Bool.false_eq_true, if_false]
    cases hmax : r.latestKnown rows with
    | none =>
      -- the release knows no row at all, so that any other one will do
      have hne : r.unknown rows ≠ [] := fun hnil => hnone (by simp [hnil])
      obtain ⟨x, hx⟩ := List.exists_mem_of_ne_nil _ hne
      obtain ⟨hx, hforeign⟩ := mem_unknown.mp hx
      simp only [true_iff]
      exact ⟨x, hx, hforeign, fun y hy hown => absurd hown (latestKnown_eq_none_iff.mp hmax y hy)⟩
    | some latest =>
      obtain ⟨⟨y, hy, hown, rfl⟩, hle⟩ := latestKnown_eq_some_iff.mp hmax
      simp only [List.any_eq_true, decide_eq_true_eq]
      constructor
      · rintro ⟨x, hx, hlt⟩
        obtain ⟨hx, hforeign⟩ := mem_unknown.mp hx
        exact ⟨x, hx, hforeign, fun y' hy' hown' =>
          Nat.lt_of_le_of_lt (hle y' hy' hown') hlt⟩
      · rintro ⟨x, hx, hforeign, hlater⟩
        exact ⟨x, mem_unknown.mpr ⟨hx, hforeign⟩, hlater y hy hown⟩

/-! ### Histories -/

namespace AppliedTable

def keys (t : AppliedTable) : List MigrationKey := t.rows.map AppliedRow.key

/-- `record_applied`. -/
def record (t : AppliedTable) (k : MigrationKey) (now : Nat) (h : k ∉ t.keys) : AppliedTable :=
  ⟨⟨k, now⟩ :: t.rows, List.nodup_cons.mpr ⟨h, t.nodup⟩⟩

/-- `record_unapplied`. -/
def unrecord (t : AppliedTable) (k : MigrationKey) : AppliedTable :=
  ⟨t.rows.filter fun x => x.key ≠ k, t.nodup.sublist (List.filter_sublist.map _)⟩

theorem mem_record {t : AppliedTable} {k : MigrationKey} {now : Nat} {x : AppliedRow}
    (h : k ∉ t.keys) : x ∈ (t.record k now h).rows ↔ x = ⟨k, now⟩ ∨ x ∈ t.rows := by
  simp [record]

theorem mem_unrecord {t : AppliedTable} {k : MigrationKey} {x : AppliedRow} :
    x ∈ (t.unrecord k).rows ↔ x ∈ t.rows ∧ x.key ≠ k := by
  simp [unrecord]

end AppliedTable

/-- The public schema, and the clock of all who migrate it. -/
structure PublicSchema where
  table : AppliedTable
  clock : Nat

inductive DeployEvent
  /-- A release has applied one of its migrations; its run may end anywhere after. -/
  | applies (r : Release) (k : MigrationKey)
  /-- A migration is reversed. -/
  | reverses (k : MigrationKey)
  /-- Time passes. -/
  | waits

/-- A release records only what it knows and what is not recorded. -/
def PublicSchema.step (s : PublicSchema) : DeployEvent → Option PublicSchema
  | .applies r k =>
    if h : s.table.keys.contains k then none
    else if r.known.contains k then
      some ⟨s.table.record k s.clock (by simpa using h), s.clock + 1⟩
    else none
  | .reverses k => some ⟨s.table.unrecord k, s.clock⟩
  | .waits => some ⟨s.table, s.clock + 1⟩

/-- Nobody reverses what the release knows. -/
def Release.Spared (r : Release) (_ : PublicSchema) : DeployEvent → Prop
  | .reverses k => k ∉ r.known
  | _ => True

/-- The release has recorded all that it knows, and none is of the future. -/
structure Release.UpToDate (r : Release) (s : PublicSchema) : Prop where
  recorded : ∀ k ∈ r.known, k ∈ s.table.keys
  past : ∀ x ∈ s.table.rows, x.applied < s.clock

/-- Since then the release has kept its rows, and all others that were added are not its own. -/
structure Release.Since (r : Release) (s₀ s : PublicSchema) : Prop where
  clock : s₀.clock ≤ s.clock
  kept : ∀ x ∈ s₀.table.rows, x.key ∈ r.known → x ∈ s.table.rows
  added : ∀ x ∈ s.table.rows, x ∈ s₀.table.rows ∨ (s₀.clock ≤ x.applied ∧ x.key ∉ r.known)

variable {s₀ s s' : PublicSchema} {e : DeployEvent}

/-- What the release knows stays recorded. -/
theorem Release.Since.recorded (h : r.Since s₀ s) (h₀ : r.UpToDate s₀) {k : MigrationKey}
    (hk : k ∈ r.known) : k ∈ s.table.keys := by
  obtain ⟨x, hx, rfl⟩ := List.mem_map.mp (h₀.recorded k hk)
  exact List.mem_map_of_mem (h.kept x hx hk)

theorem Release.Since.step (h : r.Since s₀ s) (h₀ : r.UpToDate s₀) (he : r.Spared s e)
    (hstep : s.step e = some s') : r.Since s₀ s' := by
  cases e with
  | applies r' k =>
    simp only [PublicSchema.step] at hstep
    split_ifs at hstep with hrecorded hknown
    have hk : k ∉ s.table.keys := by simpa using hrecorded
    obtain rfl := Option.some.inj hstep
    refine ⟨by have := h.clock; simp only; omega, fun x hx hown => ?_, fun x hx => ?_⟩
    · exact (AppliedTable.mem_record hk).mpr (.inr (h.kept x hx hown))
    · rcases (AppliedTable.mem_record hk).mp hx with rfl | hx
      · exact .inr ⟨h.clock, fun hown => hk (h.recorded h₀ hown)⟩
      · exact h.added x hx
  | reverses k =>
    obtain rfl := Option.some.inj hstep
    refine ⟨h.clock, fun x hx hown => ?_, fun x hx => ?_⟩
    · refine AppliedTable.mem_unrecord.mpr ⟨h.kept x hx hown, fun heq => ?_⟩
      exact he (heq ▸ hown)
    · exact h.added x (AppliedTable.mem_unrecord.mp hx).1
  | waits =>
    obtain rfl := Option.some.inj hstep
    exact ⟨by have := h.clock; simp only; omega, h.kept, h.added⟩

/-- Two releases, the second with one migration more. -/
def firstRelease : Release := ⟨[(("core", "0001_initial"), [])], ["core"]⟩

def secondRelease : Release :=
  ⟨[(("core", "0001_initial"), []), (("core", "0002_more"), [])], ["core"]⟩

/-- The first one is deployed. -/
def deployed : PublicSchema := ⟨⟨[⟨("core", "0001_initial"), 0⟩], List.nodup_singleton _⟩, 1⟩

private theorem deployed_upToDate : firstRelease.UpToDate deployed where
  recorded k hk := by simpa [firstRelease, Release.known, deployed, AppliedTable.keys] using hk
  past x hx := by
    obtain rfl := List.mem_singleton.mp hx
    simp [deployed]

/-- Whether the code is older than the database, over whole histories: once a release has recorded
all that it knows and is not older itself, then after any steps of any releases, each cut off
anywhere, and any reversals of what it does not know, it is older exactly if a migration of one of
its apps that was recorded since then is still there. -/
theorem older_iff_migrated_since (h : Trace PublicSchema.step r.Spared s₀ s) (h₀ : r.UpToDate s₀)
    (hcurrent : r.codeOlderThanDb s₀.table.rows = false) :
    r.codeOlderThanDb s.table.rows = true ↔
      ∃ x ∈ s.table.rows, r.relevant x ∧ s₀.clock ≤ x.applied := by
  have hsince : r.Since s₀ s := by
    refine h.invariant ⟨Nat.le_refl _, fun x hx _ => hx, fun x hx => .inl hx⟩ ?_
    exact fun s e s' hs he hstep => hs.step h₀ he hstep
  rw [codeOlderThanDb_iff]
  constructor
  · rintro ⟨x, hx, hforeign, hlater⟩
    rcases hsince.added x hx with hold | ⟨hnew, _⟩
    · -- a row that was there before would have made the release older already
      have holder : r.codeOlderThanDb s₀.table.rows = true :=
        codeOlderThanDb_iff.mpr ⟨x, hold, hforeign, fun y hy hown =>
          hlater y (hsince.kept y hy hown.2) hown⟩
      simp [hcurrent] at holder
    · exact ⟨x, hx, hforeign.1, hnew⟩
  · rintro ⟨x, hx, hrelevant, hnew⟩
    have hunknown : x.key ∉ r.known := by
      rcases hsince.added x hx with hold | ⟨_, hunknown⟩
      · have := h₀.past x hold
        omega
      · exact hunknown
    refine ⟨x, hx, ⟨hrelevant, hunknown⟩, fun y hy hown => ?_⟩
    rcases hsince.added y hy with hold | ⟨_, hforeign⟩
    · have := h₀.past y hold
      omega
    · exact absurd hown.2 hforeign

/-- The second release migrates while a process of the first one still runs. -/
theorem older_iff_migrated_since_rollout : ∃ s, deployed.step
      (.applies secondRelease ("core", "0002_more")) = some s ∧
    (firstRelease.codeOlderThanDb s.table.rows = true ↔
      ∃ x ∈ s.table.rows, firstRelease.relevant x ∧ deployed.clock ≤ x.applied) := by
  refine ⟨_, rfl, older_iff_migrated_since ?_ deployed_upToDate rfl⟩
  exact Trace.start.event (.applies secondRelease ("core", "0002_more")) trivial rfl

end MtShards.Migrator
