import MtShards.Core.Occurrences
import MtShards.Models.Fanout.Dispatch

/-!
# Which occurrences of a calendar entry are sent

Ticks of one entry run one after the other: the marks of a wave are in the table before the
next one reads it. A watermark is the instant of the wave that stamped it, while the due-check
compares it with the occurrence. A wave that lands on the very instant of an occurrence still
sends the one before it, and its watermark then passes for the occurrence it landed on.
-/

namespace MtShards.Fanout

open MtShards.Core

/-! ### One watermark -/

/-- A watermark after `mark_ran`. -/
def stampedAt (ts : Int) : Option Int → Option Int
  | none => some ts
  | some w => some (max w ts)

private theorem stampedAt_idem (ts : Int) (w : Option Int) :
    stampedAt ts (stampedAt ts w) = stampedAt ts w := by
  cases w with
  | none => simp [stampedAt]
  | some w => simp [stampedAt]

namespace TaskRuns

variable (rows : TaskRuns) (key : RunKey) (ts : Int)

/-- An insert writes its own row, unless it is there. -/
theorem insertRow_apply (k : RunKey) :
    rows.insertRow k ts key = if key = k then some ((rows key).getD ts) else rows key := by
  rw [insertRow]
  by_cases h : key = k
  · subst h
    cases hw : rows key with
    | none => simp
    | some w => simp [hw]
  · cases hw : rows k with
    | none => simp [h]
    | some w => simp [h]

/-- An update advances its own row, if it is there. -/
theorem advanceRow_apply (k : RunKey) :
    rows.advanceRow k ts key = if key = k then (rows key).map (max · ts) else rows key := by
  rw [advanceRow]
  by_cases h : key = k
  · subst h
    cases hw : rows key with
    | none => simp [hw]
    | some w =>
      by_cases hlt : w < ts
      · have hmax : max w ts = ts := max_eq_right hlt.le
        simp [hlt, hmax]
      · have hmax : max w ts = w := max_eq_left (not_lt.mp hlt)
        simp [hlt, hw, hmax]
  · cases hw : rows k with
    | none => simp [h]
    | some w =>
      by_cases hlt : w < ts
      · simp [h, hlt]
      · simp [h, hlt]

private theorem foldl_insertRow (keys : List RunKey) :
    keys.foldl (fun r k => insertRow r k ts) rows key =
      if key ∈ keys then some ((rows key).getD ts) else rows key := by
  induction keys generalizing rows with
  | nil => rfl
  | cons k keys ih =>
    rw [List.foldl_cons, ih, insertRow_apply]
    by_cases hk : key = k
    · simp [hk]
    · simp [hk]

private theorem foldl_advanceRow (keys : List RunKey) :
    keys.foldl (fun r k => advanceRow r k ts) rows key =
      if key ∈ keys then (rows key).map (max · ts) else rows key := by
  induction keys generalizing rows with
  | nil => rfl
  | cons k keys ih =>
    rw [List.foldl_cons, ih, advanceRow_apply]
    by_cases hk : key = k
    · subst hk
      cases hw : rows key with
      | none => simp
      | some w => simp
    · simp [hk]

/-- What `mark_ran` does to a row. -/
theorem markRan_apply (task argsSig : String) (schemas : List SchemaName) :
    rows.markRan task argsSig schemas ts key =
      if key ∈ schemas.map fun s => RunKey.mk s task argsSig then stampedAt ts (rows key)
      else rows key := by
  rw [markRan, foldl_advanceRow, foldl_insertRow]
  by_cases h : key ∈ schemas.map fun s => RunKey.mk s task argsSig
  · rw [if_pos h, if_pos h, if_pos h]
    cases rows key with
    | none => simp [stampedAt]
    | some w => simp [stampedAt]
  · rw [if_neg h, if_neg h, if_neg h]

/-- What `mark_ran` does to the watermark of one schema of the same entry. -/
theorem loadMap_markRan (task argsSig : String) (schemas : List SchemaName) (schema : SchemaName) :
    (rows.markRan task argsSig schemas ts).loadMap task argsSig schema =
      if schema ∈ schemas then stampedAt ts (rows.loadMap task argsSig schema)
      else rows.loadMap task argsSig schema := by
  have hmem : (RunKey.mk schema task argsSig ∈ schemas.map fun s => RunKey.mk s task argsSig) ↔
      schema ∈ schemas := by simp
  rw [loadMap, markRan_apply]
  simp only [hmem, loadMap]

end TaskRuns

/-! ### One batch, one wave -/

/-- What was sent is one of the schemas, and its send has returned. -/
theorem mem_of_mem_sendAll {send : SchemaName → SendOutcome} {schemas : List SchemaName}
    {s : SchemaName} (h : s ∈ (sendAll send schemas).1) : s ∈ schemas ∧ send s = .sent := by
  induction schemas with
  | nil => simp [sendAll] at h
  | cons x rest ih =>
    rw [sendAll] at h
    cases hx : send x with
    | sent =>
      simp only [hx, List.mem_cons] at h
      rcases h with rfl | h
      · exact ⟨List.mem_cons_self, hx⟩
      · exact ⟨List.mem_cons_of_mem _ (ih h).1, (ih h).2⟩
    | operationalError =>
      simp only [hx] at h
      exact ⟨List.mem_cons_of_mem _ (ih h).1, (ih h).2⟩
    | raised => simp [hx] at h

/-- A loop without other exceptions comes to its end. -/
theorem sendAll_finished {send : SchemaName → SendOutcome} (hsend : ∀ s, send s ≠ .raised)
    (schemas : List SchemaName) : (sendAll send schemas).2 = true := by
  induction schemas with
  | nil => rfl
  | cons x rest ih =>
    rw [sendAll]
    cases hx : send x with
    | sent => exact ih
    | operationalError => exact ih
    | raised => exact absurd hx (hsend x)

/-- The sends are gone through to the end exactly if none has raised. -/
theorem sendAll_finished_iff {send : SchemaName → SendOutcome} {schemas : List SchemaName} :
    (sendAll send schemas).2 = true ↔ ∀ s ∈ schemas, send s ≠ .raised := by
  induction schemas with
  | nil => simp [sendAll]
  | cons x rest ih =>
    rw [sendAll, List.forall_mem_cons]
    cases hx : send x with
    | sent => simpa using ih
    | operationalError => simpa using ih
    | raised => simp

/-- A loop that came to its end has sent what the broker has taken. -/
theorem mem_sendAll_of_finished {send : SchemaName → SendOutcome} {schemas : List SchemaName}
    (hsend : ∀ s ∈ schemas, send s ≠ .raised) {s : SchemaName} :
    s ∈ (sendAll send schemas).1 ↔ s ∈ schemas ∧ send s = .sent := by
  refine ⟨mem_of_mem_sendAll, fun ⟨hs, hsent⟩ => ?_⟩
  induction schemas with
  | nil => cases hs
  | cons x rest ih =>
    obtain ⟨hxsend, hrest⟩ := List.forall_mem_cons.mp hsend
    rw [sendAll]
    cases hx : send x with
    | sent =>
      rcases List.mem_cons.mp hs with rfl | hs
      · exact List.mem_cons_self
      · exact List.mem_cons_of_mem _ (ih hrest ⟨hs, hsent⟩ hs)
    | operationalError =>
      rcases List.mem_cons.mp hs with rfl | hs
      · rw [hsent] at hx
        cases hx
      · exact ih hrest ⟨hs, hsent⟩ hs
    | raised => exact absurd hx hxsend

/-- A loop without any exception sends everything. -/
theorem sendAll_of_sent {send : SchemaName → SendOutcome} (hsend : ∀ s, send s = .sent)
    (schemas : List SchemaName) : sendAll send schemas = (schemas, true) := by
  induction schemas with
  | nil => rfl
  | cons x rest ih => simp [sendAll, hsend x, ih]

section Batches

variable {e : BeatEntry} {argsSig : String} {send : Message → SendOutcome} {w : Wave}
  {runTs : Option Int} {rows : TaskRuns} {schemas : List SchemaName} {s : SchemaName}

/-- What the watermark of a schema is after some work: stamped with the instant of the wave if
the schema is among those stamped, else what it was. -/
def Done.Stamps (d : Done) (e : BeatEntry) (argsSig : String) (runTs : Option Int)
    (rows : TaskRuns) : Prop :=
  ∀ s, d.rows.loadMap e.taskName argsSig s = match runTs with
    | some ts => if s ∈ d.stamped then stampedAt ts (rows.loadMap e.taskName argsSig s)
      else rows.loadMap e.taskName argsSig s
    | none => rows.loadMap e.taskName argsSig s

/-- A sub-dispatch stamps the schemas that it says it has stamped, and no others. -/
theorem subDispatch_stamps (e : BeatEntry) (argsSig : String) (send : Message → SendOutcome)
    (runTs : Option Int) (rows : TaskRuns) (schemas : List SchemaName) :
    (subDispatch e argsSig send runTs rows schemas).Stamps e argsSig runTs rows := by
  intro s
  cases runTs with
  | none => rfl
  | some ts =>
    simp only [subDispatch]
    split
    · exact TaskRuns.loadMap_markRan rows ts e.taskName argsSig _ s
    · simp

/-- A sub-dispatch sends to its schemas one after the other. -/
theorem subDispatch_sent :
    (subDispatch e argsSig send runTs rows schemas).sent = (sendAll (e.sendTo send) schemas).1 := by
  cases runTs with
  | none => rfl
  | some ts =>
    simp only [subDispatch]
    split <;> rfl

private theorem subDispatch_stamped_sub
    (h : s ∈ (subDispatch e argsSig send runTs rows schemas).stamped) :
    s ∈ (subDispatch e argsSig send runTs rows schemas).sent := by
  cases runTs with
  | none => simp [subDispatch] at h
  | some ts =>
    simp only [subDispatch] at h ⊢
    split at h
    · rename_i hfinished
      simpa only [hfinished, if_true] using h
    · simp at h

private theorem mem_subDispatch_stamped_iff :
    s ∈ (subDispatch e argsSig send runTs rows schemas).stamped ↔
      runTs.isSome ∧ (∀ x ∈ schemas, e.sendTo send x ≠ .raised) ∧ s ∈ schemas ∧
        e.sendTo send s = .sent := by
  cases runTs with
  | none => simp [subDispatch]
  | some ts =>
    simp only [subDispatch]
    split
    · rename_i hfinished
      have hsend := sendAll_finished_iff.mp hfinished
      rw [mem_sendAll_of_finished hsend]
      simp only [Option.isSome_some, true_and]
      exact ⟨fun h => ⟨hsend, h⟩, fun h => h.2⟩
    · rename_i hfinished
      rw [sendAll_finished_iff] at hfinished
      simp only [List.not_mem_nil, false_iff]
      exact fun h => hfinished h.2.1

private theorem subDispatch_stamped_of_finished {ts : Int} (hsend : ∀ s, e.sendTo send s ≠ .raised) :
    (subDispatch e argsSig send (some ts) rows schemas).stamped =
      (subDispatch e argsSig send (some ts) rows schemas).sent := by
  simp only [subDispatch, sendAll_finished hsend, if_true]

private theorem runBatches_stamps (e : BeatEntry) (argsSig : String) (w : Wave) (runTs : Option Int)
    (rows : TaskRuns) (bs : List (List SchemaName)) :
    (runBatches e argsSig w runTs rows bs).Stamps e argsSig runTs rows := by
  induction bs generalizing rows with
  | nil =>
    intro s
    cases runTs <;> simp [runBatches]
  | cons b rest ih =>
    intro s
    rw [runBatches]
    split
    · have hfirst := subDispatch_stamps e argsSig w.send runTs rows b s
      have hothers := ih (subDispatch e argsSig w.send runTs rows b).rows s
      cases runTs with
      | none => exact hothers.trans hfirst
      | some ts =>
        dsimp only at hfirst hothers ⊢
        rw [hothers, hfirst]
        simp only [List.mem_append]
        by_cases h₁ : s ∈ (subDispatch e argsSig w.send (some ts) rows b).stamped <;>
          by_cases h₂ : s ∈ (runBatches e argsSig w (some ts)
            (subDispatch e argsSig w.send (some ts) rows b).rows rest).stamped <;>
          simp [h₁, h₂, stampedAt_idem]
    · cases runTs <;> simp

private theorem runBatches_sent_sub {bs : List (List SchemaName)}
    (h : s ∈ (runBatches e argsSig w runTs rows bs).sent) :
    s ∈ bs.flatten ∧ e.sendTo w.send s = .sent := by
  induction bs generalizing rows with
  | nil => simp [runBatches] at h
  | cons b rest ih =>
    rw [runBatches] at h
    split at h
    · simp only [List.mem_append, subDispatch_sent] at h
      rw [List.flatten_cons, List.mem_append]
      rcases h with h | h
      · exact ⟨.inl (mem_of_mem_sendAll h).1, (mem_of_mem_sendAll h).2⟩
      · exact ⟨.inr (ih h).1, (ih h).2⟩
    · simp at h

private theorem runBatches_stamped_sub {bs : List (List SchemaName)}
    (h : s ∈ (runBatches e argsSig w runTs rows bs).stamped) :
    s ∈ (runBatches e argsSig w runTs rows bs).sent := by
  induction bs generalizing rows with
  | nil => simp [runBatches] at h
  | cons b rest ih =>
    rw [runBatches] at h ⊢
    split at h
    · rename_i hdelay
      simp only [List.mem_append] at h
      simp only [hdelay, if_true, List.mem_append]
      rcases h with h | h
      · exact .inl (subDispatch_stamped_sub h)
      · exact .inr (ih h)
    · simp at h

/-- The stamped ones are those that were sent in a batch that was handed over and whose sends
raised nothing but `OperationalError`. -/
theorem mem_runBatches_stamped {bs : List (List SchemaName)} :
    s ∈ (runBatches e argsSig w runTs rows bs).stamped ↔
      runTs.isSome ∧ ∃ b ∈ bs.takeWhile w.delay, (∀ x ∈ b, e.sendTo w.send x ≠ .raised) ∧
        s ∈ b ∧ e.sendTo w.send s = .sent := by
  induction bs generalizing rows with
  | nil => simp [runBatches]
  | cons b rest ih =>
    rw [runBatches, List.takeWhile_cons]
    split
    · rename_i hdelay
      simp only [List.mem_append, mem_subDispatch_stamped_iff, ih, List.mem_cons, exists_eq_or_imp]
      rw [← and_or_left]
    · simp

private theorem runBatches_stamped_of_finished {ts : Int} {bs : List (List SchemaName)}
    (hsend : ∀ s, e.sendTo w.send s ≠ .raised) :
    (runBatches e argsSig w (some ts) rows bs).stamped =
      (runBatches e argsSig w (some ts) rows bs).sent := by
  induction bs generalizing rows with
  | nil => rfl
  | cons b rest ih =>
    rw [runBatches]
    split
    · simp only [ih, subDispatch_stamped_of_finished hsend]
    · rfl

private theorem runBatches_sent_of_sent {bs : List (List SchemaName)} (hdelay : ∀ b, w.delay b = true)
    (hsend : ∀ s, e.sendTo w.send s = .sent) :
    (runBatches e argsSig w runTs rows bs).sent = bs.flatten := by
  induction bs generalizing rows with
  | nil => rfl
  | cons b rest ih =>
    simp only [runBatches, hdelay, if_true, ih, subDispatch_sent, sendAll_of_sent hsend,
      List.flatten_cons]

/-- The first batches hold the first schemas. -/
theorem flatten_map_range (size n : Nat) (due : List SchemaName) :
    ((List.range n).map fun i => (due.drop (i * size)).take size).flatten =
      due.take (n * size) := by
  induction n with
  | zero => simp
  | succ n ih =>
    rw [List.range_succ, List.map_append, List.flatten_append, ih, Nat.succ_mul, List.take_add]
    simp

/-- The batches are the due schemas in their order. -/
theorem batches_flatten {size : Nat} (hsize : 0 < size) (due : List SchemaName) :
    (batches size due).flatten = due := by
  rw [batches, flatten_map_range]
  apply List.take_of_length_le
  have hdiv := Nat.div_add_mod (due.length + size - 1) size
  have hmod := Nat.mod_lt (due.length + size - 1) hsize
  rw [Nat.mul_comm] at hdiv
  omega

private theorem batches_flatten_sub {size : Nat} {due : List SchemaName} (h : s ∈ (batches size due).flatten) :
    s ∈ due := by
  rw [batches, flatten_map_range] at h
  exact List.mem_of_mem_take h

end Batches

/-! ### Ticks one after the other -/

/-- A tick that has run: its wave, the table it read, and what it did. -/
structure Ran where
  wave : Wave
  before : TaskRuns
  done : Done

section Waves

variable {Zone : Type} (cal : Calendar Zone) (conf : BeatConf) (e : BeatEntry) (argsSig : String)

/-- The ticks of an entry, each finished before the next reads the watermarks. -/
def runWaves : TaskRuns → List Wave → List Ran
  | _, [] => []
  | rows, w :: ws =>
    let d := fanoutDispatch cal conf e argsSig rows w
    ⟨w, rows, d⟩ :: runWaves d.rows ws

/-- A calendar entry in the eyes of one tenant: its occurrences, and ticks that each see the
latest of them in the zone of the tenant. -/
structure Calendar.Serves (cron : String) (occ : Set Int) (schema : SchemaName) (tz : Zone)
    (waves : List Wave) : Prop where
  cron_eq : e.cron = some cron
  cron_ne : cron ≠ ""
  latest : ∀ w ∈ waves, LatestBefore occ w.now (cal.getPrev cron tz w.now)
  zone : ∀ w ∈ waves, ∀ z, (schema, z) ∈ w.tenants → cal.zoneInfo z = some tz
  increasing : waves.Pairwise fun w w' => w.now < w'.now

end Waves

section Serves

variable {Zone : Type} {cal : Calendar Zone} {conf : BeatConf} {e : BeatEntry} {argsSig : String}
  {cron : String} {occ : Set Int} {schema : SchemaName} {tz : Zone} {waves ws : List Wave}
  {w : Wave} {rows : TaskRuns}

/-- What a calendar serves it serves without the first wave. -/
theorem Calendar.Serves.tail (h : cal.Serves e cron occ schema tz (w :: ws)) :
    cal.Serves e cron occ schema tz ws where
  cron_eq := h.cron_eq
  cron_ne := h.cron_ne
  latest w' hw' := h.latest w' (List.mem_cons_of_mem _ hw')
  zone w' hw' := h.zone w' (List.mem_cons_of_mem _ hw')
  increasing := (List.pairwise_cons.mp h.increasing).2

/-- The later waves come after the first one. -/
theorem Calendar.Serves.lt (h : cal.Serves e cron occ schema tz (w :: ws)) {w' : Wave}
    (hw' : w' ∈ ws) : w.now < w'.now :=
  (List.pairwise_cons.mp h.increasing).1 w' hw'

/-- The watermark that a wave reads for the tenant. -/
abbrev watermark (e : BeatEntry) (argsSig : String) (schema : SchemaName) (rows : TaskRuns) :
    Option Int :=
  rows.loadMap e.taskName argsSig schema

private theorem done_of_mem_runWaves {r : Ran} (h : r ∈ runWaves cal conf e argsSig rows waves) :
    r.done = fanoutDispatch cal conf e argsSig r.before r.wave := by
  induction waves generalizing rows with
  | nil => simp [runWaves] at h
  | cons w ws ih =>
    simp only [runWaves, List.mem_cons] at h
    rcases h with rfl | h
    · rfl
    · exact ih h

/-- Every run is the run of one of the waves. -/
theorem mem_wave_of_mem_runWaves {r : Ran} (h : r ∈ runWaves cal conf e argsSig rows waves) :
    r.wave ∈ waves := by
  induction waves generalizing rows with
  | nil => simp [runWaves] at h
  | cons w ws ih =>
    simp only [runWaves, List.mem_cons] at h
    rcases h with rfl | h
    · exact List.mem_cons_self
    · exact List.mem_cons_of_mem _ (ih h)

/-- A tenant is due when it is listed, the latest occurrence is past its watermark, and that
occurrence is within the grace. -/
theorem mem_waveDue (h : cal.Serves e cron occ schema tz waves) (hw : w ∈ waves) :
    schema ∈ waveDue cal conf e argsSig rows w ↔ (∃ z, (schema, z) ∈ w.tenants) ∧
      (∀ m, watermark e argsSig schema rows = some m → m < cal.getPrev cron tz w.now) ∧
      w.now - cal.getPrev cron tz w.now ≤ e.graceOf conf := by
  have hverdict : ∀ z, cal.zoneInfo z = some tz →
      (verdict cal cron w.now (e.graceOf conf) (watermark e argsSig schema rows) z = .due ↔
        (∀ m, watermark e argsSig schema rows = some m → m < cal.getPrev cron tz w.now) ∧
        w.now - cal.getPrev cron tz w.now ≤ e.graceOf conf) := by
    intro z hz
    simp only [verdict, hz]
    cases watermark e argsSig schema rows with
    | none =>
      by_cases hgrace : w.now - cal.getPrev cron tz w.now ≤ e.graceOf conf
      · simp [hgrace]
      · simp [hgrace]
    | some m =>
      by_cases hm : cal.getPrev cron tz w.now ≤ m
      · have : ¬ m < cal.getPrev cron tz w.now := not_lt.mpr hm
        simp [hm]
      · have hlt : m < cal.getPrev cron tz w.now := not_le.mp hm
        by_cases hgrace : w.now - cal.getPrev cron tz w.now ≤ e.graceOf conf
        · simp [hm, hlt, hgrace]
        · by_cases h2 : w.now - cal.getPrev cron tz w.now ≤ 2 * e.graceOf conf
          · simp [hm, hgrace, h2]
          · simp [hm, hgrace, h2]
  simp only [waveDue, h.cron_eq, h.cron_ne, if_false, dueByTenantTz, List.mem_map,
    List.mem_filter, decide_eq_true_eq, Prod.exists, exists_and_right, exists_eq_right]
  constructor
  · rintro ⟨z, hz, hv⟩
    exact ⟨⟨z, hz⟩, (hverdict z (h.zone w hw z hz)).mp hv⟩
  · rintro ⟨⟨z, hz⟩, hrest⟩
    exact ⟨z, hz, (hverdict z (h.zone w hw z hz)).mpr hrest⟩

/-- What a wave sends was due. -/
theorem mem_waveDue_of_sent (h : schema ∈ (fanoutDispatch cal conf e argsSig rows w).sent) :
    schema ∈ waveDue cal conf e argsSig rows w := by
  rw [fanoutDispatch] at h
  split at h
  · exact batches_flatten_sub (runBatches_sent_sub h).1
  · simp at h

private theorem sent_of_stamped (h : schema ∈ (fanoutDispatch cal conf e argsSig rows w).stamped) :
    schema ∈ (fanoutDispatch cal conf e argsSig rows w).sent := by
  rw [fanoutDispatch] at h ⊢
  split at h
  · rename_i hacquired
    simpa only [hacquired, if_true] using runBatches_stamped_sub h
  · simp at h

/-- The watermark of the tenant after a wave. -/
theorem watermark_fanoutDispatch (h : cal.Serves e cron occ schema tz waves) :
    watermark e argsSig schema (fanoutDispatch cal conf e argsSig rows w).rows =
      if schema ∈ (fanoutDispatch cal conf e argsSig rows w).stamped then
        stampedAt w.now (watermark e argsSig schema rows)
      else watermark e argsSig schema rows := by
  have hts : waveRunTs e w = some w.now := by simp [waveRunTs, h.cron_eq, h.cron_ne]
  simp only [fanoutDispatch, hts]
  split
  · exact runBatches_stamps e argsSig w (some w.now) rows _ schema
  · simp

/-- A watermark never falls, and a wave that stamps the tenant raises it to its own instant. -/
theorem le_watermark_fanoutDispatch (conf : BeatConf) (w : Wave)
    (h : cal.Serves e cron occ schema tz waves) {m : Int}
    (hm : watermark e argsSig schema rows = some m) :
    ∃ m', watermark e argsSig schema (fanoutDispatch cal conf e argsSig rows w).rows = some m' ∧
      m ≤ m' := by
  rw [watermark_fanoutDispatch h, hm]
  split
  · exact ⟨max m w.now, rfl, le_max_left _ _⟩
  · exact ⟨m, rfl, le_rfl⟩

/-- A schema that a wave has stamped has a watermark at or after it. -/
theorem stamped_watermark (h : cal.Serves e cron occ schema tz waves)
    (hs : schema ∈ (fanoutDispatch cal conf e argsSig rows w).stamped) :
    ∃ m', watermark e argsSig schema (fanoutDispatch cal conf e argsSig rows w).rows = some m' ∧
      w.now ≤ m' := by
  rw [watermark_fanoutDispatch h, if_pos hs]
  cases watermark e argsSig schema rows with
  | none => exact ⟨w.now, rfl, le_rfl⟩
  | some m => exact ⟨max m w.now, rfl, le_max_right _ _⟩

/-- Every occurrence that is sent is past the watermark the ticks began with. -/
theorem watermark_lt_of_sent (h : cal.Serves e cron occ schema tz waves) {m : Int}
    (hm : watermark e argsSig schema rows = some m) {r : Ran}
    (hr : r ∈ runWaves cal conf e argsSig rows waves) (hs : schema ∈ r.done.sent) :
    m < cal.getPrev cron tz r.wave.now := by
  induction waves generalizing rows m with
  | nil => simp [runWaves] at hr
  | cons w ws ih =>
    simp only [runWaves, List.mem_cons] at hr
    rcases hr with rfl | hr
    · exact ((mem_waveDue h List.mem_cons_self).mp (mem_waveDue_of_sent hs)).2.1 m hm
    · obtain ⟨m', hm', hle⟩ := le_watermark_fanoutDispatch conf w h hm
      exact lt_of_le_of_lt hle (ih h.tail hm' hr)

/-- What is sent is within the grace. -/
theorem sent_within_grace (h : cal.Serves e cron occ schema tz waves) {r : Ran}
    (hr : r ∈ runWaves cal conf e argsSig rows waves) (hs : schema ∈ r.done.sent) :
    r.wave.now - cal.getPrev cron tz r.wave.now ≤ e.graceOf conf := by
  induction waves generalizing rows with
  | nil => simp [runWaves] at hr
  | cons w ws ih =>
    simp only [runWaves, List.mem_cons] at hr
    rcases hr with rfl | hr
    · exact ((mem_waveDue h List.mem_cons_self).mp (mem_waveDue_of_sent hs)).2.2
    · exact ih h.tail hr

/-! ### At most once, in order, never late -/

/-- A later tick sends a later occurrence. -/
theorem getPrev_lt_of_sent (h : cal.Serves e cron occ schema tz waves)
    (hsend : ∀ w ∈ waves, ∀ s, e.sendTo w.send s ≠ .raised) {r r' : Ran}
    (hr : r ∈ runWaves cal conf e argsSig rows waves)
    (hr' : r' ∈ runWaves cal conf e argsSig rows waves) (hlt : r.wave.now < r'.wave.now)
    (hs : schema ∈ r.done.sent) (hs' : schema ∈ r'.done.sent) :
    cal.getPrev cron tz r.wave.now < cal.getPrev cron tz r'.wave.now := by
  induction waves generalizing rows with
  | nil => simp [runWaves] at hr
  | cons w ws ih =>
    simp only [runWaves, List.mem_cons] at hr hr'
    rcases hr with rfl | hr
    · rcases hr' with rfl | hr'
      · exact absurd hlt (lt_irrefl _)
      · have hstamped : schema ∈ (fanoutDispatch cal conf e argsSig rows w).stamped := by
          have hts : waveRunTs e w = some w.now := by simp [waveRunTs, h.cron_eq, h.cron_ne]
          dsimp only at hs
          simp only [fanoutDispatch, hts] at hs ⊢
          split at hs
          · rename_i hacquired
            rw [if_pos hacquired, runBatches_stamped_of_finished (hsend w List.mem_cons_self)]
            exact hs
          · simp at hs
        obtain ⟨m, hm, hle⟩ := stamped_watermark h hstamped
        have hprev := (h.latest w List.mem_cons_self).lt
        have hnext := watermark_lt_of_sent h.tail hm hr' hs'
        exact (hprev.trans_le hle).trans hnext
    · rcases hr' with rfl | hr'
      · have hback := h.lt (mem_wave_of_mem_runWaves hr)
        exact absurd hlt (not_lt.mpr hback.le)
      · exact ih h.tail (fun w' hw' => hsend w' (List.mem_cons_of_mem _ hw')) hr hr'

/-- With ticks one after the other and every `sub_dispatch` returning, no occurrence is sent to
a tenant by two ticks, none is sent late, and occurrences are sent in increasing order. -/
theorem occurrences_sent_once_in_order (rows : TaskRuns) (h : cal.Serves e cron occ schema tz waves)
    (hsend : ∀ w ∈ waves, ∀ s, e.sendTo w.send s ≠ .raised) :
    (∀ r ∈ runWaves cal conf e argsSig rows waves, ∀ r' ∈ runWaves cal conf e argsSig rows waves,
      schema ∈ r.done.sent → schema ∈ r'.done.sent →
      cal.getPrev cron tz r.wave.now = cal.getPrev cron tz r'.wave.now →
      r.wave.now = r'.wave.now) ∧
    (∀ r ∈ runWaves cal conf e argsSig rows waves, schema ∈ r.done.sent →
      0 < r.wave.now - cal.getPrev cron tz r.wave.now ∧
      r.wave.now - cal.getPrev cron tz r.wave.now ≤ e.graceOf conf) ∧
    (∀ r ∈ runWaves cal conf e argsSig rows waves, ∀ r' ∈ runWaves cal conf e argsSig rows waves,
      r.wave.now < r'.wave.now → schema ∈ r.done.sent → schema ∈ r'.done.sent →
      cal.getPrev cron tz r.wave.now < cal.getPrev cron tz r'.wave.now) := by
  refine ⟨?_, ?_, ?_⟩
  · intro r hr r' hr' hs hs' heq
    rcases lt_trichotomy r.wave.now r'.wave.now with hlt | hnow | hgt
    · exact absurd heq (getPrev_lt_of_sent h hsend hr hr' hlt hs hs').ne
    · exact hnow
    · exact absurd heq (getPrev_lt_of_sent h hsend hr' hr hgt hs' hs).ne'
  · intro r hr hs
    have hlt := (h.latest r.wave (mem_wave_of_mem_runWaves hr)).lt
    have hgrace := (sent_within_grace h hr hs)
    exact ⟨by omega, hgrace⟩
  · intro r hr r' hr' hlt hs hs'
    exact getPrev_lt_of_sent h hsend hr hr' hlt hs hs'

/-! ### Occurrences that are lost -/

/-- A wave that raises nothing and whose sends all succeed. -/
structure Wave.Succeeds (w : Wave) (conf : BeatConf) (e : BeatEntry) : Prop where
  acquired : w.acquired = true
  batchSize : 0 < e.batchSizeOf conf
  delay : ∀ b, w.delay b = true
  send : ∀ s, e.sendTo w.send s = .sent

/-- A wave that succeeds sends to every schema that is due. -/
theorem Wave.Succeeds.sent_eq (h : w.Succeeds conf e) :
    (fanoutDispatch cal conf e argsSig rows w).sent = waveDue cal conf e argsSig rows w := by
  rw [fanoutDispatch, if_pos h.acquired, runBatches_sent_of_sent h.delay h.send,
    batches_flatten h.batchSize]

/-- A tick of the run that sends the tenant the task for the occurrence `o`. -/
def SentFor (cal : Calendar Zone) (cron : String) (tz : Zone) (schema : SchemaName) (o : Int)
    (r : Ran) : Prop :=
  schema ∈ r.done.sent ∧ cal.getPrev cron tz r.wave.now = o

/-- A tick on the very instant `o` that stamps the tenant, for the occurrence before `o`. -/
def StampedOn (schema : SchemaName) (o : Int) (r : Ran) : Prop :=
  r.wave.now = o ∧ schema ∈ r.done.stamped

/-- The stamp, by what the tick meets: its lock, the due list that the table gives it, and the
broker. -/
theorem stampedOn_iff {r : Ran} {o : Int} (hr : r ∈ runWaves cal conf e argsSig rows waves) :
    StampedOn schema o r ↔ r.wave.now = o ∧ r.wave.acquired = true ∧
      (waveRunTs e r.wave).isSome ∧
      ∃ b ∈ (batches (e.batchSizeOf conf) (waveDue cal conf e argsSig r.before r.wave)).takeWhile
          r.wave.delay,
        (∀ x ∈ b, e.sendTo r.wave.send x ≠ .raised) ∧ schema ∈ b ∧
          e.sendTo r.wave.send schema = .sent := by
  rw [StampedOn, done_of_mem_runWaves hr, fanoutDispatch]
  split
  · rename_i hacquired
    rw [mem_runBatches_stamped]
    simp [hacquired]
  · rename_i hacquired
    simp [hacquired]

/-- Without a stamp on its very instant, an occurrence is sent. -/
theorem exists_sentFor (h : cal.Serves e cron occ schema tz waves) {o : Int}
    (hbefore : ∀ m, watermark e argsSig schema rows = some m → m < o) (hw : w ∈ waves)
    (ho : o ∈ occ) (how : o < w.now) (hgrace : w.now ≤ o + e.graceOf conf)
    (hnext : ∀ x ∈ occ, o < x → w.now ≤ x) (hsucc : w.Succeeds conf e)
    (hlisted : ∃ z, (schema, z) ∈ w.tenants)
    (hoff : ∀ r ∈ runWaves cal conf e argsSig rows waves, ¬ StampedOn schema o r) :
    ∃ r ∈ runWaves cal conf e argsSig rows waves, o < r.wave.now ∧
      SentFor cal cron tz schema o r := by
  induction waves generalizing rows with
  | nil => simp at hw
  | cons v ws ih =>
    simp only [runWaves, List.mem_cons, forall_eq_or_imp] at hoff
    have hlatest : LatestBefore occ w.now o := .of_next ho how hnext
    rcases List.mem_cons.mp hw with rfl | hws
    · -- The wave itself: the watermark is still before the occurrence.
      have hprev : cal.getPrev cron tz w.now = o :=
        (h.latest w List.mem_cons_self).unique hlatest
      refine ⟨_, List.mem_cons_self, how, ?_, hprev⟩
      dsimp only
      rw [hsucc.sent_eq, mem_waveDue h List.mem_cons_self, hprev]
      exact ⟨hlisted, hbefore, by omega⟩
    · have hvw := h.lt hws
      by_cases hst : schema ∈ (fanoutDispatch cal conf e argsSig rows v).stamped
      · rcases lt_trichotomy v.now o with hvo | hvo | hvo
        · have hafter : ∀ m, watermark e argsSig schema
              (fanoutDispatch cal conf e argsSig rows v).rows = some m → m < o := by
            intro m hm
            rw [watermark_fanoutDispatch h, if_pos hst] at hm
            cases hrow : watermark e argsSig schema rows with
            | none =>
              rw [hrow, stampedAt] at hm
              simp only [Option.some.injEq] at hm
              omega
            | some m₀ =>
              have hm₀ := hbefore m₀ hrow
              rw [hrow, stampedAt] at hm
              simp only [Option.some.injEq] at hm
              omega
          obtain ⟨r, hr, hres⟩ := ih h.tail hafter hws hoff.2
          exact ⟨r, List.mem_cons_of_mem _ hr, hres⟩
        · exact absurd ⟨hvo, hst⟩ hoff.1
        · -- An earlier wave after the occurrence has stamped the tenant, so it has sent it.
          have hprev : cal.getPrev cron tz v.now = o :=
            (h.latest v List.mem_cons_self).unique (hlatest.between hvo hvw.le)
          exact ⟨_, List.mem_cons_self, hvo, sent_of_stamped hst, hprev⟩
      · have hafter : ∀ m, watermark e argsSig schema
            (fanoutDispatch cal conf e argsSig rows v).rows = some m → m < o := by
          intro m hm
          rw [watermark_fanoutDispatch h, if_neg hst] at hm
          exact hbefore m hm
        obtain ⟨r, hr, hres⟩ := ih h.tail hafter hws hoff.2
        exact ⟨r, List.mem_cons_of_mem _ hr, hres⟩

/-- After a stamp on its very instant, an occurrence is never sent. -/
theorem not_sentFor_of_stampedOn (h : cal.Serves e cron occ schema tz waves) {o : Int}
    {r r' : Ran} (hr : r ∈ runWaves cal conf e argsSig rows waves) (hst : StampedOn schema o r)
    (hr' : r' ∈ runWaves cal conf e argsSig rows waves) (hor' : o < r'.wave.now) :
    ¬ SentFor cal cron tz schema o r' := by
  induction waves generalizing rows with
  | nil => simp [runWaves] at hr
  | cons w ws ih =>
    simp only [runWaves, List.mem_cons] at hr hr'
    rcases hr with rfl | hr
    · rcases hr' with rfl | hr'
      · exact absurd hst.1 hor'.ne'
      · rintro ⟨hs', hprev⟩
        obtain ⟨m, hm, hle⟩ := stamped_watermark h hst.2
        have hlt := watermark_lt_of_sent h.tail hm hr' hs'
        have how : w.now = o := hst.1
        omega
    · rcases hr' with rfl | hr'
      · have hback := h.lt (mem_wave_of_mem_runWaves hr)
        have how : r.wave.now = o := hst.1
        dsimp only at hor'
        omega
      · exact ih h.tail hr hr'

/-- An occurrence that some tick had the chance to send is sent by a tick after it, exactly if
no tick on its very instant stamps the tenant. -/
theorem occurrence_sent_iff (h : cal.Serves e cron occ schema tz waves) {o : Int}
    (hbefore : ∀ m, watermark e argsSig schema rows = some m → m < o) (hw : w ∈ waves)
    (ho : o ∈ occ) (how : o < w.now) (hgrace : w.now ≤ o + e.graceOf conf)
    (hnext : ∀ x ∈ occ, o < x → w.now ≤ x) (hsucc : w.Succeeds conf e)
    (hlisted : ∃ z, (schema, z) ∈ w.tenants) :
    (∃ r ∈ runWaves cal conf e argsSig rows waves, o < r.wave.now ∧
      SentFor cal cron tz schema o r) ↔
    ∀ r ∈ runWaves cal conf e argsSig rows waves, ¬ StampedOn schema o r := by
  constructor
  · rintro ⟨r', hr', hor', hsent⟩ r hr hst
    exact not_sentFor_of_stampedOn h hr hst hr' hor' hsent
  · intro hoff
    exact exists_sentFor h hbefore hw ho how hgrace hnext hsucc hlisted hoff

end Serves

/-! ### An entry that fires every minute -/

/-- A calendar with an occurrence at every full minute, in any zone. -/
def everyMinute : Calendar Unit := ⟨fun _ => some (), fun _ _ n => (n - 1) / 60000000 * 60000000⟩

/-- A report that is due every minute, with a grace of two. -/
def minuteReport : BeatEntry :=
  ⟨"app.report", "tenants", some "* * * * *", some 120000000, some [], some [], some [], none⟩

/-- A tick at which everything succeeds. -/
def smoothWave (now : Int) : Wave :=
  ⟨now, [("acme", "UTC")], ["acme"], true, fun _ => true, fun _ => .sent⟩

private theorem everyMinute_latest (n : Int) :
    LatestBefore {x | x % 60000000 = 0} n (everyMinute.getPrev "* * * * *" () n) := by
  have hdiv : everyMinute.getPrev "* * * * *" () n = (n - 1) / 60000000 * 60000000 := rfl
  rw [hdiv]
  refine ⟨⟨?_, ?_⟩, ?_⟩
  · simp
  · simp only [Set.mem_Iio]
    omega
  · rintro x ⟨hx, hlt⟩
    simp only [Set.mem_ofPred_eq, Set.mem_Iio] at hx hlt
    omega

/-- The calendar of every minute serves any two waves. -/
theorem everyMinute_serves {n m : Int} (h : n < m) :
    everyMinute.Serves minuteReport "* * * * *" {x | x % 60000000 = 0} "acme" ()
      [smoothWave n, smoothWave m] where
  cron_eq := rfl
  cron_ne := by decide
  latest w _ := everyMinute_latest w.now
  zone _ _ _ _ := rfl
  increasing := by simpa [smoothWave] using h

/-- A smooth wave succeeds. -/
theorem smoothWave_succeeds (n : Int) : (smoothWave n).Succeeds ⟨300000000, 100⟩ minuteReport where
  acquired := rfl
  batchSize := by decide
  delay _ := rfl
  send _ := rfl

/-- Two ticks of the report, from an empty table. -/
def minuteRun (n m : Int) : List Ran :=
  runWaves everyMinute ⟨300000000, 100⟩ minuteReport "" (fun _ => none) [smoothWave n, smoothWave m]

/-- The next whole minute does not come before a time at most a minute on. -/
theorem minute_next {o n x : Int} (h : n ≤ o + 60000000) (ho : o % 60000000 = 0)
    (hx : x % 60000000 = 0) (hlt : o < x) : n ≤ x := by
  omega

/-- Of two ticks off the minute, each sends its own occurrence. -/
theorem occurrences_sent_once_in_order_off_the_minute :
    (∀ r ∈ minuteRun 30000000 90000000, ∀ r' ∈ minuteRun 30000000 90000000,
      "acme" ∈ r.done.sent → "acme" ∈ r'.done.sent →
      everyMinute.getPrev "* * * * *" () r.wave.now = everyMinute.getPrev "* * * * *" () r'.wave.now →
      r.wave.now = r'.wave.now) ∧
    (∀ r ∈ minuteRun 30000000 90000000, "acme" ∈ r.done.sent →
      0 < r.wave.now - everyMinute.getPrev "* * * * *" () r.wave.now ∧
      r.wave.now - everyMinute.getPrev "* * * * *" () r.wave.now ≤ 120000000) ∧
    (∀ r ∈ minuteRun 30000000 90000000, ∀ r' ∈ minuteRun 30000000 90000000,
      r.wave.now < r'.wave.now → "acme" ∈ r.done.sent → "acme" ∈ r'.done.sent →
      everyMinute.getPrev "* * * * *" () r.wave.now <
        everyMinute.getPrev "* * * * *" () r'.wave.now) := by
  refine occurrences_sent_once_in_order (fun _ => none)
    (everyMinute_serves (n := 30000000) (m := 90000000) (by decide)) ?_
  intro w hw s
  simp only [List.mem_cons, List.not_mem_nil, or_false] at hw
  rcases hw with rfl | rfl
  · rw [(smoothWave_succeeds 30000000).send s]
    decide
  · rw [(smoothWave_succeeds 90000000).send s]
    decide

/-- Ticks half a minute after the occurrences: none of them is lost. -/
theorem occurrence_sent_off_the_minute :
    (∀ r ∈ minuteRun 30000000 90000000, ¬ StampedOn "acme" 60000000 r) ∧
    ∃ r ∈ minuteRun 30000000 90000000, 60000000 < r.wave.now ∧
      SentFor everyMinute "* * * * *" () "acme" 60000000 r := by
  have hoff : ∀ r ∈ minuteRun 30000000 90000000, ¬ StampedOn "acme" 60000000 r := by
    intro r hr hst
    have hnow : r.wave.now = 60000000 := hst.1
    have hmem := mem_wave_of_mem_runWaves hr
    simp only [List.mem_cons, List.not_mem_nil, or_false] at hmem
    rcases hmem with hw | hw
    · simp [hw, smoothWave] at hnow
    · simp [hw, smoothWave] at hnow
  have hserves := everyMinute_serves (n := 30000000) (m := 90000000) (by decide)
  refine ⟨hoff, (occurrence_sent_iff (w := smoothWave 90000000) hserves (fun m hm => ?_)
    (by simp) rfl (by decide) (by decide) (fun x hx hlt => ?_) (smoothWave_succeeds 90000000)
    ⟨"UTC", by decide⟩).mpr hoff⟩
  · simp [TaskRuns.loadMap] at hm
  · exact minute_next (o := 60000000) (by decide) rfl hx hlt

/-- Ticks on the full minute: the one at the first minute sends the occurrence before it, its
watermark passes for the first minute, and the occurrence of that minute is never sent although
every send succeeds. -/
theorem occurrence_lost_on_the_minute :
    everyMinute.Serves minuteReport "* * * * *" {x | x % 60000000 = 0} "acme" ()
      [smoothWave 60000000, smoothWave 120000000] ∧
    (60000000 : Int) < (smoothWave 120000000).now ∧
    (smoothWave 120000000).now ≤ 60000000 + minuteReport.graceOf ⟨300000000, 100⟩ ∧
    (∀ x : Int, x % 60000000 = 0 → 60000000 < x → (smoothWave 120000000).now ≤ x) ∧
    (smoothWave 60000000).Succeeds ⟨300000000, 100⟩ minuteReport ∧
    (smoothWave 120000000).Succeeds ⟨300000000, 100⟩ minuteReport ∧
    ¬ ∃ r ∈ minuteRun 60000000 120000000, 60000000 < r.wave.now ∧
      SentFor everyMinute "* * * * *" () "acme" 60000000 r := by
  have hserves := everyMinute_serves (n := 60000000) (m := 120000000) (by decide)
  refine ⟨hserves, by decide, by decide, ?_, smoothWave_succeeds _, smoothWave_succeeds _, ?_⟩
  · intro x hx hlt
    exact minute_next (o := 60000000) (by decide) rfl hx hlt
  · rintro ⟨r, hr, hlt, hsent⟩
    have hstamped : StampedOn "acme" 60000000 ⟨smoothWave 60000000, fun _ => none,
        fanoutDispatch everyMinute ⟨300000000, 100⟩ minuteReport "" (fun _ => none)
          (smoothWave 60000000)⟩ := ⟨rfl, by decide⟩
    exact not_sentFor_of_stampedOn hserves List.mem_cons_self hstamped hr hlt hsent

end MtShards.Fanout
