import Mathlib.Algebra.BigOperators.Group.List.Basic
import Mathlib.Algebra.Order.Ring.Int
import Mathlib.Data.List.Count
import Mathlib.Data.List.Nodup
import MtShards.Models.Scheduler.Stage

/-!
# The books of the tenant stage

Queues, in-flight counts, the stop flag and the kind of each entry are kept in different places
and written by different functions. `Sched.Ok` says how they fit together; taking a target,
finishing one and stopping the stage all keep it.
-/

namespace MtShards.Scheduler

open MtShards.Migrator (Kind Reason Result Side Exn Pk excMsg)

/-- The target at a place of the list. -/
def targetAt (ts : List Target) (i : Id) : Target := ts.getD i ⟨"", "", 0, .new⟩

/-- The shard of the target at a place. -/
def shardAt (ts : List Target) (i : Id) : Alias := (targetAt ts i).shard

/-- The places of some targets that are on a shard. -/
def onShard (ts : List Target) (a : Alias) (ids : List Id) : List Id :=
  ids.filter fun i => shardAt ts i = a

/-- A target is among those of a shard if it is one of them and on that shard. -/
@[simp] theorem mem_onShard {ts : List Target} {a : Alias} {ids : List Id} {i : Id} :
    i ∈ onShard ts a ids ↔ i ∈ ids ∧ shardAt ts i = a := by
  simp [onShard]

/-- How the books of a stage fit together, with the targets in flight and those started. -/
structure Sched.Ok (ts : List Target) (flight started : List Id) (s : Sched) : Prop where
  target : ∀ i, (s.entry i).target = targetAt ts i
  keys_nodup : s.stage.keys.Nodup
  key_mem : ∀ i < ts.length, shardAt ts i ∈ s.stage.keys
  flight_nodup : flight.Nodup
  mem_flight : ∀ i, i ∈ flight ↔ i < ts.length ∧ (s.entry i).kind = .running
  mem_queue : ∀ a i, i ∈ s.stage.queue a ↔ i < ts.length ∧ shardAt ts i = a ∧
    (s.entry i).kind = .notRun ∧ (s.entry i).reason = .unset
  finished : ∀ i < ts.length, (s.entry i).kind ≠ .interrupted ∧
    (∀ k, (s.entry i).kind = .of k → (s.entry i).reason ≠ .unset)
  inflight : ∀ a, s.stage.inflight a = (onShard ts a flight).length
  order : ∀ a, onShard ts a started ++ s.stage.queue a <+: onShard ts a (List.range ts.length)
  started_lt : ∀ i ∈ started, i < ts.length
  stopped : s.stage.stop ≠ none → ∀ a, s.stage.queue a = []

/-! ### Counting what is in flight -/

/-- What is counted for each key, over all the keys. -/
theorem sum_length_filter {α : Type} [DecidableEq α] {keys : List α} (hnodup : keys.Nodup)
    (key : Id → α) (ids : List Id) (hmem : ∀ i ∈ ids, key i ∈ keys) :
    (keys.map fun a => ((ids.filter fun i => key i = a).length : Int)).sum = ids.length := by
  induction ids with
  | nil => simp
  | cons i ids ih =>
    have hsplit : ∀ a, (((i :: ids).filter fun j => key j = a).length : Int) =
        (if a = key i then 1 else 0) + (ids.filter fun j => key j = a).length := by
      intro a
      by_cases h : a = key i
      · simp [h]
        omega
      · have h' : ¬ key i = a := fun he => h he.symm
        simp [h, h']
    have hrest := ih fun j hj => hmem j (List.mem_cons_of_mem _ hj)
    have hone : (keys.map fun a => if a = key i then (1 : Int) else 0).sum = 1 := by
      rw [List.sum_map_ite_eq, List.count_eq_one_of_mem hnodup (hmem i List.mem_cons_self)]
      simp
    simp only [hsplit, List.sum_map_add, hrest, hone, List.length_cons]
    push_cast
    omega

/-- The targets in flight are those in flight on some shard. -/
theorem sum_onShard {ts : List Target} {keys : List Alias} (hnodup : keys.Nodup) (ids : List Id)
    (hmem : ∀ i ∈ ids, shardAt ts i ∈ keys) :
    (keys.map fun a => ((onShard ts a ids).length : Int)).sum = ids.length :=
  sum_length_filter hnodup (shardAt ts) ids hmem

/-- The in-flight counts of the shards add up to the targets in flight. -/
theorem Sched.Ok.sum_inflight {ts : List Target} {flight started : List Id} {s : Sched}
    (h : s.Ok ts flight started) : (s.stage.keys.map s.stage.inflight).sum = flight.length := by
  have hfun : s.stage.inflight = fun a => ((onShard ts a flight).length : Int) := funext h.inflight
  rw [hfun]
  exact sum_onShard h.keys_nodup flight fun i hi => h.key_mem i ((h.mem_flight i).mp hi).1

/-! ### What each operation keeps -/

section Keeps

variable {ts : List Target} {flight started : List Id} {s : Sched}

/-- A stage with other counters of failures is as good. -/
theorem Sched.Ok.countFailures (h : s.Ok ts flight started) (a : Alias) (n : Int) :
    (s.countFailures a n).Ok ts flight started :=
  ⟨h.target, h.keys_nodup, h.key_mem, h.flight_nodup, h.mem_flight, h.mem_queue, h.finished,
    h.inflight, h.order, h.started_lt, h.stopped⟩

/-- Writing to a list of entries changes each of them. -/
theorem writeAll_of_mem {entry : Id → Entry} {ids : List Id} {f : Entry → Entry} {i : Id}
    (h : i ∈ ids) : writeAll entry ids f i = f (entry i) := by
  simp [writeAll, h]

/-- Writing to a list of entries leaves the others alone. -/
theorem writeAll_of_notMem {entry : Id → Entry} {ids : List Id} {f : Entry → Entry} {i : Id}
    (h : i ∉ ids) : writeAll entry ids f i = entry i := by
  simp [writeAll, h]

/-- Emptying some queues, and giving their entries a reason, keeps the books. -/
theorem Sched.Ok.leave (h : s.Ok ts flight started) {ids : List Id} {reason : EntryReason}
    {msg : String} {queue : Alias → List Id} {stop : Option Stop} (hreason : reason ≠ .unset)
    (hids : ∀ i ∈ ids, i ∈ s.stage.queue (shardAt ts i))
    (hqueue : ∀ a, queue a = s.stage.queue a ∧ (∀ i ∈ ids, shardAt ts i ≠ a) ∨
      queue a = [] ∧ ∀ i ∈ s.stage.queue a, i ∈ ids)
    (hstop : stop ≠ none → ∀ a, queue a = []) :
    Sched.Ok ts flight started ⟨writeAll s.entry ids (Entry.leave reason msg),
      { s.stage with queue := queue, stop := stop }⟩ := by
  have hentry : ∀ i, i ∉ ids → writeAll s.entry ids (Entry.leave reason msg) i = s.entry i :=
    fun i hi => writeAll_of_notMem hi
  have hleft : ∀ i ∈ ids, writeAll s.entry ids (Entry.leave reason msg) i =
      Entry.leave reason msg (s.entry i) := fun i hi => writeAll_of_mem hi
  have hqueued : ∀ i ∈ ids, i < ts.length ∧ (s.entry i).kind = .notRun := fun i hi =>
    have hq := (h.mem_queue _ i).mp (hids i hi)
    ⟨hq.1, hq.2.2.1⟩
  refine ⟨?_, h.keys_nodup, h.key_mem, h.flight_nodup, ?_, ?_, ?_, h.inflight, ?_, h.started_lt,
    hstop⟩
  · intro i
    by_cases hi : i ∈ ids
    · simp only [hleft i hi]
      exact h.target i
    · simp only [hentry i hi]
      exact h.target i
  · intro i
    rw [h.mem_flight]
    by_cases hi : i ∈ ids
    · simp [hleft i hi, Entry.leave, (hqueued i hi).2]
    · simp [hentry i hi]
  · intro a i
    dsimp only
    by_cases hi : i ∈ ids
    · simp only [hleft i hi, Entry.leave, hreason, and_false, iff_false]
      rcases hqueue a with ⟨hq, hne⟩ | ⟨hq, -⟩
      · intro hmem
        rw [hq, h.mem_queue] at hmem
        exact hne i hi hmem.2.1
      · simp [hq]
    · rw [hentry i hi, ← h.mem_queue]
      rcases hqueue a with ⟨hq, -⟩ | ⟨hq, hall⟩
      · rw [hq]
      · rw [hq]
        refine ⟨fun hmem => absurd hmem List.not_mem_nil, fun hmem => absurd (hall i hmem) hi⟩
  · intro i hlt
    by_cases hi : i ∈ ids
    · simp [hleft i hi, Entry.leave]
    · simp only [hentry i hi]
      exact h.finished i hlt
  · intro a
    dsimp only
    rcases hqueue a with ⟨hq, -⟩ | ⟨hq, -⟩
    · rw [hq]
      exact h.order a
    · rw [hq, List.append_nil]
      exact (List.prefix_append _ _).trans (h.order a)

/-- A target is queued if it is in the queue of its own shard. -/
theorem Sched.Ok.mem_queued (h : s.Ok ts flight started) {i : Id} :
    i ∈ s.stage.queued ↔ i ∈ s.stage.queue (shardAt ts i) := by
  rw [TenantStage.queued, List.mem_flatMap]
  constructor
  · rintro ⟨a, -, hi⟩
    have ha := ((h.mem_queue a i).mp hi).2.1
    rwa [ha]
  · intro hi
    exact ⟨_, h.key_mem i ((h.mem_queue _ i).mp hi).1, hi⟩

/-- A halt keeps the stage consistent. -/
theorem Sched.Ok.halt (h : s.Ok ts flight started) (stop : Stop) (override : Bool) :
    (s.halt stop override).Ok ts flight started := by
  refine h.leave (by decide) (fun i hi => h.mem_queued.mp hi) (fun a => .inr ⟨rfl, ?_⟩) fun _ _ => rfl
  intro i hi
  have ha := ((h.mem_queue a i).mp hi).2.1
  exact h.mem_queued.mpr (by rwa [ha])

/-- Dropping a shard keeps the stage consistent. -/
theorem Sched.Ok.dropShard (h : s.Ok ts flight started) (a : Alias) :
    (s.dropShard a).Ok ts flight started := by
  refine h.leave (by decide) ?_ ?_ ?_
  · intro i hi
    have ha := ((h.mem_queue a i).mp hi).2.1
    rwa [ha]
  · intro b
    by_cases hb : b = a
    · subst hb
      exact .inr ⟨Function.update_self .., fun _ hi => hi⟩
    · refine .inl ⟨Function.update_of_ne hb .., fun i hi => ?_⟩
      have ha := ((h.mem_queue a i).mp hi).2.1
      exact fun hba => hb (hba.symm.trans ha)
  · intro hstop b
    by_cases hb : b = a
    · subst hb
      exact Function.update_self ..
    · rw [Function.update_of_ne hb]
      exact h.stopped hstop b

/-- Accounting for a finished target keeps the stage consistent. -/
theorem Sched.Ok.account (h : s.Ok ts flight started) (e : Entry) :
    (s.account e).Ok ts flight started := by
  rw [Sched.account]
  split
  · exact h.dropShard _
  · split
    · exact h.countFailures _ _
    · split
      · exact h.countFailures _ _
      · exact h

/-- Judging a finished target keeps the stage consistent. -/
theorem Sched.Ok.judge (h : s.Ok ts flight started) (e : Entry) :
    (s.judge e).Ok ts flight started := by
  rw [Sched.judge]
  split
  · exact h
  · split
    · split
      · exact h.halt _ _
      · exact h
    · split
      · exact h.halt _ _
      · exact h

private theorem collect_kind (e : Entry) (d : Delivered) :
    ∃ k, (e.collect d).kind = .of k ∧ (e.collect d).reason ≠ .unset := by
  cases d with
  | result res => exact ⟨res.kind, rfl, by simp [Entry.collect, Entry.take]⟩
  | raised exc => exact ⟨.failed, rfl, by simp [Entry.collect]⟩

/-- Collecting a result does not change what the entry is about. -/
theorem collect_target (e : Entry) (d : Delivered) : (e.collect d).target = e.target := by
  cases d <;> rfl

/-- A target in flight is collected and lands. -/
theorem Sched.Ok.land (h : s.Ok ts flight started) {i : Id} (hi : i ∈ flight) (d : Delivered) :
    (Sched.land { s with entry := Function.update s.entry i ((s.entry i).collect d) }
      (shardAt ts i)).Ok ts (flight.erase i) started := by
  obtain ⟨k, hkind, hreason⟩ := collect_kind (s.entry i) d
  obtain ⟨hlt, hrunning⟩ := (h.mem_flight i).mp hi
  refine ⟨?_, h.keys_nodup, h.key_mem, h.flight_nodup.erase i, ?_, ?_, ?_, ?_, h.order,
    h.started_lt, h.stopped⟩
  · intro j
    by_cases hj : j = i
    · subst hj
      simp [Sched.land, collect_target, h.target]
    · simp [Sched.land, hj, h.target]
  · intro j
    rw [h.flight_nodup.mem_erase_iff, h.mem_flight]
    by_cases hj : j = i
    · subst hj
      simp [Sched.land, hkind]
    · simp [Sched.land, hj]
  · intro a j
    by_cases hj : j = i
    · subst hj
      have hnot : j ∉ s.stage.queue a := by
        intro hq
        have hk := ((h.mem_queue a j).mp hq).2.2.1
        rw [hrunning] at hk
        cases hk
      simp [Sched.land, hkind, hnot]
    · simpa [Sched.land, hj] using h.mem_queue a j
  · intro j hj'
    by_cases hj : j = i
    · subst hj
      simp [Sched.land, hkind, hreason]
    · simpa [Sched.land, hj] using h.finished j hj'
  · intro a
    have hcount : (onShard ts a (flight.erase i)).length =
        (onShard ts a flight).length - if shardAt ts i = a then 1 else 0 := by
      rw [onShard, onShard, ← List.countP_eq_length_filter, ← List.countP_eq_length_filter,
        List.countP_erase]
      simp [hi]
    by_cases ha : shardAt ts i = a
    · have hpos : 0 < (onShard ts a flight).length :=
        List.length_pos_of_mem (mem_onShard.mpr ⟨hi, ha⟩)
      subst ha
      simp only [Sched.land, Function.update_self, h.inflight, hcount, if_true]
      omega
    · have hne : a ≠ shardAt ts i := fun he => ha he.symm
      simp [Sched.land, hne, h.inflight, hcount, ha]

/-- Finishing a target in flight takes it out of flight and keeps the stage consistent. -/
theorem Sched.Ok.finish (h : s.Ok ts flight started) {i : Id} (hi : i ∈ flight) (d : Delivered) :
    (s.finish i d).Ok ts (flight.erase i) started := by
  have hshard : ((s.entry i).collect d).target.shard = shardAt ts i := by
    rw [collect_target, h.target]
    rfl
  have hland := h.land hi d
  simp only [Sched.finish, Sched.done, Function.update_self, hshard]
  split
  · exact hland.halt _ _
  · exact (hland.account _).judge _

/-! ### Taking the next target -/

/-- Sorting loses and adds no shard. -/
theorem mem_sortedShards {keys : List Alias} {a : Alias} : a ∈ sortedShards keys ↔ a ∈ keys := by
  simp [sortedShards]

/-- The order of the next round holds the shards of the stage. -/
theorem mem_shardOrder {keys : List Alias} {after : Option Alias} {a : Alias} :
    a ∈ shardOrder keys after ↔ a ∈ keys := by
  cases after with
  | none => exact mem_sortedShards
  | some b =>
    simp only [shardOrder]
    split
    · rw [List.mem_append, or_comm, ← List.mem_append, List.take_append_drop]
      exact mem_sortedShards
    · exact mem_sortedShards

/-- What `next` takes: the head of a queue that has room, on a stage that is not stopped. -/
theorem next_eq_some {st st' : TenantStage} {jobs perShard : Int} {i : Id}
    (h : st.next jobs perShard = some (i, st')) :
    ∃ a rest, st.stop = none ∧ (st.keys.map st.inflight).sum < jobs ∧ st.inflight a < perShard ∧
      st.queue a = i :: rest ∧
      st' = { st with last := some a
                      inflight := Function.update st.inflight a (st.inflight a + 1)
                      queue := Function.update st.queue a rest } := by
  rw [TenantStage.next] at h
  split at h
  · cases h
  · rename_i hstop
    split at h
    · cases h
    · rename_i a hpick
      rw [pickNext] at hpick
      split at hpick
      · cases hpick
      · rename_i hjobs
        have hroom := List.find?_some hpick
        simp only [Bool.and_eq_true, decide_eq_true_eq] at hroom
        split at h
        · cases h
        · rename_i j rest hqueue
          simp only [Option.some.injEq, Prod.mk.injEq] at h
          obtain ⟨rfl, rfl⟩ := h
          exact ⟨a, rest, hstop, not_le.mp hjobs, hroom.2, hqueue, rfl⟩

/-- `next` finds nothing only on a stage that is stopped, without room, or without a queue that
has both a target and room. -/
theorem next_eq_none {st : TenantStage} {jobs perShard : Int} (h : st.next jobs perShard = none) :
    st.stop ≠ none ∨ jobs ≤ (st.keys.map st.inflight).sum ∨
      ∀ a ∈ st.keys, st.queue a = [] ∨ perShard ≤ st.inflight a := by
  rw [TenantStage.next] at h
  split at h
  · rename_i hstop
    exact .inl (by simp [hstop])
  · rw [pickNext] at h
    by_cases hjobs : jobs ≤ (st.keys.map st.inflight).sum
    · exact .inr (.inl hjobs)
    · refine .inr (.inr fun a ha => ?_)
      rw [if_neg hjobs] at h
      cases hfind : (shardOrder st.keys st.last).find?
          fun s => !(st.queue s).isEmpty && decide (st.inflight s < perShard) with
      | none =>
        have hall := List.find?_eq_none.mp hfind a (mem_shardOrder.mpr ha)
        by_cases hq : st.queue a = []
        · exact .inl hq
        · simp only [Bool.and_eq_true, decide_eq_true_eq, Bool.not_eq_true', not_and, not_lt,
            List.isEmpty_eq_false_iff] at hall
          exact .inr (hall hq)
      | some b =>
        have hb := List.find?_some hfind
        rw [hfind] at h
        cases hqueue : st.queue b with
        | nil => simp [hqueue] at hb
        | cons i rest => simp [hqueue] at h

section Start

variable {ts : List Target} {flight started : List Id} {s : Sched} {i : Id} {st' : TenantStage}
  {jobs perShard : Int}

/-- Marking an entry as running leaves its target. -/
theorem Sched.markRunning_target (s : Sched) (i j : Id) :
    ((s.markRunning i).entry j).target = (s.entry j).target := by
  by_cases hj : j = i
  · subst hj
    simp [Sched.markRunning]
  · simp [Sched.markRunning, hj]

/-- Taking a target and marking it keeps the books, with one more in flight and started. -/
theorem Sched.Ok.start (h : s.Ok ts flight started) (hnext : s.stage.next jobs perShard = some (i, st')) :
    (Sched.markRunning ⟨s.entry, st'⟩ i).Ok ts (flight ++ [i]) (started ++ [i]) := by
  obtain ⟨a, rest, hstop, -, -, hqueue, rfl⟩ := next_eq_some hnext
  have hhead : i ∈ s.stage.queue a := by
    rw [hqueue]
    exact List.mem_cons_self
  obtain ⟨hlt, ha, hkind, -⟩ := (h.mem_queue a i).mp hhead
  have hnotFlight : i ∉ flight := by
    intro hi
    rw [((h.mem_flight i).mp hi).2] at hkind
    cases hkind
  -- A queue holds no target twice: it is part of the target list.
  have hnodup : (s.stage.queue a).Nodup := by
    have hall : (onShard ts a (List.range ts.length)).Nodup := List.nodup_range.filter _
    have hpre := (h.order a).sublist.nodup hall
    exact (List.nodup_append.mp hpre).2.1
  have hrest : i ∉ rest := by
    rw [hqueue] at hnodup
    exact (List.nodup_cons.mp hnodup).1
  refine ⟨?_, h.keys_nodup, h.key_mem, ?_, ?_, ?_, ?_, ?_, ?_, ?_, ?_⟩
  · intro j
    rw [Sched.markRunning_target]
    exact h.target j
  · rw [List.nodup_append]
    refine ⟨h.flight_nodup, List.nodup_singleton i, ?_⟩
    intro j hj k hk
    rw [List.mem_singleton.mp hk]
    rintro rfl
    exact hnotFlight hj
  · intro j
    rw [List.mem_append, h.mem_flight, List.mem_singleton]
    by_cases hj : j = i
    · subst hj
      simp [Sched.markRunning, hlt]
    · simp [Sched.markRunning, hj]
  · intro b j
    by_cases hj : j = i
    · subst hj
      have hnot : j ∉ Function.update s.stage.queue a rest b := by
        by_cases hb : b = a
        · subst hb
          simpa using hrest
        · rw [Function.update_of_ne hb, h.mem_queue]
          exact fun hq => hb (hq.2.1.symm.trans ha)
      simp [Sched.markRunning, hnot]
    · have hold := h.mem_queue b j
      by_cases hb : b = a
      · subst hb
        simp only [hqueue, List.mem_cons, hj, false_or] at hold
        simpa [Sched.markRunning, hj] using hold
      · simpa [Sched.markRunning, hj, Function.update_of_ne hb] using hold
  · intro j hj'
    by_cases hj : j = i
    · subst hj
      simp [Sched.markRunning]
    · simpa [Sched.markRunning, hj] using h.finished j hj'
  · intro b
    by_cases hb : b = a
    · subst hb
      simp [Sched.markRunning, onShard, h.inflight, ha]
    · have hne : ¬ shardAt ts i = b := fun he => hb (he.symm.trans ha)
      simp [Sched.markRunning, onShard, h.inflight, hb, hne]
  · intro b
    by_cases hb : b = a
    · subst hb
      have hold := h.order b
      rw [hqueue] at hold
      simpa [Sched.markRunning, onShard, ha] using hold
    · have hne : ¬ shardAt ts i = b := fun he => hb (he.symm.trans ha)
      simpa [Sched.markRunning, onShard, hb, hne] using h.order b
  · intro j hj
    rcases List.mem_append.mp hj with hj | hj
    · exact h.started_lt j hj
    · rw [List.mem_singleton.mp hj]
      exact hlt
  · intro hne
    exact absurd hstop hne

/-- There was room for the target that is taken. -/
theorem Sched.Ok.room (h : s.Ok ts flight started) (hnext : s.stage.next jobs perShard = some (i, st')) :
    (flight.length : Int) < jobs ∧ ((onShard ts (shardAt ts i) flight).length : Int) < perShard := by
  obtain ⟨a, rest, -, hjobs, hshard, hqueue, -⟩ := next_eq_some hnext
  have hhead : i ∈ s.stage.queue a := by
    rw [hqueue]
    exact List.mem_cons_self
  have ha := ((h.mem_queue a i).mp hhead).2.1
  rw [h.sum_inflight] at hjobs
  rw [h.inflight] at hshard
  rw [ha]
  exact ⟨hjobs, hshard⟩

/-- With nothing in flight, `next` finds nothing only when nothing is queued. -/
theorem Sched.Ok.queue_empty (h : s.Ok ts [] started) (hjobs : 1 ≤ jobs) (hper : 1 ≤ perShard)
    (hnext : s.stage.next jobs perShard = none) (a : Alias) : s.stage.queue a = [] := by
  have hsum := h.sum_inflight
  simp only [List.length_nil, Nat.cast_zero] at hsum
  rcases next_eq_none hnext with hstop | hfull | hall
  · exact h.stopped hstop a
  · omega
  · by_contra hne
    obtain ⟨i, hi⟩ := List.exists_mem_of_ne_nil _ hne
    obtain ⟨hlt, ha, -⟩ := (h.mem_queue a i).mp hi
    rcases hall a (ha ▸ h.key_mem i hlt) with hq | hfull
    · exact hne hq
    · have hzero := h.inflight a
      simp only [onShard, List.filter_nil, List.length_nil, Nat.cast_zero] at hzero
      omega

end Start

end Keeps

/-! ### The stage of a target list -/

/-- What queueing some entries does to a stage: the queue of a shard grows by those on it. -/
theorem enqueue_all (st : TenantStage) (l : List (Target × Id)) :
    ∃ keys queue, l.foldl (fun st ti => st.enqueue ti.2 ti.1.shard) st =
        { st with keys := keys, queue := queue } ∧
      (st.keys.Nodup → keys.Nodup) ∧ (∀ a, a ∈ keys ↔ a ∈ st.keys ∨ ∃ ti ∈ l, ti.1.shard = a) ∧
      ∀ a, queue a = st.queue a ++ (l.filter fun ti => ti.1.shard = a).map Prod.snd := by
  induction l generalizing st with
  | nil => exact ⟨st.keys, st.queue, rfl, id, by simp, by simp⟩
  | cons ti l ih =>
    obtain ⟨keys, queue, heq, hnodup, hmem, hqueue⟩ := ih (st.enqueue ti.2 ti.1.shard)
    refine ⟨keys, queue, heq, fun hst => hnodup ?_, fun a => ?_, fun a => ?_⟩
    · simp only [TenantStage.enqueue]
      split
      · exact hst
      · rename_i hnot
        rw [List.nodup_append]
        refine ⟨hst, List.nodup_singleton _, ?_⟩
        intro b hb c hc hbc
        exact hnot (List.mem_singleton.mp hc ▸ hbc ▸ hb)
    · rw [hmem]
      simp only [TenantStage.enqueue, List.mem_cons, exists_eq_or_imp]
      split
      · rename_i hin
        constructor
        · rintro (h | h)
          · exact .inl h
          · exact .inr (.inr h)
        · rintro (h | rfl | h)
          · exact .inl h
          · exact .inl hin
          · exact .inr h
      · simp only [List.mem_append, List.mem_singleton]
        constructor
        · rintro ((h | rfl) | h)
          · exact .inl h
          · exact .inr (.inl rfl)
          · exact .inr (.inr h)
        · rintro (h | rfl | h)
          · exact .inl (.inl h)
          · exact .inl (.inr rfl)
          · exact .inr h
    · rw [hqueue]
      by_cases ha : ti.1.shard = a
      · subst ha
        simp [TenantStage.enqueue]
      · have hne : a ≠ ti.1.shard := fun he => ha he.symm
        simp [TenantStage.enqueue, ha, hne]

/-- The targets with their positions, as the positions with their targets. -/
theorem zipIdx_eq_map (ts : List Target) :
    ts.zipIdx = (List.range ts.length).map fun i => (targetAt ts i, i) := by
  apply List.ext_getElem
  · simp
  · intro i h₁ h₂
    have hi : i < ts.length := by simpa using h₁
    simp [targetAt, hi]

/-- The books at the beginning: the entries of the target list, all of them queued. -/
theorem Sched.ok_of (ts : List Target) (keepGoing : Bool) (maxFailures : Int) :
    Sched.Ok ts [] []
      ⟨fun i => Entry.fresh (targetAt ts i), TenantStage.of ts keepGoing maxFailures⟩ := by
  obtain ⟨keys, queue, heq, hnodup, hmem, hqueue⟩ :=
    enqueue_all (.empty keepGoing maxFailures) ts.zipIdx
  have hq : ∀ a, queue a = onShard ts a (List.range ts.length) := by
    intro a
    rw [hqueue, zipIdx_eq_map, List.filter_map, List.map_map]
    simp only [TenantStage.empty, List.nil_append, Function.comp_def, List.map_id']
    rfl
  have hk : ∀ i < ts.length, shardAt ts i ∈ keys := by
    intro i hi
    rw [hmem, zipIdx_eq_map]
    refine .inr ⟨(targetAt ts i, i), List.mem_map.mpr ⟨i, List.mem_range.mpr hi, rfl⟩, rfl⟩
  rw [TenantStage.of, heq]
  refine ⟨fun _ => rfl, hnodup List.nodup_nil, hk, List.nodup_nil, ?_, ?_, ?_, ?_, ?_, ?_, ?_⟩
  · intro i
    simp [Entry.fresh]
  · intro a i
    simp [hq, Entry.fresh]
  · intro i _
    simp [Entry.fresh]
  · intro a
    simp [TenantStage.empty, onShard]
  · intro a
    simp [hq, onShard]
  · simp
  · intro h
    exact absurd rfl h

end MtShards.Scheduler
