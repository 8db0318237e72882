import Mathlib.Data.List.DropRight
import MtShards.Core.Events
import MtShards.Models.Scheduler.Conservation

/-!
# When failures stop the tenant stage

`TenantStage.done` keeps a counter for each shard and empties queues as targets complete. The
reference reads the same decision off the log of what happened: which targets were taken, how
they completed, and when the operator asked to drain. Targets are taken, complete and drains
arrive in any order, as in the sequential loop and in a pool.
-/

namespace MtShards.Scheduler

open MtShards.Core
open MtShards.Migrator (Kind Side Exn)

/-! ### The stage and its log -/

/-- What `_collect` makes of a delivery: its kind. -/
def Delivered.kind : Delivered → Kind
  | .result res => res.kind
  | .raised _ => .failed

/-- The side whose connection was lost. -/
def Delivered.connError : Delivered → Option Side
  | .result res => res.connError
  | .raised _ => none

/-- What happened to the stage. -/
inductive Did
  | took (i : Id)
  | completed (i : Id) (d : Delivered)
  | drained
  deriving DecidableEq, Repr

/-- A stage at work: its targets in flight, and the log. -/
structure Staged where
  sched : Sched
  flight : List Id
  log : List Did

/-- A call of the stage. -/
inductive Call
  /-- `next(jobs, per_shard)`; the entry is marked as running. -/
  | next (jobs perShard : Int)
  /-- `_finish`, for a target in flight. -/
  | finish (i : Id) (d : Delivered)
  /-- `halt(Stop("signal"))`. -/
  | drain

namespace Staged

/-- The stage of a target list. -/
def start (ts : List Target) (keepGoing : Bool) (maxFailures : Nat) : Staged :=
  ⟨.of ts keepGoing maxFailures, [], []⟩

/-- One call. -/
def step (s : Staged) : Call → Option Staged
  | .next jobs perShard =>
    match s.sched.stage.next jobs perShard with
    | none => some s
    | some (i, st) =>
      some ⟨Sched.markRunning ⟨s.sched.entry, st⟩ i, s.flight ++ [i], s.log ++ [.took i]⟩
  | .finish i d =>
    if i ∈ s.flight then
      some ⟨s.sched.finish i d, s.flight.erase i, s.log ++ [.completed i d]⟩
    else none
  | .drain => some ⟨s.sched.halt ⟨.signal, none⟩ false, s.flight, s.log ++ [.drained]⟩

/-- What a call may do. -/
inductive Called (s : Staged) : Call → Staged → Prop
  | idle {jobs perShard : Int} (next : s.sched.stage.next jobs perShard = none) :
      Called s (.next jobs perShard) s
  | took {jobs perShard : Int} {i : Id} {st : TenantStage}
      (next : s.sched.stage.next jobs perShard = some (i, st)) : Called s (.next jobs perShard)
        ⟨Sched.markRunning ⟨s.sched.entry, st⟩ i, s.flight ++ [i], s.log ++ [.took i]⟩
  | completed {i : Id} (flight : i ∈ s.flight) (d : Delivered) : Called s (.finish i d)
      ⟨s.sched.finish i d, s.flight.erase i, s.log ++ [.completed i d]⟩
  | drained : Called s .drain
      ⟨s.sched.halt ⟨.signal, none⟩ false, s.flight, s.log ++ [.drained]⟩

/-- A step of the stage is a call of it. -/
theorem called_of_step {s s' : Staged} {c : Call} (h : s.step c = some s') : s.Called c s' := by
  cases c with
  | next jobs perShard =>
    simp only [step] at h
    split at h
    · rename_i hnext
      cases h
      exact .idle hnext
    · rename_i i st hnext
      cases h
      exact .took hnext
  | finish i d =>
    simp only [step] at h
    split at h
    · rename_i hi
      cases h
      exact .completed hi d
    · cases h
  | drain =>
    cases h
    exact .drained

end Staged

/-! ### The reference -/

section Reference

variable (ts : List Target)

/-- The targets taken. -/
def taken (log : List Did) : List Id :=
  log.filterMap fun e => match e with
    | .took i => some i
    | _ => none

/-- Whether an entry of the log reports that the shard is unreachable. -/
def Did.reports (a : Alias) : Did → Bool
  | .completed i d => d.connError = some .shard && shardAt ts i = a
  | _ => false

/-- The targets still queued: not taken, and not on a shard that was reported. -/
def queuedAfter (log : List Did) : List Id :=
  (List.range ts.length).filter fun i =>
    decide (i ∉ taken log) && !(log.any (Did.reports ts (shardAt ts i)))

/-- The outcome of a shard that counts: `ok`, `noop` or `failed`, and no connection error. -/
def Did.counted (a : Alias) : Did → Option Kind
  | .completed i d =>
    if shardAt ts i = a ∧ d.connError = none ∧ d.kind ≠ .skipped then some d.kind else none
  | _ => none

/-- The outcomes of a shard that count, in the order of completion. -/
def outcomes (a : Alias) (log : List Did) : List Kind := log.filterMap (Did.counted ts a)

/-- The last `n` outcomes that count are all failures. -/
def LastFailed (n : Nat) (l : List Kind) : Prop := n ≤ l.length ∧ ∀ k ∈ l.rtake n, k = .failed

instance (n : Nat) (l : List Kind) : Decidable (LastFailed n l) :=
  inferInstanceAs (Decidable (_ ∧ _))

variable (keepGoing : Bool) (maxFailures : Nat)

/-- The stop that an event calls for, after what was logged before it. -/
def trigger (before : List Did) : Did → Option Stop
  | .took _ => none
  | .drained => some ⟨.signal, none⟩
  | .completed i d =>
    if d.connError = some .default then some ⟨.defaultUnreachable, none⟩
    else if d.kind ≠ .failed then none
    else if keepGoing = false then
      if queuedAfter ts (before ++ [.completed i d]) ≠ [] then some ⟨.failFast, none⟩ else none
    else if LastFailed maxFailures (outcomes ts (shardAt ts i) (before ++ [.completed i d])) then
      some ⟨.maxFailures, some (shardAt ts i)⟩
    else none

/-- The first stop that is called for, with the log up to it. -/
def firstStop : List Did → List Did → Option (Stop × List Did)
  | _, [] => none
  | before, e :: rest =>
    match trigger ts keepGoing maxFailures before e with
    | some stop => some (stop, before ++ [e])
    | none => firstStop (before ++ [e]) rest

/-- The reference for the stop state. -/
def referenceStop (log : List Did) : Option (Stop × List Did) :=
  firstStop ts keepGoing maxFailures [] log

/-- The target was queued on a shard when that shard was reported unreachable. -/
def DroppedIn (log : List Did) (i : Id) : Prop :=
  ∃ before e after, log = before ++ e :: after ∧ e.reports ts (shardAt ts i) = true ∧
    i ∈ queuedAfter ts before

/-- The target was queued at the moment of the stop, or dropped with its shard. -/
def LeftOut (log : List Did) (i : Id) : Prop :=
  (∃ stop moment, referenceStop ts keepGoing maxFailures log = some (stop, moment) ∧
    i ∈ queuedAfter ts moment) ∨ DroppedIn ts log i

/-- The reference for the reason of a target that was not taken: `stopped` for one that was
queued at the moment of the stop, the empty string for one that still is queued, and
`shard_unreachable` for one that was dropped before. -/
def leftReason (log : List Did) (i : Id) : EntryReason :=
  match referenceStop ts keepGoing maxFailures log with
  | some (_, moment) => if i ∈ queuedAfter ts moment then .stopped else .shardUnreachable
  | none => if i ∈ queuedAfter ts log then .unset else .shardUnreachable

end Reference

/-! ### Reading the log -/

section Log

variable {ts : List Target} {keepGoing : Bool} {maxFailures : Nat} {log : List Did} {e : Did}

/-- A target is queued after a log if it was not taken and its shard was not reported unreachable.
-/
theorem mem_queuedAfter {i : Id} : i ∈ queuedAfter ts log ↔
    i < ts.length ∧ i ∉ taken log ∧ log.any (Did.reports ts (shardAt ts i)) = false := by
  simp only [queuedAfter, List.mem_filter, List.mem_range, Bool.and_eq_true, decide_eq_true_eq,
    Bool.not_eq_true']

/-- The targets taken in two logs are those of the first and then those of the second. -/
theorem taken_append (log log' : List Did) : taken (log ++ log') = taken log ++ taken log' := by
  simp only [taken, List.filterMap_append]

/-- The outcomes of a shard in two logs are those of the first and then those of the second. -/
theorem outcomes_append (a : Alias) (log log' : List Did) :
    outcomes ts a (log ++ log') = outcomes ts a log ++ outcomes ts a log' := by
  simp only [outcomes, List.filterMap_append]

/-- An event that does not count for a shard leaves its outcomes. -/
theorem outcomes_concat_of_none {a : Alias} (he : e.counted ts a = none) :
    outcomes ts a (log ++ [e]) = outcomes ts a log := by
  rw [outcomes_append, outcomes, outcomes, List.filterMap_cons_none he, List.filterMap_nil,
    List.append_nil]

/-- An event that counts is the last outcome of its shard. -/
theorem outcomes_concat_of_some {a : Alias} {k : Kind} (he : e.counted ts a = some k) :
    outcomes ts a (log ++ [e]) = outcomes ts a log ++ [k] := by
  rw [outcomes_append, outcomes, outcomes, List.filterMap_cons_some he, List.filterMap_nil]

/-- What is queued after one more event. -/
theorem mem_queuedAfter_concat {i : Id} : i ∈ queuedAfter ts (log ++ [e]) ↔
    i ∈ queuedAfter ts log ∧ i ∉ taken [e] ∧ e.reports ts (shardAt ts i) = false := by
  simp only [mem_queuedAfter, taken_append, List.mem_append, List.any_append, List.any_cons,
    List.any_nil, Bool.or_eq_false_iff, not_or, and_true]
  tauto

/-- The number of failures at the end. -/
def trailing (l : List Kind) : Nat := (l.rtakeWhile fun k => decide (k = .failed)).length

/-- One more failure at the end makes the run of failures longer by one. -/
theorem trailing_concat_failed (l : List Kind) : trailing (l ++ [.failed]) = trailing l + 1 := by
  rw [trailing, List.rtakeWhile_concat_pos _ _ _ (by decide), List.length_append]
  rfl

/-- Any other outcome at the end ends the run of failures. -/
theorem trailing_concat_of_ne (l : List Kind) {k : Kind} (hk : k ≠ .failed) :
    trailing (l ++ [k]) = 0 := by
  rw [trailing, List.rtakeWhile_concat_neg _ _ _ (by simpa using hk)]
  rfl

/-- Counting failures at the end is looking at the last outcomes. -/
theorem le_trailing_iff (n : Nat) (l : List Kind) : n ≤ trailing l ↔ LastFailed n l := by
  induction l using List.reverseRecOn generalizing n with
  | nil =>
    simp only [trailing, LastFailed, List.rtakeWhile_nil, List.length_nil, List.rtake_nil,
      List.not_mem_nil, false_implies, implies_true, and_true]
  | append_singleton l k ih =>
    cases n with
    | zero =>
      simp only [LastFailed, List.rtake_zero, List.not_mem_nil, false_implies, implies_true,
        and_true, Nat.zero_le]
    | succ n =>
      unfold LastFailed
      rw [List.rtake_concat_succ, List.length_append, List.length_singleton]
      by_cases hk : k = .failed
      · subst hk
        rw [trailing_concat_failed, Nat.add_le_add_iff_right, ih n, LastFailed,
          Nat.add_le_add_iff_right]
        simp only [List.mem_append, List.mem_singleton]
        constructor
        · rintro ⟨hlen, hall⟩
          exact ⟨hlen, fun k hk => hk.elim (hall k) id⟩
        · rintro ⟨hlen, hall⟩
          exact ⟨hlen, fun k hk => hall k (.inl hk)⟩
      · rw [trailing_concat_of_ne l hk]
        constructor
        · intro h
          cases h
        · rintro ⟨-, hall⟩
          exact absurd (hall k (by simp)) hk

private theorem firstStop_append (before log log' : List Did) :
    firstStop ts keepGoing maxFailures before (log ++ log') =
      (firstStop ts keepGoing maxFailures before log).or
        (firstStop ts keepGoing maxFailures (before ++ log) log') := by
  induction log generalizing before with
  | nil => simp [firstStop]
  | cons e log ih =>
    simp only [List.cons_append, firstStop]
    cases trigger ts keepGoing maxFailures before e with
    | some stop => rfl
    | none =>
      simp only
      rw [ih, List.append_assoc, List.singleton_append]

/-- The reference after one more event. -/
theorem referenceStop_concat (log : List Did) (e : Did) :
    referenceStop ts keepGoing maxFailures (log ++ [e]) =
      (referenceStop ts keepGoing maxFailures log).or
        ((trigger ts keepGoing maxFailures log e).map fun stop => (stop, log ++ [e])) := by
  rw [referenceStop, referenceStop, firstStop_append, List.nil_append]
  congr 1
  simp only [firstStop]
  cases trigger ts keepGoing maxFailures log e with
  | none => rfl
  | some stop => rfl

/-- The moment of the stop is in the past. -/
theorem firstStop_moment {before log moment : List Did} {stop : Stop}
    (h : firstStop ts keepGoing maxFailures before log = some (stop, moment)) :
    ∃ after, before ++ log = moment ++ after := by
  induction log generalizing before with
  | nil => cases h
  | cons e log ih =>
    rw [firstStop] at h
    cases htrigger : trigger ts keepGoing maxFailures before e with
    | some stop' =>
      rw [htrigger] at h
      cases h
      exact ⟨log, by simp⟩
    | none =>
      rw [htrigger] at h
      obtain ⟨after, hafter⟩ := ih h
      exact ⟨after, by rw [← hafter, List.append_assoc, List.singleton_append]⟩

/-- A target that was dropped stays dropped as the log grows. -/
theorem DroppedIn.append {i : Id} (h : DroppedIn ts log i) (log' : List Did) :
    DroppedIn ts (log ++ log') i := by
  obtain ⟨before, e, after, rfl, he, hi⟩ := h
  exact ⟨before, e, after ++ log', by simp, he, hi⟩

/-- A target that was not taken is queued, or was dropped. -/
theorem queued_or_dropped {i : Id} (hi : i < ts.length) (htaken : i ∉ taken log) :
    i ∈ queuedAfter ts log ∨ DroppedIn ts log i := by
  induction log using List.reverseRecOn with
  | nil => exact .inl (mem_queuedAfter.mpr ⟨hi, List.not_mem_nil, rfl⟩)
  | append_singleton log e ih =>
    rw [taken_append, List.mem_append, not_or] at htaken
    rcases ih htaken.1 with hqueued | hdropped
    · cases hreports : e.reports ts (shardAt ts i) with
      | true => exact .inr ⟨log, e, [], rfl, hreports, hqueued⟩
      | false => exact .inl (mem_queuedAfter_concat.mpr ⟨hqueued, htaken.2, hreports⟩)
    · exact .inr (hdropped.append [e])

/-- A dropped target was dropped before the last event, or is queued when that event reports its
shard. -/
theorem DroppedIn.of_concat {i : Id} (h : DroppedIn ts (log ++ [e]) i) :
    DroppedIn ts log i ∨ e.reports ts (shardAt ts i) = true ∧ i ∈ queuedAfter ts log := by
  obtain ⟨before, e', after, heq, he, hi⟩ := h
  rcases List.eq_nil_or_concat' after with rfl | ⟨after, e'', rfl⟩
  · obtain ⟨rfl, hlast⟩ := List.append_inj' heq rfl
    cases hlast
    exact .inr ⟨he, hi⟩
  · rw [← List.cons_append, ← List.append_assoc] at heq
    exact .inl ⟨before, e', after, (List.append_inj' heq rfl).1, he, hi⟩

/-- A target that was dropped is on a shard that was reported. -/
theorem DroppedIn.reported {i : Id} (h : DroppedIn ts log i) :
    log.any (Did.reports ts (shardAt ts i)) = true := by
  obtain ⟨before, e, after, rfl, he, -⟩ := h
  simp [he]

end Log

/-! ### What the operations write -/

section Writes

variable {s : Sched}

/-- A halt without override keeps the stop that came first. -/
@[simp] theorem halt_stop (stop : Stop) :
    (s.halt stop false).stage.stop = some (s.stage.stop.getD stop) := by
  cases hstop : s.stage.stop with
  | none => simp [Sched.halt, Sched.stopAfter, hstop]
  | some first => simp [Sched.halt, Sched.stopAfter, hstop]

/-- Every queued entry is still `not_run`. -/
def Sched.QueuedNotRun (s : Sched) : Prop := ∀ a, ∀ i ∈ s.stage.queue a, (s.entry i).kind = .notRun

/-- In a consistent stage every queued entry is still `not_run`. -/
theorem Sched.Ok.queuedNotRun {ts : List Target} {flight started : List Id}
    (h : s.Ok ts flight started) : s.QueuedNotRun :=
  fun a i hi => ((h.mem_queue a i).mp hi).2.2.1

/-- Leaving targets that are `not_run` changes the kind of no entry. -/
theorem writeAll_leave_kind {entry : Id → Entry} {ids : List Id} {reason : EntryReason}
    {msg : String} (hids : ∀ i ∈ ids, (entry i).kind = .notRun) (j : Id) :
    (writeAll entry ids (Entry.leave reason msg) j).kind = (entry j).kind := by
  by_cases hj : j ∈ ids
  · rw [writeAll_of_mem hj, hids j hj]
    rfl
  · rw [writeAll_of_notMem hj]

/-- Leaving targets changes the connection error of no entry. -/
theorem writeAll_leave_connError {entry : Id → Entry} {ids : List Id} {reason : EntryReason}
    {msg : String} (j : Id) :
    (writeAll entry ids (Entry.leave reason msg) j).connError = (entry j).connError := by
  by_cases hj : j ∈ ids
  · rw [writeAll_of_mem hj]
    rfl
  · rw [writeAll_of_notMem hj]

/-- A halt changes the kind of no entry. -/
theorem halt_kind (hq : s.QueuedNotRun) (stop : Stop) (j : Id) :
    ((s.halt stop false).entry j).kind = (s.entry j).kind := by
  apply writeAll_leave_kind
  intro i hi
  obtain ⟨a, -, hi⟩ := List.mem_flatMap.mp hi
  exact hq a i hi

/-- `halt` gives the queued entries their reason, and no other. -/
theorem halt_reason (stop : Stop) (j : Id) :
    ((s.halt stop false).entry j).reason =
      if j ∈ s.stage.queued then .stopped else (s.entry j).reason := by
  by_cases hj : j ∈ s.stage.queued
  · rw [if_pos hj]
    exact congrArg Entry.reason (writeAll_of_mem hj)
  · rw [if_neg hj]
    exact congrArg Entry.reason (writeAll_of_notMem hj)

/-- A halt changes the connection error of no entry. -/
theorem halt_connError (stop : Stop) (j : Id) :
    ((s.halt stop false).entry j).connError = (s.entry j).connError := writeAll_leave_connError j

/-- `account` leaves the stop flag, the settings and the shards. -/
theorem account_stop (s : Sched) (e : Entry) : (s.account e).stage.stop = s.stage.stop ∧
    (s.account e).stage.keepGoing = s.stage.keepGoing ∧
    (s.account e).stage.maxFailures = s.stage.maxFailures ∧
    (s.account e).stage.keys = s.stage.keys := by
  unfold Sched.account
  dsimp only
  split
  · exact ⟨rfl, rfl, rfl, rfl⟩
  · split
    · exact ⟨rfl, rfl, rfl, rfl⟩
    · split <;> exact ⟨rfl, rfl, rfl, rfl⟩

/-- `account` empties the queue of a shard that is reported unreachable. -/
theorem mem_account_queue {e : Entry} {a : Alias} {i : Id} :
    i ∈ (s.account e).stage.queue a ↔
      i ∈ s.stage.queue a ∧ ¬ (e.connError = some .shard ∧ a = e.target.shard) := by
  unfold Sched.account
  dsimp only
  split
  · rename_i hshard
    by_cases ha : a = e.target.shard
    · subst ha
      simp [Sched.dropShard, hshard]
    · simp [Sched.dropShard, ha]
  · rename_i hshard
    simp only [hshard, false_and, not_false_eq_true, and_true]
    split
    · rfl
    · split <;> rfl

/-- `account` counts a failure, and starts again after a success. -/
theorem account_consecutive (e : Entry) (a : Alias) :
    (s.account e).stage.consecutive a =
      if e.connError ≠ some .shard ∧ a = e.target.shard then
        if e.kind = .of .failed then s.stage.consecutive a + 1
        else if e.kind = .of .ok ∨ e.kind = .of .noop then 0
        else s.stage.consecutive a
      else s.stage.consecutive a := by
  unfold Sched.account
  dsimp only
  by_cases hshard : e.connError = some .shard
  · simp [hshard, Sched.dropShard]
  · by_cases ha : a = e.target.shard
    · subst ha
      simp only [hshard, if_false, ne_eq, not_false_eq_true, and_self, if_true]
      split
      · simp [Sched.countFailures]
      · split
        · simp [Sched.countFailures]
        · rfl
    · simp only [hshard, if_false, ha, and_false]
      split
      · simp [Sched.countFailures, ha]
      · split
        · simp [Sched.countFailures, ha]
        · rfl

/-- Accounting for a finished target changes the kind of no entry. -/
theorem account_kind (hq : s.QueuedNotRun) (e : Entry) (j : Id) :
    ((s.account e).entry j).kind = (s.entry j).kind := by
  unfold Sched.account
  dsimp only
  split
  · exact writeAll_leave_kind (fun i hi => hq _ i hi) j
  · split
    · rfl
    · split <;> rfl

private theorem account_connError (e : Entry) (j : Id) :
    ((s.account e).entry j).connError = (s.entry j).connError := by
  unfold Sched.account
  dsimp only
  split
  · exact writeAll_leave_connError j
  · split
    · rfl
    · split <;> rfl

/-- `account` gives the queued entries of an unreachable shard their reason, and no other. -/
theorem account_reason (e : Entry) (j : Id) :
    ((s.account e).entry j).reason =
      if e.connError = some .shard ∧ j ∈ s.stage.queue e.target.shard then .shardUnreachable
      else (s.entry j).reason := by
  unfold Sched.account
  dsimp only
  split
  · rename_i hshard
    by_cases hj : j ∈ s.stage.queue e.target.shard
    · rw [if_pos ⟨hshard, hj⟩]
      exact congrArg Entry.reason (writeAll_of_mem hj)
    · rw [if_neg (fun h => hj h.2)]
      exact congrArg Entry.reason (writeAll_of_notMem hj)
  · rename_i hshard
    simp only [hshard, false_and, if_false]
    split
    · rfl
    · split <;> rfl

/-- Accounting for a finished target leaves the queued entries `not_run`. -/
theorem Sched.QueuedNotRun.account (hq : s.QueuedNotRun) (e : Entry) : (s.account e).QueuedNotRun := by
  intro a i hi
  rw [account_kind hq]
  exact hq a i (mem_account_queue.mp hi).1

/-- The stop that `judge` finds for a failure. -/
def Sched.verdict (s : Sched) (e : Entry) : Option Stop :=
  if e.kind ≠ .of .failed then none
  else if s.stage.keepGoing = false then
    if s.stage.remaining then some ⟨.failFast, none⟩ else none
  else if s.stage.maxFailures ≤ s.stage.consecutive e.target.shard then
    some ⟨.maxFailures, some e.target.shard⟩
  else none

/-- `judge` halts the stage at a verdict, unless it has stopped before. -/
theorem judge_eq (e : Entry) :
    s.judge e = match s.stage.stop, s.verdict e with
      | none, some stop => s.halt stop false
      | _, _ => s := by
  unfold Sched.judge Sched.verdict
  cases hstop : s.stage.stop with
  | some first => simp
  | none =>
    by_cases hkind : e.kind = .of .failed
    · simp only [hkind, ne_eq, not_true_eq_false, or_self, if_false]
      split
      · split <;> rfl
      · split <;> rfl
    · simp [hkind]

/-- What `judge` does to the fields: the stop is kept or set, the queues stay or are emptied. -/
theorem judge_fields (e : Entry) :
    (s.judge e).stage.stop = s.stage.stop.or (s.verdict e) ∧
      ((s.judge e).stage.stop = none → (s.judge e).stage.queue = s.stage.queue) ∧
      (s.judge e).stage.consecutive = s.stage.consecutive ∧
      (s.judge e).stage.keepGoing = s.stage.keepGoing ∧
      (s.judge e).stage.maxFailures = s.stage.maxFailures := by
  rw [judge_eq]
  cases hstop : s.stage.stop with
  | some first => simp [hstop]
  | none =>
    cases s.verdict e with
    | none => simp [hstop]
    | some stop =>
      refine ⟨?_, ?_, rfl, rfl, rfl⟩
      · simp [hstop]
      · intro h
        simp at h

private theorem judge_entry (hq : s.QueuedNotRun) (e : Entry) (j : Id) :
    ((s.judge e).entry j).kind = (s.entry j).kind ∧
      ((s.judge e).entry j).connError = (s.entry j).connError := by
  rw [judge_eq]
  split
  · exact ⟨halt_kind hq _ j, halt_connError _ j⟩
  · exact ⟨rfl, rfl⟩

end Writes

/-! ### The stage against the reference -/

/-- The stage stands where the reference has it. -/
structure Staged.Judged (ts : List Target) (keepGoing : Bool) (maxFailures : Nat) (s : Staged) :
    Prop where
  ok : s.sched.Ok ts s.flight (taken s.log)
  keepGoing_eq : s.sched.stage.keepGoing = keepGoing
  maxFailures_eq : s.sched.stage.maxFailures = maxFailures
  stop : s.sched.stage.stop = (referenceStop ts keepGoing maxFailures s.log).map Prod.fst
  queue : s.sched.stage.stop = none → ∀ a i, i ∈ s.sched.stage.queue a ↔
    i ∈ queuedAfter ts s.log ∧ shardAt ts i = a
  count : ∀ a, s.sched.stage.consecutive a = trailing (outcomes ts a s.log)
  noError : ∀ i, i ∈ s.flight ∨ (s.sched.entry i).kind = .notRun → (s.sched.entry i).connError = none
  notRun : ∀ i < ts.length, (s.sched.entry i).kind = .notRun ↔ i ∉ taken s.log
  still : ∀ stop moment, referenceStop ts keepGoing maxFailures s.log = some (stop, moment) →
    taken s.log = taken moment
  dropped : ∀ i, DroppedIn ts s.log i → i ∉ taken s.log

section Steps

variable {ts : List Target} {keepGoing : Bool} {maxFailures : Nat} {s : Staged}

/-- A stage that starts stands where the reference has it. -/
theorem Staged.Judged.start (ts : List Target) (keepGoing : Bool) (maxFailures : Nat) :
    (Staged.start ts keepGoing maxFailures).Judged ts keepGoing maxFailures := by
  have hok := Sched.ok_of ts keepGoing maxFailures
  have hstage : (TenantStage.of ts keepGoing maxFailures).keepGoing = keepGoing ∧
      (TenantStage.of ts keepGoing maxFailures).maxFailures = maxFailures ∧
      (TenantStage.of ts keepGoing maxFailures).stop = none ∧
      (TenantStage.of ts keepGoing maxFailures).consecutive = fun _ => 0 := by
    obtain ⟨keys, queue, heq, -⟩ := enqueue_all (.empty keepGoing maxFailures) ts.zipIdx
    rw [TenantStage.of, heq]
    exact ⟨rfl, rfl, rfl, rfl⟩
  obtain ⟨hkeep, hmax, hstop, hcount⟩ := hstage
  refine ⟨hok, hkeep, hmax, hstop, ?_, ?_, ?_, ?_, (fun _ _ h => by cases h),
    fun _ _ => List.not_mem_nil⟩
  · intro _ a i
    rw [mem_queuedAfter]
    refine (hok.mem_queue a i).trans ?_
    simp [Entry.fresh, Staged.start, taken]
  · intro a
    exact congrFun hcount a
  · intro i _
    rfl
  · intro i _
    exact ⟨fun _ => List.not_mem_nil, fun _ => rfl⟩

/-- An event that takes nothing leaves it so that nothing is taken after the stop. -/
theorem Staged.Judged.still_concat (h : s.Judged ts keepGoing maxFailures) {e : Did}
    (he : taken [e] = []) {stop : Stop} {moment : List Did}
    (href : referenceStop ts keepGoing maxFailures (s.log ++ [e]) = some (stop, moment)) :
    taken (s.log ++ [e]) = taken moment := by
  rw [referenceStop_concat] at href
  rw [taken_append, he, List.append_nil]
  cases hlog : referenceStop ts keepGoing maxFailures s.log with
  | some r =>
    rw [hlog] at href
    exact h.still stop moment (hlog.trans href)
  | none =>
    rw [hlog, Option.none_or] at href
    obtain ⟨stop', -, hr⟩ := Option.map_eq_some_iff.mp href
    rw [← (Prod.mk.inj hr).2, taken_append, he, List.append_nil]

/-- A target that is dropped by an event that takes nothing has not been taken. -/
theorem Staged.Judged.dropped_concat (h : s.Judged ts keepGoing maxFailures) {e : Did}
    (he : taken [e] = []) {i : Id} (hi : DroppedIn ts (s.log ++ [e]) i) :
    i ∉ taken (s.log ++ [e]) := by
  rw [taken_append, he, List.append_nil]
  rcases hi.of_concat with hold | ⟨-, hqueued⟩
  · exact h.dropped i hold
  · exact (mem_queuedAfter.mp hqueued).2.1

/-- The reference stop after one more event, from the stop of the stage. -/
theorem Staged.Judged.stop_concat (h : s.Judged ts keepGoing maxFailures) (e : Did) :
    (referenceStop ts keepGoing maxFailures (s.log ++ [e])).map Prod.fst =
      s.sched.stage.stop.or (trigger ts keepGoing maxFailures s.log e) := by
  rw [referenceStop_concat, h.stop]
  cases referenceStop ts keepGoing maxFailures s.log with
  | some r => rfl
  | none =>
    cases trigger ts keepGoing maxFailures s.log e with
    | some stop => rfl
    | none => rfl

/-- After a drain the stage stands where the reference has it. -/
theorem Staged.Judged.drain (h : s.Judged ts keepGoing maxFailures) :
    Staged.Judged ts keepGoing maxFailures
      ⟨s.sched.halt ⟨.signal, none⟩ false, s.flight, s.log ++ [.drained]⟩ := by
  have htaken : taken (s.log ++ [.drained]) = taken s.log := by
    rw [taken_append]
    exact List.append_nil _
  have hkind := halt_kind h.ok.queuedNotRun ⟨.signal, none⟩
  refine ⟨?_, h.keepGoing_eq, h.maxFailures_eq, ?_, ?_, ?_, ?_, ?_, ?_, ?_⟩
  · rw [htaken]
    exact h.ok.halt _ _
  · rw [h.stop_concat, halt_stop]
    cases s.sched.stage.stop with
    | none => rfl
    | some first => rfl
  · intro hstop
    rw [halt_stop] at hstop
    cases hstop
  · intro a
    rw [outcomes_concat_of_none rfl]
    exact h.count a
  · intro i hi
    rw [hkind] at hi
    rw [halt_connError]
    exact h.noError i hi
  · intro i hi
    rw [hkind, htaken]
    exact h.notRun i hi
  · intro stop moment
    exact h.still_concat rfl
  · intro i
    exact h.dropped_concat rfl

/-- After a target is taken the stage stands where the reference has it. -/
theorem Staged.Judged.next (h : s.Judged ts keepGoing maxFailures) {jobs perShard : Int} {i : Id}
    {st : TenantStage} (hnext : s.sched.stage.next jobs perShard = some (i, st)) :
    Staged.Judged ts keepGoing maxFailures
      ⟨Sched.markRunning ⟨s.sched.entry, st⟩ i, s.flight ++ [i], s.log ++ [.took i]⟩ := by
  have htaken : taken (s.log ++ [.took i]) = taken s.log ++ [i] := by
    rw [taken_append]
    rfl
  have hok := h.ok.start hnext
  obtain ⟨a, rest, hstop, -, -, hqueue, hst⟩ := next_eq_some hnext
  have hentry : ∀ j, j ≠ i →
      (Sched.markRunning ⟨s.sched.entry, st⟩ i).entry j = s.sched.entry j :=
    fun j hj => Function.update_of_ne hj _ _
  have hself : (Sched.markRunning ⟨s.sched.entry, st⟩ i).entry i =
      { s.sched.entry i with kind := .running } := Function.update_self _ _ _
  have hsame : st.stop = s.sched.stage.stop ∧ st.keepGoing = s.sched.stage.keepGoing ∧
      st.maxFailures = s.sched.stage.maxFailures ∧
      st.consecutive = s.sched.stage.consecutive := by
    rw [hst]
    exact ⟨rfl, rfl, rfl, rfl⟩
  obtain ⟨hstop', hkeep, hmax, hcount⟩ := hsame
  have hnone : referenceStop ts keepGoing maxFailures s.log = none :=
    Option.map_eq_none_iff.mp (h.stop.symm.trans hstop)
  refine ⟨by rw [htaken]; exact hok, hkeep.trans h.keepGoing_eq, hmax.trans h.maxFailures_eq,
    ?_, ?_, ?_, ?_, ?_, ?_, ?_⟩
  · rw [h.stop_concat, hstop]
    exact hstop'.trans hstop
  · intro _ b j
    rw [mem_queuedAfter_concat]
    refine (hok.mem_queue b j).trans ?_
    have hold := (h.ok.mem_queue b j).symm.trans (h.queue hstop b j)
    by_cases hj : j = i
    · subst hj
      rw [hself]
      simp [taken]
    · rw [hentry j hj, hold]
      simp [taken, hj, Did.reports]
  · intro b
    rw [outcomes_concat_of_none rfl]
    exact (congrFun hcount b).trans (h.count b)
  · intro j hj
    by_cases hji : j = i
    · subst hji
      have hmem : j ∈ s.sched.stage.queue a := by
        rw [hqueue]
        exact List.mem_cons_self
      rw [hself]
      exact h.noError j (.inr (h.ok.queuedNotRun a j hmem))
    · rw [hentry j hji] at hj ⊢
      exact h.noError j (hj.imp_left fun hmem => by simpa [hji] using hmem)
  · intro j hj
    rw [htaken, List.mem_append, List.mem_singleton]
    by_cases hji : j = i
    · subst hji
      simp [hself]
    · rw [hentry j hji, h.notRun j hj]
      simp [hji]
  · intro stop moment href
    rw [referenceStop_concat, hnone] at href
    cases href
  · -- A target that is taken was queued, so its shard has not been reported.
    intro j hj
    have hold : DroppedIn ts s.log j := hj.of_concat.resolve_right fun hr => nomatch hr.1
    rw [htaken, List.mem_append, List.mem_singleton, not_or]
    refine ⟨h.dropped j hold, ?_⟩
    rintro rfl
    have hmem : j ∈ s.sched.stage.queue a := by
      rw [hqueue]
      exact List.mem_cons_self
    have hquiet := (mem_queuedAfter.mp ((h.queue hstop a j).mp hmem).1).2.2
    rw [hold.reported] at hquiet
    cases hquiet

/-- The stage when a target has landed and before its outcome is judged. -/
def Sched.landed (s : Sched) (i : Id) (d : Delivered) : Sched :=
  Sched.land { s with entry := Function.update s.entry i ((s.entry i).collect d) }
    ((s.entry i).collect d).target.shard

/-- What is collected of a target without a connection error so far. -/
theorem collect_fields {e : Entry} (he : e.connError = none) (d : Delivered) :
    (e.collect d).kind = .of d.kind ∧ (e.collect d).connError = d.connError := by
  cases d with
  | result res => exact ⟨rfl, rfl⟩
  | raised exc => exact ⟨rfl, he⟩

/-- Finishing a target halts the stage when the default database is unreachable, else it accounts
for the target and judges the stop. -/
theorem finish_eq (s : Sched) (i : Id) (d : Delivered) :
    s.finish i d =
      if ((s.entry i).collect d).connError = some .default then
        (s.landed i d).halt ⟨.defaultUnreachable, none⟩ false
      else ((s.landed i d).account ((s.entry i).collect d)).judge ((s.entry i).collect d) := by
  simp only [Sched.finish, Sched.done, Function.update_self]
  rfl

/-- The entry of a target in flight shows what was delivered for it, on the shard of the target. -/
theorem Staged.Judged.collected (h : s.Judged ts keepGoing maxFailures) {i : Id}
    (hi : i ∈ s.flight) (d : Delivered) :
    ((s.sched.entry i).collect d).kind = .of d.kind ∧
      ((s.sched.entry i).collect d).connError = d.connError ∧
      ((s.sched.entry i).collect d).target.shard = shardAt ts i := by
  obtain ⟨hkind, hconn⟩ := collect_fields (h.noError i (.inl hi)) d
  refine ⟨hkind, hconn, ?_⟩
  rw [collect_target, h.ok.target]
  rfl

/-- The queues once a completion is accounted for. -/
theorem Staged.Judged.mem_accounted_queue (h : s.Judged ts keepGoing maxFailures) {i : Id}
    (hi : i ∈ s.flight) (d : Delivered) (hstop : s.sched.stage.stop = none) (a : Alias) (j : Id) :
    j ∈ ((s.sched.landed i d).account ((s.sched.entry i).collect d)).stage.queue a ↔
      j ∈ queuedAfter ts (s.log ++ [.completed i d]) ∧ shardAt ts j = a := by
  obtain ⟨-, hconn, hshard⟩ := h.collected hi d
  rw [mem_account_queue, hconn, hshard, mem_queuedAfter_concat]
  have hold : j ∈ (s.sched.landed i d).stage.queue a ↔
      j ∈ queuedAfter ts s.log ∧ shardAt ts j = a := h.queue hstop a j
  rw [hold]
  have hreports : Did.reports ts (shardAt ts j) (.completed i d) = false ↔
      ¬ (d.connError = some .shard ∧ shardAt ts i = shardAt ts j) := by
    simp [Did.reports]
  have htaken : j ∉ taken [.completed i d] := List.not_mem_nil
  rw [hreports]
  constructor
  · rintro ⟨⟨hq, rfl⟩, hno⟩
    exact ⟨⟨hq, htaken, fun hyes => hno ⟨hyes.1, hyes.2.symm⟩⟩, rfl⟩
  · rintro ⟨⟨hq, -, hno⟩, rfl⟩
    exact ⟨⟨hq, rfl⟩, fun hyes => hno ⟨hyes.1, hyes.2.symm⟩⟩

/-- The counters once a completion is accounted for. -/
theorem Staged.Judged.accounted_consecutive (h : s.Judged ts keepGoing maxFailures) {i : Id}
    (hi : i ∈ s.flight) {d : Delivered} (hd : d.connError ≠ some .default) (a : Alias) :
    ((s.sched.landed i d).account ((s.sched.entry i).collect d)).stage.consecutive a =
      trailing (outcomes ts a (s.log ++ [.completed i d])) := by
  obtain ⟨hkind, hconn, hshard⟩ := h.collected hi d
  have hold : (s.sched.landed i d).stage.consecutive a = trailing (outcomes ts a s.log) := h.count a
  rw [account_consecutive, hkind, hconn, hshard, hold]
  by_cases hcount : d.connError ≠ some .shard ∧ a = shardAt ts i
  · obtain ⟨hne, rfl⟩ := hcount
    have hnone : d.connError = none := by
      cases hc : d.connError with
      | none => rfl
      | some side =>
        cases side with
        | shard => exact absurd hc hne
        | default => exact absurd hc hd
    rw [if_pos ⟨hne, rfl⟩]
    cases hk : d.kind with
    | failed =>
      rw [outcomes_concat_of_some (k := .failed) (by simp [Did.counted, hnone, hk]),
        trailing_concat_failed]
      rfl
    | ok =>
      rw [outcomes_concat_of_some (k := .ok) (by simp [Did.counted, hnone, hk]),
        trailing_concat_of_ne _ (by decide)]
      rfl
    | noop =>
      rw [outcomes_concat_of_some (k := .noop) (by simp [Did.counted, hnone, hk]),
        trailing_concat_of_ne _ (by decide)]
      rfl
    | skipped =>
      rw [outcomes_concat_of_none (by simp [Did.counted, hk])]
      rfl
  · rw [if_neg hcount, outcomes_concat_of_none]
    rw [not_and_or, not_ne_iff] at hcount
    rcases hcount with hc | ha
    · simp [Did.counted, hc]
    · simp [Did.counted, Ne.symm ha]

/-- The verdict on a target that has completed is what the reference calls for. -/
theorem Staged.Judged.verdict_eq (h : s.Judged ts keepGoing maxFailures) {i : Id}
    (hi : i ∈ s.flight) {d : Delivered} (hd : d.connError ≠ some .default)
    (hstop : s.sched.stage.stop = none) :
    ((s.sched.landed i d).account ((s.sched.entry i).collect d)).verdict
        ((s.sched.entry i).collect d) =
      trigger ts keepGoing maxFailures s.log (.completed i d) := by
  obtain ⟨hkind, -, hshard⟩ := h.collected hi d
  obtain ⟨-, hkeep, hmax, hkeys⟩ := account_stop (s.sched.landed i d) ((s.sched.entry i).collect d)
  have hkeep' := hkeep.trans h.keepGoing_eq
  have hmax' := hmax.trans h.maxFailures_eq
  have hremaining : ((s.sched.landed i d).account ((s.sched.entry i).collect d)).stage.remaining =
      true ↔ queuedAfter ts (s.log ++ [.completed i d]) ≠ [] := by
    rw [TenantStage.remaining, List.any_eq_true]
    constructor
    · rintro ⟨a, -, hne⟩
      rw [Bool.not_eq_true', List.isEmpty_eq_false_iff] at hne
      obtain ⟨j, hj⟩ := List.exists_mem_of_ne_nil _ hne
      exact List.ne_nil_of_mem ((h.mem_accounted_queue hi d hstop a j).mp hj).1
    · intro hne
      obtain ⟨j, hj⟩ := List.exists_mem_of_ne_nil _ hne
      refine ⟨shardAt ts j, ?_, ?_⟩
      · rw [hkeys]
        exact h.ok.key_mem j (mem_queuedAfter.mp hj).1
      · rw [Bool.not_eq_true', List.isEmpty_eq_false_iff]
        exact List.ne_nil_of_mem ((h.mem_accounted_queue hi d hstop _ j).mpr ⟨hj, rfl⟩)
  have hlimit : (((s.sched.landed i d).account ((s.sched.entry i).collect d)).stage.maxFailures ≤
      ((s.sched.landed i d).account ((s.sched.entry i).collect d)).stage.consecutive
        (shardAt ts i)) ↔
      LastFailed maxFailures (outcomes ts (shardAt ts i) (s.log ++ [.completed i d])) := by
    rw [hmax', h.accounted_consecutive hi hd, ← le_trailing_iff]
    exact Int.ofNat_le
  simp only [Sched.verdict, trigger, if_neg hd, hkind, hshard, hkeep', hremaining, hlimit,
    EntryKind.of.injEq, ne_eq]

/-- The entries once a target has landed: its own is written, the others are left. -/
theorem landed_entry (s : Sched) (i : Id) (d : Delivered) (j : Id) :
    (s.landed i d).entry j = if j = i then (s.entry i).collect d else s.entry j := by
  by_cases hj : j = i
  · subst hj
    simp [Sched.landed, Sched.land]
  · simp [Sched.landed, Sched.land, hj]

/-- Landing a target leaves the queued entries `not_run`. -/
theorem Staged.Judged.landed_queuedNotRun (h : s.Judged ts keepGoing maxFailures) {i : Id}
    (hi : i ∈ s.flight) (d : Delivered) : (s.sched.landed i d).QueuedNotRun := by
  have hland := h.ok.land hi d
  rw [← (h.collected hi d).2.2] at hland
  exact hland.queuedNotRun

/-- The kinds and connection errors after a completion. -/
theorem Staged.Judged.finish_entry (h : s.Judged ts keepGoing maxFailures) {i : Id}
    (hi : i ∈ s.flight) (d : Delivered) (j : Id) :
    ((s.sched.finish i d).entry j).kind = ((s.sched.landed i d).entry j).kind ∧
      ((s.sched.finish i d).entry j).connError = ((s.sched.landed i d).entry j).connError := by
  have hq := h.landed_queuedNotRun hi d
  rw [finish_eq]
  split
  · exact ⟨halt_kind hq _ j, halt_connError _ j⟩
  · obtain ⟨hkind, hconn⟩ := judge_entry (hq.account _) ((s.sched.entry i).collect d) j
    exact ⟨hkind.trans (account_kind hq _ j), hconn.trans (account_connError _ j)⟩

/-- The stop flag, the queues, the counters and the settings after a completion. -/
theorem Staged.Judged.finish_stage (h : s.Judged ts keepGoing maxFailures) {i : Id}
    (hi : i ∈ s.flight) (d : Delivered) :
    (s.sched.finish i d).stage.stop =
        s.sched.stage.stop.or (trigger ts keepGoing maxFailures s.log (.completed i d)) ∧
      ((s.sched.finish i d).stage.stop = none → ∀ a j, j ∈ (s.sched.finish i d).stage.queue a ↔
        j ∈ queuedAfter ts (s.log ++ [.completed i d]) ∧ shardAt ts j = a) ∧
      (∀ a, (s.sched.finish i d).stage.consecutive a =
        trailing (outcomes ts a (s.log ++ [.completed i d]))) ∧
      (s.sched.finish i d).stage.keepGoing = keepGoing ∧
      (s.sched.finish i d).stage.maxFailures = maxFailures := by
  obtain ⟨-, hconn, -⟩ := h.collected hi d
  rw [finish_eq, hconn]
  by_cases hd : d.connError = some .default
  · rw [if_pos hd]
    refine ⟨?_, ?_, ?_, h.keepGoing_eq, h.maxFailures_eq⟩
    · rw [halt_stop]
      simp only [trigger, if_pos hd]
      change some (s.sched.stage.stop.getD _) = _
      cases s.sched.stage.stop with
      | none => rfl
      | some first => rfl
    · intro hstop
      rw [halt_stop] at hstop
      cases hstop
    · intro a
      rw [outcomes_concat_of_none (by simp [Did.counted, hd])]
      exact h.count a
  · rw [if_neg hd]
    obtain ⟨hstop₁, hkeep₁, hmax₁, -⟩ :=
      account_stop (s.sched.landed i d) ((s.sched.entry i).collect d)
    have hstop₁ : ((s.sched.landed i d).account ((s.sched.entry i).collect d)).stage.stop =
        s.sched.stage.stop := hstop₁
    obtain ⟨hstop, hqueue, hcount, hkeep, hmax⟩ := judge_fields
      (s := (s.sched.landed i d).account ((s.sched.entry i).collect d))
      ((s.sched.entry i).collect d)
    refine ⟨?_, ?_, ?_, hkeep.trans (hkeep₁.trans h.keepGoing_eq),
      hmax.trans (hmax₁.trans h.maxFailures_eq)⟩
    · rw [hstop, hstop₁]
      cases hs : s.sched.stage.stop with
      | some first => rfl
      | none => rw [h.verdict_eq hi hd hs]
    · intro hnone a j
      rw [hqueue hnone]
      have hs : s.sched.stage.stop = none := by
        rw [hstop, hstop₁, Option.or_eq_none_iff] at hnone
        exact hnone.1
      exact h.mem_accounted_queue hi d hs a j
    · intro a
      rw [hcount]
      exact h.accounted_consecutive hi hd a

/-- After a target is finished the stage stands where the reference has it. -/
theorem Staged.Judged.finish (h : s.Judged ts keepGoing maxFailures) {i : Id} (hi : i ∈ s.flight)
    (d : Delivered) :
    Staged.Judged ts keepGoing maxFailures
      ⟨s.sched.finish i d, s.flight.erase i, s.log ++ [.completed i d]⟩ := by
  have htaken : taken (s.log ++ [.completed i d]) = taken s.log := by
    rw [taken_append]
    exact List.append_nil _
  obtain ⟨hstop, hqueue, hcount, hkeep, hmax⟩ := h.finish_stage hi d
  have hentry := h.finish_entry hi d
  have hself : ((s.sched.landed i d).entry i).kind = .of d.kind := by
    rw [landed_entry, if_pos rfl]
    exact (h.collected hi d).1
  have hothers : ∀ j, j ≠ i → (s.sched.landed i d).entry j = s.sched.entry j := by
    intro j hj
    rw [landed_entry, if_neg hj]
  refine ⟨?_, hkeep, hmax, ?_, hqueue, hcount, ?_, ?_, ?_, ?_⟩
  · rw [htaken]
    exact h.ok.finish hi d
  · rw [h.stop_concat]
    exact hstop
  · intro j hj
    rw [(hentry j).1] at hj
    rw [(hentry j).2]
    by_cases hji : j = i
    · subst hji
      rw [h.ok.flight_nodup.mem_erase_iff, hself] at hj
      simp at hj
    · rw [hothers j hji] at hj ⊢
      exact h.noError j (hj.imp_left List.mem_of_mem_erase)
  · intro j hj
    rw [(hentry j).1, htaken]
    by_cases hji : j = i
    · subst hji
      have hrunning := ((h.ok.mem_flight j).mp hi).2
      have hin : j ∈ taken s.log := by
        by_contra hnot
        rw [(h.notRun j hj).mpr hnot] at hrunning
        cases hrunning
      simp [hself, hin]
    · rw [hothers j hji]
      exact h.notRun j hj
  · intro stop moment
    exact h.still_concat rfl
  · intro j
    exact h.dropped_concat rfl

/-- Every step leaves the stage where the reference has it. -/
theorem Staged.Judged.step (h : s.Judged ts keepGoing maxFailures) {c : Call} {s' : Staged}
    (hs : s.step c = some s') : s'.Judged ts keepGoing maxFailures := by
  cases Staged.called_of_step hs with
  | idle _ => exact h
  | took hnext => exact h.next hnext
  | completed hi d => exact h.finish hi d
  | drained => exact h.drain

/-- A stop is kept. -/
theorem Staged.Judged.stop_kept (h : s.Judged ts keepGoing maxFailures) {c : Call} {s' : Staged}
    (hs : s.step c = some s') (hstop : s.sched.stage.stop ≠ none) :
    s'.sched.stage.stop = s.sched.stage.stop := by
  obtain ⟨stop, hstop⟩ := Option.ne_none_iff_exists'.mp hstop
  cases Staged.called_of_step hs with
  | idle _ => rfl
  | took hnext =>
    obtain ⟨_, _, hnone, -⟩ := next_eq_some hnext
    rw [hstop] at hnone
    cases hnone
  | completed hi d =>
    rw [(h.finish_stage hi d).1, hstop]
    rfl
  | drained =>
    rw [halt_stop, hstop]
    rfl

/-! ### Why a target was left out -/

/-- The targets that were not taken have the reason that the reference calls for. -/
def Staged.Reasoned (ts : List Target) (keepGoing : Bool) (maxFailures : Nat) (s : Staged) : Prop :=
  ∀ i < ts.length, i ∉ taken s.log →
    (s.sched.entry i).reason = leftReason ts keepGoing maxFailures s.log i

/-- When a stage starts, no entry has a reason that the reference does not give it. -/
theorem Staged.Reasoned.start (ts : List Target) (keepGoing : Bool) (maxFailures : Nat) :
    (Staged.start ts keepGoing maxFailures).Reasoned ts keepGoing maxFailures := by
  intro i hi _
  have hqueued : i ∈ queuedAfter ts [] := mem_queuedAfter.mpr ⟨hi, List.not_mem_nil, rfl⟩
  exact (if_pos hqueued).symm

/-- Without a stop so far, the reference looks at what is queued. -/
theorem leftReason_of_none {log : List Did} {i : Id}
    (h : referenceStop ts keepGoing maxFailures log = none) :
    leftReason ts keepGoing maxFailures log i =
      if i ∈ queuedAfter ts log then .unset else .shardUnreachable := by
  rw [leftReason, h]

/-- An event that stops the stage is the moment of the stop. -/
theorem leftReason_of_trigger {log : List Did} {e : Did} {stop : Stop} {i : Id}
    (h : referenceStop ts keepGoing maxFailures log = none)
    (htrigger : trigger ts keepGoing maxFailures log e = some stop) :
    leftReason ts keepGoing maxFailures (log ++ [e]) i =
      if i ∈ queuedAfter ts (log ++ [e]) then .stopped else .shardUnreachable := by
  rw [leftReason, referenceStop_concat, h, htrigger]
  rfl

/-- After the stop, the reference does not change any more. -/
theorem leftReason_of_stopped {log : List Did} {e : Did} {i : Id}
    (h : referenceStop ts keepGoing maxFailures log ≠ none) :
    leftReason ts keepGoing maxFailures (log ++ [e]) i =
      leftReason ts keepGoing maxFailures log i := by
  obtain ⟨r, hr⟩ := Option.ne_none_iff_exists'.mp h
  rw [leftReason, leftReason, referenceStop_concat, hr]
  rfl

/-- A stage that has its reasons right for what is queued has them right when it halts. -/
theorem halted_reason {s : Sched} {stop : Stop} {log : List Did} {j : Id}
    (hqueued : j ∈ s.stage.queued ↔ j ∈ queuedAfter ts log)
    (hreason : (s.entry j).reason =
      if j ∈ queuedAfter ts log then .unset else .shardUnreachable) :
    ((s.halt stop false).entry j).reason =
      if j ∈ queuedAfter ts log then .stopped else .shardUnreachable := by
  rw [halt_reason, hreason]
  by_cases hj : j ∈ queuedAfter ts log
  · rw [if_pos (hqueued.mpr hj), if_pos hj]
  · rw [if_neg (fun h => hj (hqueued.mp h)), if_neg hj, if_neg hj]

/-- What is queued on a stage that has not stopped. -/
theorem Staged.Judged.mem_queued (h : s.Judged ts keepGoing maxFailures)
    (hstop : s.sched.stage.stop = none) (j : Id) :
    j ∈ s.sched.stage.queued ↔ j ∈ queuedAfter ts s.log := by
  rw [h.ok.mem_queued, h.queue hstop]
  exact and_iff_left rfl

/-- On a stage that has stopped, nothing is queued. -/
theorem Staged.Judged.queued_nil (h : s.Judged ts keepGoing maxFailures)
    (hstop : s.sched.stage.stop ≠ none) : s.sched.stage.queued = [] := by
  refine List.eq_nil_iff_forall_not_mem.mpr fun i hi => ?_
  rw [h.ok.mem_queued, h.ok.stopped hstop] at hi
  exact List.not_mem_nil hi

/-- The stage has no stop exactly if the reference has none. -/
theorem Staged.Judged.reference_none (h : s.Judged ts keepGoing maxFailures) :
    s.sched.stage.stop = none ↔ referenceStop ts keepGoing maxFailures s.log = none := by
  rw [h.stop, Option.map_eq_none_iff]

/-- Taking a target leaves every reason as the reference has it. -/
theorem Staged.Judged.next_reasoned (h : s.Judged ts keepGoing maxFailures)
    (hr : s.Reasoned ts keepGoing maxFailures) {jobs perShard : Int} {i : Id} {st : TenantStage}
    (hnext : s.sched.stage.next jobs perShard = some (i, st)) :
    Staged.Reasoned ts keepGoing maxFailures
      ⟨Sched.markRunning ⟨s.sched.entry, st⟩ i, s.flight ++ [i], s.log ++ [.took i]⟩ := by
  intro j hj htaken
  rw [taken_append, List.mem_append, not_or] at htaken
  have hji : j ≠ i := fun he => htaken.2 (he ▸ List.mem_singleton_self i)
  obtain ⟨_, _, hstop, -⟩ := next_eq_some hnext
  have hnone := h.reference_none.mp hstop
  have hafter : referenceStop ts keepGoing maxFailures (s.log ++ [.took i]) = none := by
    rw [referenceStop_concat, hnone]
    rfl
  have hsame : j ∈ queuedAfter ts (s.log ++ [.took i]) ↔ j ∈ queuedAfter ts s.log := by
    rw [mem_queuedAfter_concat]
    exact and_iff_left ⟨htaken.2, rfl⟩
  have hold := hr j hj htaken.1
  rw [leftReason_of_none hnone] at hold
  rw [leftReason_of_none hafter]
  simp only [hsame]
  rw [← hold]
  exact congrArg Entry.reason (Function.update_of_ne hji _ _)

/-- A drain gives the queued targets the reason that the reference has for them. -/
theorem Staged.Judged.drain_reasoned (h : s.Judged ts keepGoing maxFailures)
    (hr : s.Reasoned ts keepGoing maxFailures) :
    Staged.Reasoned ts keepGoing maxFailures
      ⟨s.sched.halt ⟨.signal, none⟩ false, s.flight, s.log ++ [.drained]⟩ := by
  intro j hj htaken
  rw [taken_append, List.mem_append, not_or] at htaken
  have hold := hr j hj htaken.1
  by_cases hstop : s.sched.stage.stop = none
  · have hnone := h.reference_none.mp hstop
    have hsame : j ∈ queuedAfter ts (s.log ++ [.drained]) ↔ j ∈ queuedAfter ts s.log := by
      rw [mem_queuedAfter_concat]
      exact and_iff_left ⟨List.not_mem_nil, rfl⟩
    rw [leftReason_of_none hnone] at hold
    rw [leftReason_of_trigger hnone rfl]
    simp only [hsame]
    exact halted_reason (h.mem_queued hstop j) hold
  · rw [leftReason_of_stopped (fun hnone => hstop (h.reference_none.mpr hnone)), ← hold,
      halt_reason, h.queued_nil hstop]
    exact if_neg List.not_mem_nil

/-- The books once a completion is accounted for. -/
theorem Staged.Judged.accounted_ok (h : s.Judged ts keepGoing maxFailures) {i : Id}
    (hi : i ∈ s.flight) (d : Delivered) :
    ((s.sched.landed i d).account ((s.sched.entry i).collect d)).Ok ts (s.flight.erase i)
      (taken s.log) := by
  have hland := h.ok.land hi d
  rw [← (h.collected hi d).2.2] at hland
  exact hland.account _

/-- The reasons once a completion is accounted for. -/
theorem Staged.Judged.accounted_reason (h : s.Judged ts keepGoing maxFailures) {i : Id}
    (hi : i ∈ s.flight) (d : Delivered) (hstop : s.sched.stage.stop = none) {j : Id} (hji : j ≠ i)
    (hold : (s.sched.entry j).reason =
      if j ∈ queuedAfter ts s.log then .unset else .shardUnreachable) :
    (((s.sched.landed i d).account ((s.sched.entry i).collect d)).entry j).reason =
      if j ∈ queuedAfter ts (s.log ++ [.completed i d]) then .unset else .shardUnreachable := by
  obtain ⟨-, hconn, hshard⟩ := h.collected hi d
  have hqueue : j ∈ (s.sched.landed i d).stage.queue (shardAt ts i) ↔
      j ∈ queuedAfter ts s.log ∧ shardAt ts j = shardAt ts i := h.queue hstop _ j
  have htaken : j ∉ taken [.completed i d] := List.not_mem_nil
  have hreports : Did.reports ts (shardAt ts j) (.completed i d) = true ↔
      d.connError = some .shard ∧ shardAt ts i = shardAt ts j := by
    simp [Did.reports]
  rw [account_reason, hconn, hshard, landed_entry, if_neg hji, hold]
  simp only [hqueue]
  by_cases hq : j ∈ queuedAfter ts s.log
  · cases hrep : Did.reports ts (shardAt ts j) (.completed i d) with
    | true =>
      obtain ⟨hd, hij⟩ := hreports.mp hrep
      rw [if_pos ⟨hd, hq, hij.symm⟩, if_neg]
      rw [mem_queuedAfter_concat, hrep]
      rintro ⟨-, -, hno⟩
      cases hno
    | false =>
      rw [if_pos (mem_queuedAfter_concat.mpr ⟨hq, htaken, hrep⟩), if_pos hq, if_neg]
      rintro ⟨hd, -, hij⟩
      rw [hreports.mpr ⟨hd, hij.symm⟩] at hrep
      cases hrep
  · have hq' : j ∉ queuedAfter ts (s.log ++ [.completed i d]) := fun hmem =>
      hq (mem_queuedAfter_concat.mp hmem).1
    rw [if_neg hq, if_neg hq', if_neg (fun hyes => hq hyes.2.1)]

/-- After the stop, a completion gives no target that was not taken another reason. -/
theorem Staged.Judged.finish_reason_stopped (h : s.Judged ts keepGoing maxFailures) {i : Id}
    (d : Delivered) (hstop : s.sched.stage.stop ≠ none) {j : Id} (hji : j ≠ i) :
    ((s.sched.finish i d).entry j).reason = (s.sched.entry j).reason := by
  have hempty : ∀ a, (s.sched.landed i d).stage.queue a = [] := h.ok.stopped hstop
  have hqueued : (s.sched.landed i d).stage.queued = [] := h.queued_nil hstop
  rw [finish_eq]
  split
  · rw [halt_reason, hqueued, if_neg List.not_mem_nil, landed_entry, if_neg hji]
  · have hstop' : ((s.sched.landed i d).account ((s.sched.entry i).collect d)).stage.stop ≠ none :=
      fun hnone => hstop ((account_stop (s.sched.landed i d) _).1.symm.trans hnone)
    obtain ⟨first, hfirst⟩ := Option.ne_none_iff_exists'.mp hstop'
    rw [judge_eq, hfirst]
    simp only
    rw [account_reason, hempty, if_neg (fun hyes => List.not_mem_nil hyes.2), landed_entry,
      if_neg hji]

/-- Finishing a target leaves every reason as the reference has it. -/
theorem Staged.Judged.finish_reasoned (h : s.Judged ts keepGoing maxFailures)
    (hr : s.Reasoned ts keepGoing maxFailures) {i : Id} (hi : i ∈ s.flight) (d : Delivered) :
    Staged.Reasoned ts keepGoing maxFailures
      ⟨s.sched.finish i d, s.flight.erase i, s.log ++ [.completed i d]⟩ := by
  intro j hj htaken
  rw [taken_append, List.mem_append, not_or] at htaken
  have hold := hr j hj htaken.1
  have hji : j ≠ i := by
    rintro rfl
    have hrunning := ((h.ok.mem_flight j).mp hi).2
    rw [(h.notRun j hj).mpr htaken.1] at hrunning
    cases hrunning
  by_cases hstop : s.sched.stage.stop = none
  · have hnone := h.reference_none.mp hstop
    rw [leftReason_of_none hnone] at hold
    obtain ⟨-, hconn, -⟩ := h.collected hi d
    rw [finish_eq, hconn]
    by_cases hd : d.connError = some .default
    · have htrigger : trigger ts keepGoing maxFailures s.log (.completed i d) =
          some ⟨.defaultUnreachable, none⟩ := if_pos hd
      rw [if_pos hd, leftReason_of_trigger hnone htrigger]
      have hsame : j ∈ queuedAfter ts (s.log ++ [.completed i d]) ↔ j ∈ queuedAfter ts s.log := by
        rw [mem_queuedAfter_concat]
        exact and_iff_left ⟨List.not_mem_nil, by simp [Did.reports, hd]⟩
      simp only [hsame]
      refine halted_reason (h.mem_queued hstop j) ?_
      rw [landed_entry, if_neg hji, hold]
    · rw [if_neg hd, judge_eq, (account_stop _ _).1, h.verdict_eq hi hd hstop]
      have hlanded : (s.sched.landed i d).stage.stop = none := hstop
      have hreason := h.accounted_reason hi d hstop hji hold
      rw [hlanded]
      cases htrigger : trigger ts keepGoing maxFailures s.log (.completed i d) with
      | some stop =>
        rw [leftReason_of_trigger hnone htrigger]
        refine halted_reason ?_ hreason
        rw [(h.accounted_ok hi d).mem_queued, h.mem_accounted_queue hi d hstop]
        exact and_iff_left rfl
      | none =>
        have hafter : referenceStop ts keepGoing maxFailures (s.log ++ [.completed i d]) = none := by
          rw [referenceStop_concat, hnone, htrigger]
          rfl
        rw [leftReason_of_none hafter]
        exact hreason
  · rw [leftReason_of_stopped (fun hnone => hstop (h.reference_none.mpr hnone)), ← hold]
    exact h.finish_reason_stopped d hstop hji

/-- Every step leaves every reason as the reference has it. -/
theorem Staged.Judged.step_reasoned (h : s.Judged ts keepGoing maxFailures)
    (hr : s.Reasoned ts keepGoing maxFailures) {c : Call} {s' : Staged} (hs : s.step c = some s') :
    s'.Reasoned ts keepGoing maxFailures := by
  cases Staged.called_of_step hs with
  | idle _ => exact hr
  | took hnext => exact h.next_reasoned hr hnext
  | completed hi d => exact h.finish_reasoned hr hi d
  | drained => exact h.drain_reasoned hr

/-- Of the targets that are not queued any more, those left out are the ones never taken. -/
theorem Staged.Judged.leftOut_iff (h : s.Judged ts keepGoing maxFailures) {i : Id}
    (hi : i < ts.length) (hqueued : i ∉ s.sched.stage.queued) :
    LeftOut ts keepGoing maxFailures s.log i ↔ i ∉ taken s.log := by
  constructor
  · rintro (⟨stop, moment, href, hmem⟩ | hdropped)
    · rw [h.still stop moment href]
      exact (mem_queuedAfter.mp hmem).2.1
    · exact h.dropped i hdropped
  · intro htaken
    cases href : referenceStop ts keepGoing maxFailures s.log with
    | none =>
      have hstop : s.sched.stage.stop = none := by
        rw [h.stop, href]
        rfl
      rcases queued_or_dropped hi htaken with hmem | hdropped
      · have hqueue := (h.queue hstop (shardAt ts i) i).mpr ⟨hmem, rfl⟩
        exact absurd (List.mem_flatMap.mpr ⟨_, h.ok.key_mem i hi, hqueue⟩) hqueued
      · exact .inr hdropped
    | some r =>
      obtain ⟨stop, moment⟩ := r
      obtain ⟨after, hafter⟩ := firstStop_moment href
      rw [h.still stop moment href] at htaken
      rcases queued_or_dropped hi htaken with hmem | hdropped
      · exact .inl ⟨stop, moment, href, hmem⟩
      · refine .inr ?_
        rw [← List.nil_append s.log, hafter]
        exact hdropped.append after

end Steps

/-- The stop of the stage is the reference read off the log, and it is kept whatever happens
later. Once it stands nothing is queued; of the targets that are not queued any more, those left
out and only those are `not_run`, each with the reason the reference has for it. -/
theorem stop_is_reference (ts : List Target) (keepGoing : Bool) (maxFailures : Nat) {s : Staged}
    (hs : Trace Staged.step (fun _ _ => True) (.start ts keepGoing maxFailures) s) :
    s.sched.stage.stop = (referenceStop ts keepGoing maxFailures s.log).map Prod.fst ∧
      (∀ s', Trace Staged.step (fun _ _ => True) s s' → s.sched.stage.stop ≠ none →
        s'.sched.stage.stop = s.sched.stage.stop) ∧
      (s.sched.stage.stop ≠ none → s.sched.stage.queued = []) ∧
      ∀ i < ts.length,
        (i ∉ s.sched.stage.queued →
          ((s.sched.entry i).kind = .notRun ↔ LeftOut ts keepGoing maxFailures s.log i)) ∧
        ((s.sched.entry i).kind = .notRun →
          (s.sched.entry i).reason = leftReason ts keepGoing maxFailures s.log i) := by
  obtain ⟨hj, hreasoned⟩ : s.Judged ts keepGoing maxFailures ∧
      s.Reasoned ts keepGoing maxFailures := by
    refine hs.invariant (I := fun s => s.Judged ts keepGoing maxFailures ∧
      s.Reasoned ts keepGoing maxFailures)
      ⟨Staged.Judged.start ts keepGoing maxFailures, Staged.Reasoned.start ts keepGoing maxFailures⟩ ?_
    rintro s c s' ⟨hj, hr⟩ _ hc
    exact ⟨hj.step hc, hj.step_reasoned hr hc⟩
  refine ⟨hj.stop, ?_, hj.queued_nil, ?_⟩
  · intro s' hs' hstop
    have hboth : s'.Judged ts keepGoing maxFailures ∧
        s'.sched.stage.stop = s.sched.stage.stop := by
      refine hs'.invariant (I := fun s' => s'.Judged ts keepGoing maxFailures ∧
        s'.sched.stage.stop = s.sched.stage.stop) ⟨hj, rfl⟩ ?_
      rintro s₁ c s₂ ⟨h₁, hsame⟩ _ hc
      exact ⟨h₁.step hc, (h₁.stop_kept hc (hsame ▸ hstop)).trans hsame⟩
    exact hboth.2
  · intro i hi
    refine ⟨fun hqueued => ?_, fun hkind => ?_⟩
    · rw [hj.notRun i hi, hj.leftOut_iff hi hqueued]
    · exact hreasoned i hi ((hj.notRun i hi).mp hkind)

/-- Three tenants on one shard and one on another. -/
def fourTargets : List Target :=
  [⟨"acme", "tenant_1", 1, .active⟩, ⟨"bolt", "tenant_1", 2, .active⟩,
    ⟨"core", "tenant_1", 3, .active⟩, ⟨"dune", "tenant_2", 4, .active⟩]

/-- What a worker delivers for a target. -/
def ended (kind : Kind) (i : Id) : Call :=
  .finish i (.result ⟨kind, (targetAt fourTargets i).schema, shardAt fourTargets i, .applied, "",
    [], none⟩)

/-- The targets of the first shard fail, while one of the other completes in between. -/
def failingRun : List Call :=
  [.next 2 1, .next 2 1, ended .failed 0, .next 2 1, ended .ok 3, ended .failed 1, .drain]

/-- Two failures in a row on `tenant_1` stop the stage, and the third target is not run. -/
theorem stop_is_reference_failing :
    ∃ s, runEvents Staged.step (.start fourTargets true 2) failingRun = some s ∧
      s.sched.stage.stop = some ⟨.maxFailures, some "tenant_1"⟩ ∧
      s.sched.stage.stop = (referenceStop fourTargets true 2 s.log).map Prod.fst ∧
      s.sched.stage.queued = [] ∧ LeftOut fourTargets true 2 s.log 2 ∧
      leftReason fourTargets true 2 s.log 2 = .stopped := by
  obtain ⟨s, hs⟩ : ∃ s, runEvents Staged.step (.start fourTargets true 2) failingRun = some s :=
    ⟨_, rfl⟩
  have hfacts : (runEvents Staged.step (.start fourTargets true 2) failingRun).map
      (fun s => (s.sched.stage.stop, (s.sched.entry 2).kind, (s.sched.entry 2).reason)) =
      some (some ⟨.maxFailures, some "tenant_1"⟩, .notRun, .stopped) := rfl
  rw [hs, Option.map_some, Option.some.injEq, Prod.mk.injEq, Prod.mk.injEq] at hfacts
  obtain ⟨hstop, hkind, hreason⟩ := hfacts
  have htrace := Trace.of_runEvents (R := fun _ _ => True) .start
    (Allowed.of_forall fun _ _ => trivial) hs
  obtain ⟨href, -, hempty, hleft⟩ := stop_is_reference fourTargets true 2 htrace
  have hqueued : s.sched.stage.queued = [] := hempty (by simp [hstop])
  obtain ⟨hout, hwhy⟩ := hleft 2 (by decide)
  refine ⟨s, hs, hstop, href, hqueued, (hout ?_).mp hkind, (hwhy hkind).symm.trans hreason⟩
  rw [hqueued]
  exact List.not_mem_nil

end MtShards.Scheduler
