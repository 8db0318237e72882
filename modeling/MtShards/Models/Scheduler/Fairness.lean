import Mathlib.Algebra.Order.Group.Abs
import Mathlib.Data.String.Basic
import MtShards.Core.RoundRobin
import MtShards.Models.Scheduler.FailureLimit

/-!
# Shards take turns

`pick_next` asks the shards in their order, starting behind the one that was served last. A stage
is followed from any state whose queues and in-flight counts fit together: `next` comes back with
nothing only if there is nothing it may take, and while two shards both have targets queued, a
sequential run takes from them alternately.
-/

namespace MtShards.Scheduler

open MtShards.Core
open MtShards.Migrator (Kind Side Exn)

/-! ### The order in which shards are asked -/

/-- The shard behind which the asking starts: the one served last, if it has a queue. -/
def TenantStage.place (st : TenantStage) : Option Alias := st.last.filter (· ∈ st.keys)

/-- Sorted shards are strictly increasing. -/
theorem pairwise_sortedShards {keys : List Alias} (h : keys.Nodup) :
    (sortedShards keys).Pairwise (· < ·) := by
  have hle : (sortedShards keys).Pairwise (· ≤ ·) := List.pairwise_insertionSort _ _
  have hne : (sortedShards keys).Nodup := (List.perm_insertionSort _ _).nodup_iff.mpr h
  exact hle.imp₂ (fun _ _ => lt_of_le_of_ne) hne

/-- The shards are asked in the order of the rotation. -/
theorem pairwise_shardOrder {keys : List Alias} (h : keys.Nodup) (after : Option Alias) :
    (shardOrder keys after).Pairwise (Ahead (after.filter (· ∈ keys))) := by
  cases after with
  | none => exact pairwise_sortedShards h
  | some a =>
    by_cases ha : a ∈ keys
    · have hsorted : a ∈ sortedShards keys := mem_sortedShards.mpr ha
      have horder : shardOrder keys (some a) = rotate (sortedShards keys) a := by
        simp only [shardOrder, if_pos hsorted]
        rfl
      simp only [horder, Option.filter_some, ha, decide_true, if_true]
      exact pairwise_rotate (pairwise_sortedShards h) hsorted
    · have hsorted : a ∉ sortedShards keys := fun hmem => ha (mem_sortedShards.mp hmem)
      have horder : shardOrder keys (some a) = sortedShards keys := by
        simp only [shardOrder, if_neg hsorted]
      simp only [horder, Option.filter_some, ha, decide_false, Bool.false_eq_true, if_false]
      exact pairwise_sortedShards h

/-- The shard that is taken from is the one that `pick_next` found. -/
theorem pickNext_of_next {st st' : TenantStage} {jobs perShard : Int} {i : Id}
    (h : st.next jobs perShard = some (i, st')) :
    pickNext st.keys st.queue st.inflight jobs perShard st.last = st'.last := by
  rw [TenantStage.next] at h
  split at h
  · cases h
  · split at h
    · cases h
    · rename_i a hpick
      split at h
      · cases h
      · cases h
        exact hpick

/-- The shard that is taken from is asked before every other one that could be taken from. -/
theorem ahead_of_next {st st' : TenantStage} {jobs perShard : Int} {i : Id} {p a : Alias}
    (hnodup : st.keys.Nodup) (h : st.next jobs perShard = some (i, st')) (hlast : st'.last = some p)
    (ha : a ∈ st.keys) (hqueue : st.queue a ≠ []) (hroom : st.inflight a < perShard) :
    p = a ∨ Ahead st.place p a := by
  have hpick := pickNext_of_next h
  rw [hlast, pickNext] at hpick
  split at hpick
  · cases hpick
  · refine ahead_of_find (pairwise_shardOrder hnodup st.last) hpick (mem_shardOrder.mpr ha) ?_
    simp [hqueue, hroom]

/-! ### Emptying queues -/

/-- The shard of an entry. -/
def Sched.shard (s : Sched) (i : Id) : Alias := (s.entry i).target.shard

/-- `s'` is `s` with some of its queues emptied: shards and in-flight counts are as they were. -/
structure Sched.Cleared (s s' : Sched) : Prop where
  shard : s'.shard = s.shard
  keys : s'.stage.keys = s.stage.keys
  inflight : s'.stage.inflight = s.stage.inflight
  last : s'.stage.last = s.stage.last
  queue : ∀ a, s'.stage.queue a = s.stage.queue a ∨ s'.stage.queue a = []

section Clearing

variable {s s₁ s₂ : Sched}

/-- A stage is itself with no queue emptied. -/
theorem Sched.Cleared.refl (s : Sched) : s.Cleared s := ⟨rfl, rfl, rfl, rfl, fun _ => .inl rfl⟩

/-- Emptying queues twice is emptying queues. -/
theorem Sched.Cleared.trans (h₁ : s.Cleared s₁) (h₂ : s₁.Cleared s₂) : s.Cleared s₂ := by
  refine ⟨h₂.shard.trans h₁.shard, h₂.keys.trans h₁.keys, h₂.inflight.trans h₁.inflight,
    h₂.last.trans h₁.last, fun a => ?_⟩
  rcases h₂.queue a with heq | hnil
  · rw [heq]
    exact h₁.queue a
  · exact .inr hnil

/-- Leaving entries out does not move them to another shard. -/
theorem writeAll_leave_shard (entry : Id → Entry) (ids : List Id) (reason : EntryReason)
    (msg : String) (i : Id) :
    (writeAll entry ids (Entry.leave reason msg) i).target.shard = (entry i).target.shard := by
  by_cases hi : i ∈ ids
  · rw [writeAll_of_mem hi]
    rfl
  · rw [writeAll_of_notMem hi]

/-- A halt only empties queues. -/
theorem Sched.cleared_halt (s : Sched) (stop : Stop) (override : Bool) :
    s.Cleared (s.halt stop override) :=
  ⟨funext (writeAll_leave_shard s.entry _ _ _), rfl, rfl, rfl, fun _ => .inr rfl⟩

/-- Dropping a shard only empties a queue. -/
theorem Sched.cleared_dropShard (s : Sched) (a : Alias) : s.Cleared (s.dropShard a) := by
  refine ⟨funext (writeAll_leave_shard s.entry _ _ _), rfl, rfl, rfl, fun b => ?_⟩
  by_cases hb : b = a
  · subst hb
    exact .inr (Function.update_self ..)
  · exact .inl (Function.update_of_ne hb ..)

/-- Counting the failures of a shard touches no queue. -/
theorem Sched.cleared_countFailures (s : Sched) (a : Alias) (n : Int) :
    s.Cleared (s.countFailures a n) :=
  ⟨rfl, rfl, rfl, rfl, fun _ => .inl rfl⟩

/-- Accounting for a finished target only empties queues. -/
theorem Sched.cleared_account (s : Sched) (e : Entry) : s.Cleared (s.account e) := by
  rw [Sched.account]
  split
  · exact s.cleared_dropShard _
  · split
    · exact s.cleared_countFailures _ _
    · split
      · exact s.cleared_countFailures _ _
      · exact .refl s

/-- Judging a finished target only empties queues. -/
theorem Sched.cleared_judge (s : Sched) (e : Entry) : s.Cleared (s.judge e) := by
  rw [judge_eq]
  split
  · exact s.cleared_halt _ _
  · exact .refl s

/-- A target that has landed is finished by emptying queues. -/
theorem Sched.cleared_finish (s : Sched) (i : Id) (d : Delivered) :
    (s.landed i d).Cleared (s.finish i d) := by
  rw [finish_eq]
  split
  · exact cleared_halt _ _ _
  · exact (cleared_account _ _).trans (cleared_judge _ _)

/-- A target lands on its own shard. -/
theorem Sched.landed_shard (s : Sched) (i : Id) (d : Delivered) :
    (s.landed i d).shard = s.shard := by
  funext j
  rw [Sched.shard, landed_entry]
  split
  · rename_i hj
    rw [collect_target, hj, Sched.shard]
  · rfl

end Clearing

/-! ### Stages that fit together -/

/-- The targets in flight on a shard. -/
def Staged.flightOn (s : Staged) (a : Alias) : List Id :=
  s.flight.filter fun i => s.sched.shard i = a

/-- The queues hold targets of their own shards, and the in-flight counts those in flight. -/
structure Staged.Kept (s : Staged) : Prop where
  keys_nodup : s.sched.stage.keys.Nodup
  queue_mem : ∀ a, s.sched.stage.queue a ≠ [] → a ∈ s.sched.stage.keys
  queue_shard : ∀ a, ∀ i ∈ s.sched.stage.queue a, s.sched.shard i = a
  flight_mem : ∀ i ∈ s.flight, s.sched.shard i ∈ s.sched.stage.keys
  inflight : ∀ a, s.sched.stage.inflight a = (s.flightOn a).length

section Keeping

variable {s s' : Staged} {jobs perShard : Int} {i : Id} {st : TenantStage} {a b : Alias}

/-- The stage of a target list is one. -/
theorem Staged.Kept.start (ts : List Target) (keepGoing : Bool) (maxFailures : Int) :
    Staged.Kept ⟨.of ts keepGoing maxFailures, [], []⟩ := by
  have hok := Sched.ok_of ts keepGoing maxFailures
  refine ⟨hok.keys_nodup, ?_, ?_, nofun, hok.inflight⟩
  · intro a hne
    obtain ⟨i, hi⟩ := List.exists_mem_of_ne_nil _ hne
    obtain ⟨hlt, ha, -⟩ := (hok.mem_queue a i).mp hi
    exact ha ▸ hok.key_mem i hlt
  · intro a i hi
    exact ((hok.mem_queue a i).mp hi).2.1

/-- The in-flight counts of the shards add up to the targets in flight. -/
theorem Staged.Kept.sum_inflight (h : s.Kept) :
    (s.sched.stage.keys.map s.sched.stage.inflight).sum = s.flight.length := by
  rw [funext h.inflight]
  exact sum_length_filter h.keys_nodup s.sched.shard s.flight h.flight_mem

/-- Emptying queues keeps the rest together. -/
theorem Staged.Kept.cleared {sched sched' : Sched} {flight : List Id} {log log' : List Did}
    (h : Staged.Kept ⟨sched, flight, log⟩) (hc : sched.Cleared sched') :
    Staged.Kept ⟨sched', flight, log'⟩ := by
  refine ⟨hc.keys ▸ h.keys_nodup, ?_, ?_, ?_, ?_⟩
  · intro a hne
    rcases hc.queue a with heq | hnil
    · exact hc.keys ▸ h.queue_mem a (heq ▸ hne)
    · exact absurd hnil hne
  · intro a i hi
    simp only [hc.shard]
    rcases hc.queue a with heq | hnil
    · exact h.queue_shard a i (heq ▸ hi)
    · simp [hnil] at hi
  · intro i hi
    simp only [hc.shard, hc.keys]
    exact h.flight_mem i hi
  · intro a
    simp only [hc.inflight, Staged.flightOn, hc.shard]
    exact h.inflight a

/-- What `next` takes: the head of the queue of its shard, which comes last from then on. -/
theorem Staged.Kept.taken_head (h : s.Kept)
    (hnext : s.sched.stage.next jobs perShard = some (i, st)) :
    ∃ rest, s.sched.stage.queue (s.sched.shard i) = i :: rest ∧
      (s.flight.length : Int) < jobs ∧ ((s.flightOn (s.sched.shard i)).length : Int) < perShard ∧
      st = { s.sched.stage with
        last := some (s.sched.shard i)
        inflight := Function.update s.sched.stage.inflight (s.sched.shard i)
          (s.sched.stage.inflight (s.sched.shard i) + 1)
        queue := Function.update s.sched.stage.queue (s.sched.shard i) rest } := by
  obtain ⟨a, rest, -, hjobs, hroom, hqueue, hst⟩ := next_eq_some hnext
  have hshard : s.sched.shard i = a := by
    refine h.queue_shard a i ?_
    rw [hqueue]
    exact List.mem_cons_self
  rw [h.sum_inflight] at hjobs
  rw [h.inflight] at hroom
  subst hshard
  exact ⟨rest, hqueue, hjobs, hroom, hst⟩

/-- Marking an entry as running does not move it to another shard. -/
theorem Sched.markRunning_shard (s : Sched) (i : Id) : (s.markRunning i).shard = s.shard := by
  funext j
  rw [Sched.shard, Sched.markRunning_target, Sched.shard]

/-- A target that is taken is in flight on its shard. -/
theorem Staged.Kept.next (h : s.Kept) (hnext : s.sched.stage.next jobs perShard = some (i, st)) :
    Staged.Kept ⟨Sched.markRunning ⟨s.sched.entry, st⟩ i, s.flight ++ [i], s.log ++ [.took i]⟩ := by
  obtain ⟨rest, hqueue, -, -, rfl⟩ := h.taken_head hnext
  have hmem : s.sched.shard i ∈ s.sched.stage.keys := h.queue_mem _ (by simp [hqueue])
  -- A queue is the old one, or the old one without its head.
  have hsub : ∀ a, (Function.update s.sched.stage.queue (s.sched.shard i) rest a).Sublist
      (s.sched.stage.queue a) := by
    intro a
    by_cases ha : a = s.sched.shard i
    · subst ha
      rw [Function.update_self, hqueue]
      exact List.sublist_cons_self i rest
    · rw [Function.update_of_ne ha]
  refine ⟨h.keys_nodup, ?_, ?_, ?_, ?_⟩
  · intro a hne
    refine h.queue_mem a fun hnil => hne ?_
    exact List.sublist_nil.mp (hnil ▸ hsub a)
  · intro a j hj
    rw [Sched.markRunning_shard]
    exact h.queue_shard a j ((hsub a).mem hj)
  · intro j hj
    rw [Sched.markRunning_shard]
    rcases List.mem_append.mp hj with hj | hj
    · exact h.flight_mem j hj
    · rw [List.mem_singleton.mp hj]
      exact hmem
  · intro a
    have hflight : ((s.flight ++ [i]).filter fun j => s.sched.shard j = a).length =
        (s.flightOn a).length + if s.sched.shard i = a then 1 else 0 := by
      rw [List.filter_append, List.length_append, Staged.flightOn]
      by_cases ha : s.sched.shard i = a
      · simp [ha]
      · simp [ha]
    simp only [Staged.flightOn, Sched.markRunning_shard]
    change Function.update s.sched.stage.inflight (s.sched.shard i)
        (s.sched.stage.inflight (s.sched.shard i) + 1) a =
      (((s.flight ++ [i]).filter fun j => s.sched.shard j = a).length : Int)
    rw [hflight]
    by_cases ha : s.sched.shard i = a
    · subst ha
      rw [Function.update_self, h.inflight, if_pos rfl, Nat.cast_add, Nat.cast_one]
    · rw [Function.update_of_ne fun he => ha he.symm, h.inflight, if_neg ha, Nat.add_zero]

/-- A target that has landed is not in flight on its shard any more. -/
theorem Staged.Kept.landed (h : s.Kept) (hi : i ∈ s.flight) (d : Delivered) :
    Staged.Kept ⟨s.sched.landed i d, s.flight.erase i, s.log ++ [.completed i d]⟩ := by
  have hcount : ∀ a, ((s.flight.erase i).filter fun j => s.sched.shard j = a).length =
      (s.flightOn a).length - if s.sched.shard i = a then 1 else 0 := by
    intro a
    rw [Staged.flightOn, ← List.countP_eq_length_filter, ← List.countP_eq_length_filter,
      List.countP_erase]
    simp [hi]
  refine ⟨h.keys_nodup, h.queue_mem, ?_, ?_, ?_⟩
  · intro a j hj
    rw [Sched.landed_shard]
    exact h.queue_shard a j hj
  · intro j hj
    rw [Sched.landed_shard]
    exact h.flight_mem j (List.mem_of_mem_erase hj)
  · intro a
    simp only [Staged.flightOn, Sched.landed_shard]
    have hself : ((s.sched.entry i).collect d).target.shard = s.sched.shard i := by
      rw [collect_target, Sched.shard]
    change Function.update s.sched.stage.inflight ((s.sched.entry i).collect d).target.shard
        (s.sched.stage.inflight ((s.sched.entry i).collect d).target.shard - 1) a = _
    rw [hself, hcount]
    by_cases ha : s.sched.shard i = a
    · subst ha
      have hpos : 0 < (s.flightOn (s.sched.shard i)).length :=
        List.length_pos_of_mem (List.mem_filter.mpr ⟨hi, decide_eq_true rfl⟩)
      rw [Function.update_self, h.inflight, if_pos rfl]
      omega
    · rw [Function.update_of_ne fun he => ha he.symm, h.inflight, if_neg ha, Nat.sub_zero]

/-- Every step keeps the queues and the in-flight counts right. -/
theorem Staged.Kept.step {c : Call} (h : s.Kept) (hs : s.step c = some s') : s'.Kept := by
  cases Staged.called_of_step hs with
  | idle _ => exact h
  | took hnext => exact h.next hnext
  | completed hi d => exact (h.landed hi d).cleared (Sched.cleared_finish _ _ _)
  | drained => exact Staged.Kept.cleared h (Sched.cleared_halt _ _ _)

/-- `next` comes back with nothing only if there is nothing that it may take. -/
theorem Staged.Kept.idle (h : s.Kept) (hnext : s.sched.stage.next jobs perShard = none) :
    s.sched.stage.stop ≠ none ∨ jobs ≤ s.flight.length ∨
      ∀ a, s.sched.stage.queue a ≠ [] → perShard ≤ (s.flightOn a).length := by
  rcases next_eq_none hnext with hstop | hfull | hall
  · exact .inl hstop
  · exact .inr (.inl (h.sum_inflight ▸ hfull))
  · refine .inr (.inr fun a hne => ?_)
    rw [← h.inflight]
    exact (hall a (h.queue_mem a hne)).resolve_left hne

/-! ### Taking turns -/

/-- What a call that takes no target leaves: the shards, the place in the rotation, the targets
started. -/
theorem Staged.step_cases {c : Call} (hs : s.step c = some s') :
    (∃ jobs perShard i st, c = .next jobs perShard ∧
      s.sched.stage.next jobs perShard = some (i, st) ∧
      s' = ⟨Sched.markRunning ⟨s.sched.entry, st⟩ i, s.flight ++ [i], s.log ++ [.took i]⟩) ∨
    s'.sched.shard = s.sched.shard ∧ s'.sched.stage.place = s.sched.stage.place ∧
      taken s'.log = taken s.log := by
  cases Staged.called_of_step hs with
  | idle _ => exact .inr ⟨rfl, rfl, rfl⟩
  | took hnext => exact .inl ⟨_, _, _, _, rfl, hnext, rfl⟩
  | @completed i hi d =>
    have hc := Sched.cleared_finish s.sched i d
    refine .inr ⟨hc.shard.trans (Sched.landed_shard _ _ _), ?_, ?_⟩
    · simp only [TenantStage.place, hc.last, hc.keys]
      rfl
    · rw [taken_append]
      exact List.append_nil _
  | drained =>
    have hc := Sched.cleared_halt s.sched ⟨.signal, none⟩ false
    refine .inr ⟨hc.shard, rfl, ?_⟩
    rw [taken_append]
    exact List.append_nil _

/-- With at most one target in flight, the shard that is taken from is asked before every other
one with a queue. -/
theorem Staged.Kept.ahead (h : s.Kept) (hnext : s.sched.stage.next 1 perShard = some (i, st))
    (ha : s.sched.stage.queue a ≠ []) :
    s.sched.shard i = a ∨ Ahead s.sched.stage.place (s.sched.shard i) a := by
  obtain ⟨rest, -, hjobs, hroom, hst⟩ := h.taken_head hnext
  have hnil : s.flight = [] := by
    apply List.eq_nil_of_length_eq_zero
    omega
  have hnone : ∀ b, (s.flightOn b).length = 0 := by
    intro b
    simp [Staged.flightOn, hnil]
  refine ahead_of_next h.keys_nodup hnext (by rw [hst]) (h.queue_mem a ha) ha ?_
  rw [h.inflight, hnone]
  rwa [hnone] at hroom

/-- The shard that is taken from is the last one in the rotation. -/
theorem Staged.Kept.place_next (h : s.Kept)
    (hnext : s.sched.stage.next jobs perShard = some (i, st)) :
    st.place = some (s.sched.shard i) := by
  obtain ⟨rest, hqueue, -, -, rfl⟩ := h.taken_head hnext
  have hmem := h.queue_mem (s.sched.shard i) (by simp [hqueue])
  simp only [TenantStage.place, Option.filter_some, hmem, decide_true, if_true]

/-- A call of a sequential run: one target may be in flight. -/
def Call.Sequential : Call → Prop
  | .next jobs _ => jobs = 1
  | _ => True

instance (c : Call) : Decidable c.Sequential :=
  match c with
  | .next jobs _ => inferInstanceAs (Decidable (jobs = 1))
  | .finish _ _ => .isTrue trivial
  | .drain => .isTrue trivial

/-- Two shards both have queued targets. -/
def Staged.BothQueued (a b : Alias) (s : Staged) : Prop :=
  s.sched.stage.queue a ≠ [] ∧ s.sched.stage.queue b ≠ []

instance (a b : Alias) (s : Staged) : Decidable (s.BothQueued a b) :=
  inferInstanceAs (Decidable (_ ∧ _))

/-- The targets that were started from a shard. -/
def Staged.startedOn (s : Staged) (a : Alias) : List Id :=
  (taken s.log).filter fun i => s.sched.shard i = a

/-- While two shards both have queued targets, a sequential run serves shards in rotation. -/
theorem Staged.Kept.served (h : s.Kept)
    (hs : Trace Staged.step (fun s c => c.Sequential ∧ s.BothQueued a b) s s') :
    s'.Kept ∧ s'.sched.shard = s.sched.shard ∧ ∃ ids, taken s'.log = taken s.log ++ ids ∧
      Served a b s.sched.stage.place (ids.map s.sched.shard) s'.sched.stage.place := by
  refine hs.invariant (I := fun t => t.Kept ∧ t.sched.shard = s.sched.shard ∧
    ∃ ids, taken t.log = taken s.log ++ ids ∧
      Served a b s.sched.stage.place (ids.map s.sched.shard) t.sched.stage.place) ?_ ?_
  · exact ⟨h, rfl, [], (List.append_nil _).symm, .nil⟩
  · rintro t c t' ⟨hkept, hshard, ids, htaken, hserved⟩ ⟨hseq, ha, hb⟩ hstep
    refine ⟨hkept.step hstep, ?_⟩
    rcases Staged.step_cases hstep with ⟨jobs, perShard, i, st, rfl, hnext, rfl⟩ | hsame
    · cases hseq
      refine ⟨(Sched.markRunning_shard _ i).trans hshard, ids ++ [i], ?_, ?_⟩
      · rw [taken_append, htaken, List.append_assoc]
        rfl
      · change Served a b _ _ st.place
        rw [hkept.place_next hnext, List.map_append, ← hshard]
        rw [← hshard] at hserved
        exact hserved.serve (hkept.ahead hnext ha) (hkept.ahead hnext hb)
    · obtain ⟨hshard', hplace, htaken'⟩ := hsame
      refine ⟨hshard'.trans hshard, ids, htaken'.trans htaken, ?_⟩
      rw [hplace]
      exact hserved

/-- Two shards that both have queued targets are served the same number of times, or one of them
once more. -/
theorem Staged.Kept.balanced (h : s.Kept)
    (hs : Trace Staged.step (fun s c => c.Sequential ∧ s.BothQueued a b) s s') :
    |(((s'.startedOn a).length : Int) - (s.startedOn a).length) -
      ((s'.startedOn b).length - (s.startedOn b).length)| ≤ 1 := by
  obtain ⟨-, hshard, ids, htaken, hserved⟩ := h.served hs
  have hcount : ∀ x, (s'.startedOn x).length =
      (s.startedOn x).length + (ids.map s.sched.shard).count x := by
    intro x
    rw [Staged.startedOn, Staged.startedOn, hshard, htaken, List.filter_append, List.length_append,
      List.count, List.countP_map, List.countP_eq_length_filter]
    rfl
  rw [hcount a, hcount b, abs_le]
  by_cases hab : a = b
  · subst hab
    omega
  · have hboth := hserved.balanced hab
    omega

end Keeping

/-- Round-robin, from any stage that fits together, whatever is called. `next` comes back with
nothing only if the stage has stopped, `jobs` targets are in flight, or every shard with a queued
target has `per_shard` in flight; and over any stretch of calls with one target in flight during
which two shards both have queued targets, as many targets are started from the one as from the
other, up to one. -/
theorem round_robin_fair {s₀ s : Staged} (h₀ : s₀.Kept)
    (hs : Trace Staged.step (fun _ _ => True) s₀ s) :
    (∀ jobs perShard, s.sched.stage.next jobs perShard = none →
      s.sched.stage.stop ≠ none ∨ jobs ≤ s.flight.length ∨
        ∀ a, s.sched.stage.queue a ≠ [] → perShard ≤ (s.flightOn a).length) ∧
    ∀ a b s', Trace Staged.step (fun s c => c.Sequential ∧ s.BothQueued a b) s s' →
      |(((s'.startedOn a).length : Int) - (s.startedOn a).length) -
        ((s'.startedOn b).length - (s.startedOn b).length)| ≤ 1 := by
  have hkept : s.Kept := hs.invariant h₀ fun s c s' h _ hstep => h.step hstep
  exact ⟨fun jobs perShard hnext => hkept.idle hnext, fun a b s' hs' => hkept.balanced hs'⟩

/-- While a target of the first shard is running, nothing else is taken; it completes, and one of
the other shard is taken. -/
theorem round_robin_fair_turn :
    ∃ s s', runEvents Staged.step (.start fourTargets true 2) [.next 1 1] = some s ∧
      runEvents Staged.step s [ended .ok 0, .next 1 1] = some s' ∧ taken s'.log = [0, 3] ∧
      (s.sched.stage.stop ≠ none ∨ (1 : Int) ≤ s.flight.length ∨
        ∀ a, s.sched.stage.queue a ≠ [] → (1 : Int) ≤ (s.flightOn a).length) ∧
      |(((s'.startedOn "tenant_1").length : Int) - (s.startedOn "tenant_1").length) -
        ((s'.startedOn "tenant_2").length - (s.startedOn "tenant_2").length)| ≤ 1 := by
  obtain ⟨s, hs⟩ : ∃ s, runEvents Staged.step (.start fourTargets true 2) [.next 1 1] = some s :=
    ⟨_, rfl⟩
  have hfacts : (runEvents Staged.step (.start fourTargets true 2) [.next 1 1]).map
      (fun s => ((s.sched.stage.next 1 1).map Prod.fst,
        (runEvents Staged.step s [ended .ok 0, .next 1 1]).map fun s' => taken s'.log)) =
      some (none, some [0, 3]) := rfl
  have hallowed : ∀ s ∈ runEvents Staged.step (.start fourTargets true 2) [.next 1 1],
      Allowed Staged.step (fun s c => c.Sequential ∧ s.BothQueued "tenant_1" "tenant_2") s
        [ended .ok 0, .next 1 1] := by
    decide +kernel
  rw [hs, Option.map_some, Option.some.injEq, Prod.mk.injEq, Option.map_eq_none_iff,
    Option.map_eq_some_iff] at hfacts
  obtain ⟨hnext, s', hs', htaken⟩ := hfacts
  obtain ⟨hidle, hfair⟩ := round_robin_fair (Staged.Kept.start fourTargets true 2)
    (.of_runEvents .start (Allowed.of_forall fun _ _ => trivial) hs)
  exact ⟨s, s', hs, hs', htaken, hidle 1 1 hnext,
    hfair _ _ s' (.of_runEvents .start (hallowed s hs) hs')⟩

/-! ### The sequential loop -/

/-- The sequential loop as a stage at work. -/
structure SeqLoop.Shows (l : SeqLoop) (s : Staged) : Prop where
  sched : s.sched = l.sched
  flight : s.flight = l.flight
  started : taken s.log = l.started

section Loop

variable {ts : List Target} {l l' : SeqLoop} {s : Staged} {a b : Alias}

/-- A step of the loop is at most one call of the stage. -/
theorem SeqLoop.Shows.step {e : SeqEvent} (h : l.Shows s) (hs : l.step e = some l') :
    ∃ s', l'.Shows s' ∧ (s' = s ∨ ∃ c : Call, c.Sequential ∧ s.step c = some s') := by
  obtain ⟨hsched, hflight, hstarted⟩ := h
  have hhalted : 0 < l.signals → l.sched.drain l.signals = l.sched.halt ⟨.signal, none⟩ false :=
    fun hsignals => if_pos hsignals
  have hworking : ¬ 0 < l.signals → l.sched.drain l.signals = l.sched :=
    fun hsignals => if_neg hsignals
  cases SeqLoop.moved_of_step hs with
  | returned hpc hnext =>
    rw [SeqLoop.flight, hpc] at hflight
    by_cases hsignals : 0 < l.signals
    · refine ⟨⟨s.sched.halt ⟨.signal, none⟩ false, s.flight, s.log ++ [.drained]⟩,
        ⟨?_, hflight, ?_⟩, .inr ⟨.drain, trivial, rfl⟩⟩
      · rw [hsched]
        exact (hhalted hsignals).symm
      · rw [taken_append, ← hstarted]
        exact List.append_nil _
    · exact ⟨s, ⟨hsched.trans (hworking hsignals).symm, hflight, hstarted⟩, .inl rfl⟩
  | @took i st hpc hnext =>
    rw [SeqLoop.flight, hpc] at hflight
    -- A halted stage has nothing to take.
    have hsignals : ¬ 0 < l.signals := by
      intro hsignals
      rw [hhalted hsignals, next_of_stopped (by simp)] at hnext
      cases hnext
    rw [hworking hsignals] at hnext
    refine ⟨⟨Sched.markRunning ⟨s.sched.entry, st⟩ i, s.flight ++ [i], s.log ++ [.took i]⟩,
      ⟨?_, ?_, ?_⟩, .inr ⟨.next 1 1, rfl, ?_⟩⟩
    · simp only [hworking hsignals, hsched]
    · rw [hflight]
      rfl
    · rw [taken_append, ← hstarted]
      rfl
    · simp only [Staged.step, hsched, hnext]
  | @finished i hpc res =>
    rw [SeqLoop.flight, hpc] at hflight
    have hi : i ∈ s.flight := by
      rw [hflight]
      exact List.mem_cons_self
    refine ⟨⟨s.sched.finish i (.result res), s.flight.erase i,
      s.log ++ [.completed i (.result res)]⟩, ⟨?_, ?_, ?_⟩,
      .inr ⟨.finish i (.result res), trivial, ?_⟩⟩
    · rw [hsched]
    · rw [hflight, List.erase_cons_head]
      rfl
    · rw [taken_append, ← hstarted]
      exact List.append_nil _
    · simp only [Staged.step, if_pos hi]
  | signalled => exact ⟨s, ⟨hsched, hflight, hstarted⟩, .inl rfl⟩

/-- A run of the loop is a sequential run of the stage, with the same conditions met on its way. -/
theorem SeqLoop.Shows.trace {P : Sched → Prop} (h : l.Shows s)
    (hl : Trace SeqLoop.step (fun l _ => P l.sched) l l') :
    ∃ s', l'.Shows s' ∧ Trace Staged.step (fun s c => c.Sequential ∧ P s.sched) s s' := by
  induction hl with
  | start => exact ⟨s, h, .start⟩
  | event e _ hP hstep ih =>
    obtain ⟨s₁, h₁, htrace⟩ := ih
    obtain ⟨s₂, h₂, rfl | ⟨c, hseq, hc⟩⟩ := h₁.step hstep
    · exact ⟨s₂, h₂, htrace⟩
    · exact ⟨s₂, h₂, htrace.event c ⟨hseq, h₁.sched ▸ hP⟩ hc⟩

/-- What a stage has started from a shard, for a loop on the entries of a target list. -/
theorem SeqLoop.Shows.startedOn (h : l.Shows s) (hl : l.Sound ts) (a : Alias) :
    s.startedOn a = onShard ts a l.started := by
  have hshard : s.sched.shard = shardAt ts := by
    funext i
    rw [h.sched, Sched.shard, hl.ok.target]
    rfl
  rw [Staged.startedOn, hshard, h.started]
  rfl

/-- The loop takes turns: while two shards both have queued targets, it starts as many from the one
as from the other, up to one. -/
theorem SeqLoop.balanced {keepGoing : Bool} {maxFailures : Int}
    (hl : Trace SeqLoop.step (fun _ _ => True) (.start (.of ts keepGoing maxFailures)) l)
    (hl' : Trace SeqLoop.step
      (fun l _ => l.sched.stage.queue a ≠ [] ∧ l.sched.stage.queue b ≠ []) l l') :
    |(((onShard ts a l'.started).length : Int) - (onShard ts a l.started).length) -
      ((onShard ts b l'.started).length - (onShard ts b l.started).length)| ≤ 1 := by
  have hsound := SeqLoop.sound_of_trace hl
  have hsound' : l'.Sound ts := hl'.invariant hsound fun _ _ _ h _ hs => h.step hs
  obtain ⟨s, hs, htrace⟩ := SeqLoop.Shows.trace (P := fun _ => True)
    (s := ⟨.of ts keepGoing maxFailures, [], []⟩) ⟨rfl, rfl, rfl⟩ hl
  have hkept : s.Kept :=
    htrace.invariant (Staged.Kept.start ts keepGoing maxFailures) fun _ _ _ h _ hc => h.step hc
  obtain ⟨s', hs', htrace'⟩ := hs.trace
    (P := fun s => s.stage.queue a ≠ [] ∧ s.stage.queue b ≠ []) hl'
  have hbalanced := hkept.balanced htrace'
  rwa [hs.startedOn hsound, hs.startedOn hsound, hs'.startedOn hsound', hs'.startedOn hsound']
    at hbalanced

end Loop

end MtShards.Scheduler
