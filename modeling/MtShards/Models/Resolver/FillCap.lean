import Mathlib.Algebra.Order.Ring.Cast
import Mathlib.Algebra.Order.Ring.Rat
import MtShards.Core.RateLimit

/-!
# The cap on database resolves

`tenants.resolver.throttle.FillCap`: a counter in Redis, and the token bucket of the process
where the counter cannot be reached. Numbers are rational, and the clock shows the same or more
from one call to the next.
-/

namespace MtShards.FillCap

open MtShards.Core

/-- `_LocalBucket`. -/
structure LocalBucket where
  tokens : ℚ
  ts : ℚ
  deriving DecidableEq, Repr

namespace LocalBucket

/-- `_LocalBucket()`, with what the clock shows. -/
def new (now : ℚ) : LocalBucket := ⟨0, now⟩

/-- `allow`, with what the clock shows. -/
def allow (b : LocalBucket) (rate now : ℚ) : Bool × LocalBucket :=
  let cap := max 1 rate
  let tokens := min cap (b.tokens + (now - b.ts) * rate)
  if 1 ≤ tokens then (true, ⟨tokens - 1, now⟩) else (false, ⟨tokens, now⟩)

/-- The bucket after some calls. -/
def after (rate : ℚ) (b : LocalBucket) (clock : List ℚ) : LocalBucket :=
  clock.foldl (fun b now => (b.allow rate now).2) b

/-- Some calls, with their answers. -/
def attempts (rate : ℚ) : LocalBucket → List ℚ → List (Attempt ℚ)
  | _, [] => []
  | b, now :: clock => ⟨now, (b.allow rate now).1⟩ :: attempts rate (b.allow rate now).2 clock

/-- The stored tokens are within the capacity. -/
structure InRange (rate : ℚ) (b : LocalBucket) : Prop where
  nonneg : 0 ≤ b.tokens
  le_cap : b.tokens ≤ max 1 rate

variable {rate now start : ℚ} {b : LocalBucket} {clock : List ℚ}

theorem inRange_new : (new now).InRange rate :=
  ⟨le_rfl, zero_le_one.trans (le_max_left 1 rate)⟩

/-- A call sets the clock, and pays its answer out of the tokens and what has come in. -/
theorem allow_pays (b : LocalBucket) (rate now : ℚ) :
    (b.allow rate now).2.ts = now ∧
      (b.allow rate now).2.tokens + (⟨now, (b.allow rate now).1⟩ : Attempt ℚ).cost =
        min (max 1 rate) (b.tokens + rate * (now - b.ts)) := by
  rw [mul_comm rate]
  unfold allow
  dsimp only
  split
  · exact ⟨rfl, sub_add_cancel _ _⟩
  · exact ⟨rfl, add_zero _⟩

theorem InRange.allow (h : b.InRange rate) (hrate : 0 < rate) (hnow : b.ts ≤ now) :
    (b.allow rate now).2.InRange rate := by
  have hgrown : 0 ≤ b.tokens + (now - b.ts) * rate :=
    add_nonneg h.nonneg (mul_nonneg (sub_nonneg.mpr hnow) hrate.le)
  have hcap : (0 : ℚ) ≤ max 1 rate := zero_le_one.trans (le_max_left 1 rate)
  unfold LocalBucket.allow
  dsimp only
  split
  · rename_i hfull
    exact ⟨sub_nonneg.mpr hfull, (sub_le_self _ zero_le_one).trans (min_le_left _ _)⟩
  · exact ⟨le_min hcap hgrown, min_le_left _ _⟩

/-- Between calls, the clock has not gone back. -/
theorem InRange.after (h : b.InRange rate) (hrate : 0 < rate)
    (hclock : (b.ts :: clock).Pairwise (· ≤ ·)) : (b.after rate clock).InRange rate := by
  induction clock generalizing b with
  | nil => exact h
  | cons now clock ih =>
    obtain ⟨hfirst, hrest⟩ := List.pairwise_cons.mp hclock
    refine ih (h.allow hrate (hfirst now List.mem_cons_self)) ?_
    rwa [(allow_pays b rate now).1]

/-- The bucket is a limiter that keeps a level. -/
theorem InRange.paced (h : b.InRange rate) (hrate : 0 < rate)
    (hclock : (b.ts :: clock).Pairwise (· ≤ ·)) :
    Paced (max 1 rate) rate b.tokens b.ts (b.attempts rate clock) := by
  induction clock generalizing b with
  | nil => exact .nil
  | cons now clock ih =>
    obtain ⟨hfirst, hrest⟩ := List.pairwise_cons.mp hclock
    have hnow : b.ts ≤ now := hfirst now List.mem_cons_self
    have hafter := h.allow hrate hnow
    obtain ⟨hts, hpays⟩ := allow_pays b rate now
    have hpaced := ih hafter (by rwa [hts])
    rw [hts] at hpaced
    exact .call hnow hafter.nonneg (hpays.trans_le (min_le_left _ _))
      (hpays.trans_le (min_le_right _ _)) hpaced

/-- The calls of a new bucket stay below its arrival curve. -/
theorem conforms_attempts (hrate : 0 < rate) (hclock : (start :: clock).Pairwise (· ≤ ·)) :
    Conforms (max 1 rate) rate ((new start).attempts rate clock) :=
  (inRange_new.paced (b := new start) hrate hclock).conforms hrate.le
    (zero_le_one.trans (le_max_left 1 rate))

end LocalBucket

open LocalBucket

/-- The token bucket lets through at most its capacity, and its rate times the time, in any
interval of any sequence of calls; and its tokens stay within the capacity. -/
theorem local_bucket_bound {rate start : ℚ} {clock : List ℚ} (hrate : 0 < rate)
    (hclock : (start :: clock).Pairwise (· ≤ ·)) :
    (∀ s t, s ≤ t → (passed s t ((new start).attempts rate clock) : ℚ) ≤
      max 1 rate + rate * (t - s)) ∧
    ∀ earlier, earlier <+: clock → 0 ≤ ((new start).after rate earlier).tokens ∧
      ((new start).after rate earlier).tokens ≤ max 1 rate := by
  refine ⟨conforms_attempts hrate hclock, fun earlier hearlier => ?_⟩
  have hpre : start :: earlier <+: start :: clock := List.cons_prefix_cons.mpr ⟨rfl, hearlier⟩
  have hrange := inRange_new.after (b := new start) hrate (hclock.sublist hpre.sublist)
  exact ⟨hrange.nonneg, hrange.le_cap⟩

/-- Two tokens a second: two calls of three pass at once, and one of them a second later. -/
theorem local_bucket_bound_burst :
    ((new 0).attempts 2 [1, 1, 1, 2]).map Attempt.granted = [true, true, false, true] ∧
      (passed 1 2 ((new 0).attempts 2 [1, 1, 1, 2]) : ℚ) ≤ max 1 2 + 2 * (2 - 1) :=
  ⟨by decide +kernel, (local_bucket_bound (by decide) (by decide)).1 1 2 (by decide)⟩

/-! ### `FillCap` -/

/-- What Redis answers to a probe; `none` where it raises a `RedisError`. -/
structure Probe where
  incr : Option Int
  expire : Option Unit
  deriving DecidableEq, Repr

/-- The counter cannot be reached. -/
def Probe.failed (probe : Probe) : Bool := probe.incr.isNone || probe.expire.isNone

/-- `FillCap.allow`. -/
def allow (limit localRate : Int) (b : LocalBucket) (probe : Probe) (now : ℚ) :
    Bool × LocalBucket :=
  match probe.incr, probe.expire with
  | some n, some _ => (decide (n ≤ limit), b)
  | _, _ => b.allow localRate now

/-- Some calls, each with what Redis answers and what the clock shows: those that the bucket
decides. -/
def fallbacks (limit localRate : Int) : LocalBucket → List (Probe × ℚ) → List (Attempt ℚ)
  | _, [] => []
  | b, (probe, now) :: calls =>
    let rest := fallbacks limit localRate (allow limit localRate b probe now).2 calls
    if probe.failed then ⟨now, (allow limit localRate b probe now).1⟩ :: rest else rest

variable {limit localRate : Int} {b : LocalBucket} {probe : Probe} {now start : ℚ}
  {calls : List (Probe × ℚ)}

private theorem allow_of_failed (h : probe.failed = true) :
    allow limit localRate b probe now = b.allow localRate now := by
  obtain ⟨incr, expire⟩ := probe
  cases incr with
  | none => rfl
  | some n =>
    cases expire with
    | none => rfl
    | some _ => cases h

private theorem allow_of_reached (h : probe.failed = false) : (allow limit localRate b probe now).2 = b := by
  obtain ⟨incr, expire⟩ := probe
  cases incr with
  | none => cases h
  | some n =>
    cases expire with
    | none => cases h
    | some _ => rfl

/-- The bucket sees the calls for which the counter cannot be reached, and no others. -/
theorem fallbacks_eq : fallbacks limit localRate b calls =
    b.attempts localRate ((calls.filter fun call => call.1.failed).map Prod.snd) := by
  induction calls generalizing b with
  | nil => rfl
  | cons call calls ih =>
    obtain ⟨probe, now⟩ := call
    cases hprobe : probe.failed with
    | true =>
      rw [fallbacks, if_pos hprobe, allow_of_failed hprobe, ih, List.filter_cons, if_pos hprobe]
      rfl
    | false =>
      have hreached : ¬ probe.failed = true := Bool.eq_false_iff.mp hprobe
      rw [fallbacks, if_neg hreached, allow_of_reached hprobe, ih, List.filter_cons, if_neg hreached]

/-- While the counter cannot be reached, the pool is protected by the bound of the bucket. -/
theorem fallbacks_bound (hrate : 0 < localRate)
    (hclock : (start :: calls.map Prod.snd).Pairwise (· ≤ ·)) :
    Conforms (max 1 (localRate : ℚ)) localRate (fallbacks limit localRate (new start) calls) := by
  rw [fallbacks_eq]
  refine conforms_attempts (Int.cast_pos.mpr hrate) (hclock.sublist ?_)
  exact (List.filter_sublist.map Prod.snd).cons_cons start

end MtShards.FillCap
